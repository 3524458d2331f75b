import Cascade.Proofs.Hygiene
import Cascade.Proofs.Relabeling

/-!
# Evaluation of a stylesheet with statements left out

A statement that only sets variables can be left out if nobody reads them.  This file says when one
tree is another with such statements left out, block by block, and that the two are evaluated to the
same.

Which variables are read differs from block to block.  A block has variables of its own, which it
takes away when it is entered; what else is read in it is read in the block around it.  A branch of
a conditional has none of its own.
-/

set_option autoImplicit false

namespace Cascade

open Node List

/-! ## Statements left out -/

/-- A statement that has no statements inside. -/
def Kind.isSimple (kind : Kind) : Bool :=
  match kind.treatment with
  | .branch | .rules | .block => false
  | _ => true

/-- A statement that can be left out where only variables with `A` are read: it sets nothing but
other variables. -/
def Idle (A : String → Prop) (n : Node) : Prop :=
  n.kind.settings ≠ [] ∧ n.SetsOnly fun x => ¬ A x

/-- The labels of a block before and after, where variables with `A` are read around it and those
with `A'` in it: it takes the same of these away, and the others come from around it. -/
def Within (A A' : String → Prop) (l l' : Label) : Prop :=
  ∃ scope scope' : Scope, l.scope = some scope ∧ l' = { l with scope := some scope' } ∧
    Scope.ChangeAlike A' scope scope' ∧ ∀ x, A' x → x ∉ scope.modified → A x

mutual

/-- **The second tree is the first with idle statements left out** in its blocks.  Only variables
with `A` are read around it. -/
def Thinned (A : String → Prop) : Node → Node → Prop
  | .mk l cs, m =>
    match l.kind.treatment with
    | .branch => ∃ cs', m = .mk l cs' ∧ ThinnedParts A cs cs'
    | .rules => (∀ x ∈ l.kind.reads, A x) ∧ ∃ cs', m = .mk l cs' ∧ ThinnedRules A cs cs'
    | .block => ∃ l' cs' A', m = .mk l' cs' ∧ Within A A' l l' ∧ (l.isBranch = true → A' = A) ∧
        ThinnedAll A' cs cs'
    | .keep => m = .mk l cs
    | _ => m = .mk l cs ∧ (Node.mk l cs).ReadsOnly A
termination_by structural n => n

/-- The second statements are the first with idle ones left out. -/
def ThinnedAll (A : String → Prop) : List Node → List Node → Prop
  | [], ms => ms = []
  | n :: ns, ms =>
    Idle A n ∧ ThinnedAll A ns ms ∨ ∃ m ms', ms = m :: ms' ∧ Thinned A n m ∧ ThinnedAll A ns ms'
termination_by structural ns => ns

/-- The children of a rule, with statements left out of its block. -/
def ThinnedRules (A : String → Prop) : List Node → List Node → Prop
  | [], ms => ms = []
  | .mk l cs :: rest, ms =>
    if l.relation = some .rules then
      l.kind = .block ∧ ∃ m, ms = m :: rest ∧ Thinned A (.mk l cs) m
    else ∃ ms', ms = .mk l cs :: ms' ∧ ThinnedRules A rest ms'
termination_by structural ns => ns

/-- The parts of a conditional, with statements left out of its branches. -/
def ThinnedParts (A : String → Prop) : List Node → List Node → Prop
  | [], ms => ms = []
  | .mk l cs :: rest, ms => ∃ m ms', ms = m :: ms' ∧ ThinnedParts A rest ms' ∧
    if l.isBranch then (l.kind = .block ∨ l.kind = .conditional) ∧ Thinned A (.mk l cs) m
    else m = .mk l cs ∧ (Node.mk l cs).ReadsOnly A
termination_by structural ns => ns

end

section Cases

variable {A : String → Prop} {l : Label} {cs : List Node} {m : Node}

theorem Thinned.block_cases (h : Thinned A (.mk l cs) m) (hk : l.kind = .block) :
    ∃ l' cs' A', m = .mk l' cs' ∧ Within A A' l l' ∧ (l.isBranch = true → A' = A) ∧
      ThinnedAll A' cs cs' := by
  unfold Thinned at h
  rw [hk] at h
  exact h

/-- Branches keep their place and their kind. -/
theorem Thinned.branch_label (h : Thinned A (.mk l cs) m)
    (hk : l.kind = .block ∨ l.kind = .conditional) :
    ∃ l' cs', m = .mk l' cs' ∧ l'.relation = l.relation ∧ l'.kind = l.kind := by
  rcases hk with hk | hk
  · obtain ⟨l', cs', A', rfl, ⟨_, _, _, rfl, _⟩, -⟩ := h.block_cases hk
    exact ⟨_, cs', rfl, rfl, rfl⟩
  · unfold Thinned at h
    rw [hk] at h
    obtain ⟨cs', rfl, -⟩ := h
    exact ⟨l, cs', rfl, rfl, rfl⟩

theorem ThinnedParts.cons {n : Node} {ns ms : List Node}
    (hbranch : n.label.isBranch = true → (n.kind = .block ∨ n.kind = .conditional) ∧ Thinned A n m)
    (hother : n.label.isBranch = false → m = n ∧ n.ReadsOnly A) (hrest : ThinnedParts A ns ms) :
    ThinnedParts A (n :: ns) (m :: ms) := by
  obtain ⟨l, cs⟩ := n
  unfold ThinnedParts
  refine ⟨m, ms, rfl, hrest, ?_⟩
  split
  · exact hbranch ‹_›
  · exact hother (Bool.eq_false_iff.2 ‹_›)

end Cases

/-! ## Evaluation -/

/-- **The second computation keeps up with the first**: wherever the variables with `A` are bound alike, it
succeeds if the first does, with a result that belongs to that of the first, and they are bound alike
again. -/
def KeepsUp {α β : Type} (A : String → Prop) (R : α → β → Prop) (m : Evaluation α)
    (m' : Evaluation β) : Prop :=
  ∀ b b' a b₁, AgreeExcept (fun x => ¬ A x) b b' → m b = .ok (a, b₁) →
    ∃ a' b₁', m' b' = .ok (a', b₁') ∧ AgreeExcept (fun x => ¬ A x) b₁ b₁' ∧ R a a'

/-- The same statements up to their lines and scopes. -/
def AlikeAll (ns ms : List Node) : Prop :=
  ns.map bare = ms.map bare

section Execute

variable {s : Surroundings} {A : String → Prop}

namespace KeepsUp

variable {α α' β β' : Type} {R : α → α' → Prop} {S : β → β' → Prop}

theorem pure {a : α} {a' : α'} (h : R a a') : KeepsUp A R (Pure.pure a) (Pure.pure a') := by
  rintro b b' _ _ hb ⟨⟩
  exact ⟨a', b', rfl, hb, h⟩

theorem bind {m : Evaluation α} {m' : Evaluation α'} {k : α → Evaluation β}
    {k' : α' → Evaluation β'} (hm : KeepsUp A R m m')
    (hk : ∀ a a', R a a' → KeepsUp A S (k a) (k' a')) :
    KeepsUp A S (m >>= k) (m' >>= k') := by
  intro b b' c b₂ hb hrun
  obtain ⟨⟨a, b₁⟩, ha, hrun⟩ := bind_eq_ok.1 hrun
  obtain ⟨a', b₁', ha', hb₁, haa⟩ := hm b b' a b₁ hb ha
  obtain ⟨c', b₂', hc', hb₂, hcc⟩ := hk a a' haa b₁ b₁' c b₂ hb₁ hrun
  exact ⟨c', b₂', bind_eq_ok.2 ⟨_, ha', hc'⟩, hb₂, hcc⟩

/-- A computation keeps up with itself if it reads nothing else. -/
theorem of_tracked {W : String → Prop} {m : Evaluation α} {log : Bindings → List Lookup}
    (h : Tracked A W m log) : KeepsUp A Eq m m := by
  intro b b' a b₁ hb hrun
  have hsame := (h.blind hb fun _ hlookup => not_not.2 (h.reads hlookup)).1
  rw [hrun] at hsame
  generalize m b' = r at hsame
  cases hsame with
  | ok hb₁ => exact ⟨a, _, rfl, hb₁, rfl⟩

end KeepsUp

/-- What holds of every result of the second part of a computation holds of its results. -/
theorem Evaluation.bind_result {α β : Type} {P : β → Prop} {m : Evaluation α}
    {f : α → Evaluation β} (hf : ∀ a b r, f a b = .ok r → P r.1) (b : Bindings) (r : β × Bindings)
    (h : (m >>= f) b = .ok r) : P r.1 := by
  obtain ⟨⟨a, b'⟩, -, h⟩ := bind_eq_ok.1 h
  exact hf a b' r h

/-- A statement that sets variables is not left. -/
theorem execute_setting {l : Label} {cs : List Node} (h : l.kind.settings ≠ []) {b : Bindings}
    {r : List Node × Bindings} (hrun : (Node.mk l cs).execute s b = .ok r) : r.1 = [] := by
  have hlast {α : Type} (m : Evaluation α) : ∀ (b : Bindings) (r : List Node × Bindings),
      (m >>= fun _ => pure []) b = .ok r → r.1 = [] := by
    refine Evaluation.bind_result (P := (· = [])) fun _ b r h => ?_
    cases h
    rfl
  obtain ⟨kind, line, span, relation, comments, scope⟩ := l
  unfold execute at hrun
  cases kind with
  | declaration name =>
    simp only [Kind.treatment] at hrun
    cases hvalue : (Node.mk ⟨.declaration name, line, span, relation, comments, scope⟩ cs).child?
        .initializer with
    | none =>
      simp only [hvalue] at hrun
      exact hlast _ b r hrun
    | some value =>
      simp only [hvalue] at hrun
      exact Evaluation.bind_result (P := (· = [])) (fun _ => hlast _) b r hrun
  | assign name operator =>
    refine Evaluation.bind_result (P := (· = [])) (fun _ => ?_) b r hrun
    refine Evaluation.bind_result (P := (· = [])) fun _ => ?_
    exact Evaluation.bind_result (P := (· = [])) fun _ => hlast _
  | _ => exact absurd rfl h

/-- An idle statement leaves nothing behind that counts. -/
theorem Idle.execute {A : String → Prop} {n : Node} (h : Idle A n) {b b₁ : Bindings}
    {rs : List Node} (hrun : n.execute s b = .ok (rs, b₁)) :
    AgreeExcept (fun x => ¬ A x) b₁ b ∧ rs = [] := by
  obtain ⟨l, cs⟩ := n
  obtain ⟨hset, hsets⟩ := h
  exact ⟨fun x hx => (execute_tracked _ ⟨readsOnly_true _, hsets⟩).keeps hx hrun, execute_setting hset hrun⟩

/-- Entering a block with its own variables taken away. -/
theorem Within.enter {A' : String → Prop} {l l' : Label} (h : Within A A' l l')
    {m m' : Evaluation (List Node)} (hm : KeepsUp A' AlikeAll m m') :
    KeepsUp A (fun n n' => n.bare = n'.bare) (l.enter s m) (l'.enter s m') := by
  intro b b' n b₁ hb hrun
  obtain ⟨scope, scope', hscope, rfl, halike, hfree⟩ := h
  rw [Label.enter_apply s hscope] at hrun
  obtain ⟨⟨rs, b₂⟩, hrs, hrun⟩ := map_eq_ok.1 hrun
  cases hrun
  have hin : AgreeExcept (fun x => ¬ A' x) (Bindings.entering scope b)
      (Bindings.entering scope' b') := by
    intro x hx
    have hx := not_not.1 hx
    rw [Bindings.find?_entering, Bindings.find?_entering]
    by_cases hmod : x ∈ scope.modified
    · rw [if_pos hmod, if_pos ((halike x hx).1 hmod)]
    · rw [if_neg hmod, if_neg (mt (halike x hx).2 hmod), hb x (not_not.2 (hfree x hx hmod))]
  obtain ⟨rs', b₂', hrs', -, heq⟩ := hm _ _ rs b₂ hin hrs
  refine ⟨.mk { l with scope := some scope' } rs', b', ?_, hb, ?_⟩
  · rw [Label.enter_apply s rfl, hrs']
    rfl
  · show Node.bare _ = Node.bare _
    rw [bare_mk, bare_mk, heq]
    rfl

/-- The first part of a conditional keeps its place. -/
theorem ThinnedParts.cons_cases {l : Label} {cs rest ms : List Node}
    (h : ThinnedParts A (.mk l cs :: rest) ms) :
    ∃ l' cs' ms', ms = .mk l' cs' :: ms' ∧ l'.relation = l.relation ∧ ThinnedParts A rest ms' ∧
      (l.isBranch = true → l'.kind = l.kind ∧ (l.kind = .block ∨ l.kind = .conditional) ∧
        Thinned A (.mk l cs) (.mk l' cs')) ∧
      (l.isBranch = false → Node.mk l' cs' = .mk l cs ∧ (Node.mk l cs).ReadsOnly A) := by
  unfold ThinnedParts at h
  obtain ⟨m, ms', rfl, hrest, hpart⟩ := h
  cases hbranch : l.isBranch with
  | true =>
    rw [hbranch] at hpart
    obtain ⟨l', cs', rfl, hl, hk⟩ := hpart.2.branch_label hpart.1
    exact ⟨l', cs', ms', rfl, hl, hrest, fun _ => ⟨hk, hpart⟩, nofun⟩
  | false =>
    rw [hbranch] at hpart
    obtain ⟨rfl, hreads⟩ := hpart
    exact ⟨l, cs, ms', rfl, rfl, hrest, nofun, fun _ => ⟨rfl, hreads⟩⟩

/-- The condition of a conditional stays what it is. -/
theorem ThinnedParts.conditionHolds {ns ms : List Node} (h : ThinnedParts A ns ms) :
    KeepsUp A Eq (conditionHolds s ns) (conditionHolds s ms) := by
  induction ns generalizing ms with
  | nil =>
    unfold ThinnedParts at h
    subst h
    exact .pure rfl
  | cons n rest ih =>
    obtain ⟨l, cs⟩ := n
    obtain ⟨l', cs', ms', rfl, hl, hrest, -, hother⟩ := h.cons_cases
    unfold Node.conditionHolds
    rw [hl]
    split
    · rename_i hrel
      obtain ⟨heq, hreads⟩ := hother (by rw [Label.isBranch, hrel]; rfl)
      have hvalue := evaluate_tracked (s := s) _ ⟨hreads, (Node.mk l cs).setsOnly_true⟩
      rw [heq]
      exact .of_tracked (hvalue.andThen fun _ => .pure _)
    · exact ih hrest

mutual

/-- **A statement with others left out is evaluated to the same.** -/
theorem Thinned.execute : ∀ {A : String → Prop} {n m : Node}, Thinned A n m →
    KeepsUp A AlikeAll (n.execute s) (m.execute s)
  | A, .mk l cs, m, h => by
    unfold Thinned at h
    cases htreat : l.kind.treatment with
    | branch =>
      rw [htreat] at h
      obtain ⟨cs', rfl, hparts⟩ := h
      unfold execute
      rw [htreat]
      refine hparts.conditionHolds.bind fun holds _ heq => ?_
      subst heq
      refine hparts.executeBranch ?_
      cases holds
      · exact .inr rfl
      · exact .inl rfl
    | rules =>
      rw [htreat] at h
      obtain ⟨hreads, cs', rfl, hrules⟩ := h
      have hlabel : Tracked A (fun _ => True) _ _ := l.interpolate_tracked s hreads
      unfold execute
      rw [htreat]
      refine (KeepsUp.of_tracked hlabel).bind fun label _ heq => ?_
      subst heq
      refine hrules.executeRules.bind fun children children' heq => .pure ?_
      rw [AlikeAll, map_singleton, map_singleton, bare_mk, bare_mk, heq]
    | block =>
      rw [htreat] at h
      obtain ⟨l', cs', A', rfl, hwithin, -, hall⟩ := h
      have htreat' : l'.kind.treatment = .block := by
        obtain ⟨_, _, _, rfl, _⟩ := hwithin
        exact htreat
      unfold execute
      rw [htreat, htreat']
      exact (hwithin.enter hall.executeAll).bind fun _ _ heq => .pure (congrArg ([·]) heq)
    | keep =>
      rw [htreat] at h
      subst h
      unfold execute
      rw [htreat]
      exact .pure rfl
    | _ =>
      rw [htreat] at h
      obtain ⟨rfl, hreads⟩ := h
      have htracked := execute_tracked (s := s) _ ⟨hreads, (Node.mk l cs).setsOnly_true⟩
      intro b b' rs b₁ hb hrun
      obtain ⟨_, b₁', hrun', hb₁, rfl⟩ := KeepsUp.of_tracked htracked b b' rs b₁ hb hrun
      exact ⟨rs, b₁', hrun', hb₁, rfl⟩
termination_by structural _ n => n

/-- **Statements with idle ones left out are evaluated to the same.** -/
theorem ThinnedAll.executeAll : ∀ {A : String → Prop} {ns ms : List Node}, ThinnedAll A ns ms →
    KeepsUp A AlikeAll (executeAll s ns) (executeAll s ms)
  | A, [], ms, h => by
    unfold ThinnedAll at h
    subst h
    exact .pure rfl
  | A, n :: ns, ms, h => by
    unfold ThinnedAll at h
    rcases h with ⟨hidle, hns⟩ | ⟨m, ms', rfl, hn, hns⟩
    · intro b b' rs b₂ hb hrun
      obtain ⟨⟨first, b₁⟩, hfirst, hrun⟩ := bind_eq_ok.1 hrun
      obtain ⟨⟨rest, b₂⟩, hrest, hrun⟩ := bind_eq_ok.1 hrun
      cases hrun
      obtain ⟨hkept, rfl⟩ := hidle.execute hfirst
      exact hns.executeAll b₁ b' rest b₂ (fun x hx => (hkept x hx).trans (hb x hx)) hrest
    · refine hn.execute.bind fun first first' hfirst => ?_
      refine hns.executeAll.bind fun rest rest' hrest => .pure ?_
      rw [AlikeAll, map_append, map_append, hfirst, hrest]
termination_by structural _ ns => ns

theorem ThinnedRules.executeRules : ∀ {A : String → Prop} {ns ms : List Node}, ThinnedRules A ns ms →
    KeepsUp A AlikeAll (executeRules s ns) (executeRules s ms)
  | A, [], ms, h => by
    unfold ThinnedRules at h
    subst h
    exact .pure rfl
  | A, .mk l cs :: rest, ms, h => by
    unfold ThinnedRules at h
    by_cases hrel : l.relation = some .rules
    · rw [if_pos hrel] at h
      obtain ⟨hk, m, rfl, hblock⟩ := h
      obtain ⟨l', cs', A', rfl, hwithin, -, hall⟩ := hblock.block_cases hk
      have hrel' : l'.relation = some .rules := by
        obtain ⟨_, _, _, rfl, _⟩ := hwithin
        exact hrel
      unfold executeRules
      rw [if_pos hrel, if_pos hrel']
      refine (hwithin.enter hall.executeAll).bind fun block block' heq => .pure ?_
      rw [AlikeAll, map_cons, map_cons, heq]
    · rw [if_neg hrel] at h
      obtain ⟨ms', rfl, hrules⟩ := h
      unfold executeRules
      rw [if_neg hrel, if_neg hrel]
      refine hrules.executeRules.bind fun others others' heq => .pure ?_
      rw [AlikeAll, map_cons, map_cons, heq]
termination_by structural _ ns => ns

theorem ThinnedParts.executeBranch {relation : Relation}
    (hrel : relation = .thenPart ∨ relation = .elsePart) :
    ∀ {A : String → Prop} {ns ms : List Node}, ThinnedParts A ns ms →
    KeepsUp A AlikeAll (executeBranch s relation ns) (executeBranch s relation ms)
  | A, [], ms, h => by
    unfold ThinnedParts at h
    subst h
    exact .pure rfl
  | A, .mk l cs :: rest, ms, h => by
    obtain ⟨l', cs', ms', rfl, hl, hrest, hpart, -⟩ := h.cons_cases
    unfold executeBranch
    rw [hl]
    split
    · rename_i hthis
      have hbranch : l.isBranch = true := by
        rw [Label.isBranch, hthis]
        rcases hrel with rfl | rfl <;> rfl
      obtain ⟨hk', hk, hthin⟩ := hpart hbranch
      rw [hk']
      rcases hk with hk | hk
      · obtain ⟨l', cs', A', heq, -, hsame, hall⟩ := hthin.block_cases hk
        cases heq
        rw [hk]
        exact (hsame hbranch ▸ hall).executeAll
      · rw [hk]
        exact hthin.execute
    · exact hrest.executeBranch hrel
termination_by structural _ ns => ns

end

end Execute

end Cascade
