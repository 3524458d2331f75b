import Cascade.Evaluation.Statement
import Cascade.Flat
import Cascade.Proofs.EvaluatedValues

/-!
# Evaluated stylesheets

Evaluation leaves properties with plain values, rules, and blocks; conditionals, declarations and
assignments are gone, and no variable is left in a text.  Mixins that nobody extends are not looked
into, so whatever is in them stays; in the rest of the tree the only other thing that can be left
is a use of a mixin, if there was one before.
-/

set_option autoImplicit false

namespace Cascade

open Node List

variable {kind : Kind} {cs : List Node} {ok : Node → Prop} {n : Node}
  {sharing unscoped leaks : Prop}

/-! ## Settled trees -/

/-- The forms of rules with a block and nothing else. -/
def Form.isRule : Form → Bool
  | rule | frame | keyframes => true
  | _ => false

/-- **An evaluated statement.**  Every statement in it satisfies `ok`. -/
inductive IsSettled (ok : Node → Prop) : Node → Prop
  | property {l : Label} {v : Node} (hok : ok (.mk l [v])) (h : l.kind.form = .property)
      (hd : l.kind.dynamic = []) (hr : v.relation = none) (hv : IsPlain v) :
      IsSettled ok (.mk l [v])
  /-- What leaves no trace may consist of anything. -/
  | silent {l : Label} {cs : List Node} (hok : ok (.mk l cs)) (h : l.kind.isDiscarded = true) :
      IsSettled ok (.mk l cs)
  | call {l : Label} {cs : List Node} (hok : ok (.mk l cs)) (h : l.kind.form = .call) :
      IsSettled ok (.mk l cs)
  | block {l : Label} {cs : List Node} (hok : ok (.mk l cs)) (h : l.kind.form = .block)
      (hm : ∀ c ∈ cs, IsMember c) (hcs : ∀ c ∈ cs, IsSettled ok c) : IsSettled ok (.mk l cs)
  /-- The statements of an animation, and only these, are its steps. -/
  | rule {l lb : Label} {cs : List Node} (hok : ok (.mk l [.mk lb cs]))
      (h : l.kind.form.isRule = true) (hd : l.kind.dynamic = []) (hk : lb.kind.form = .block)
      (hr : lb.relation = some .rules)
      (hm : ∀ c ∈ cs, c.relation = none ∧ (c.kind.form = .frame ↔ l.kind.form = .keyframes))
      (hcs : ∀ c ∈ cs, IsSettled ok c) : IsSettled ok (.mk l [.mk lb cs])
  | extended {l lp lb : Label} {cs : List Node} (hok : ok (.mk l [.mk lp [], .mk lb cs]))
      (h : l.kind.form = .extended) (hkp : lp.kind.form = .params)
      (hrp : lp.relation = some .params) (hk : lb.kind.form = .block)
      (hr : lb.relation = some .rules) (hm : ∀ c ∈ cs, IsMember c)
      (hcs : ∀ c ∈ cs, IsSettled ok c) : IsSettled ok (.mk l [.mk lp [], .mk lb cs])

theorem IsSettled.self (h : IsSettled ok n) : ok n := by
  cases h with
  | property hok | silent hok | call hok | block hok | rule hok | extended hok => exact hok

theorem IsSettled.mono {ok' : Node → Prop} (hok : ∀ m, ok m → ok' m) (hn : IsSettled ok n) :
    IsSettled ok' n := by
  induction hn with
  | property ho h hd hr hv => exact .property (hok _ ho) h hd hr hv
  | silent ho h => exact .silent (hok _ ho) h
  | call ho h => exact .call (hok _ ho) h
  | block ho h hm _ ih => exact .block (hok _ ho) h hm ih
  | rule ho h hd hk hr hm _ ih => exact .rule (hok _ ho) h hd hk hr hm ih
  | extended ho h hkp hrp hk hr hm _ ih => exact .extended (hok _ ho) h hkp hrp hk hr hm ih

theorem Kind.isDiscarded_iff : kind.isDiscarded = true ↔
    kind.form = .marker ∨ kind.form = .directive ∨ kind.form = .template := by
  unfold form
  split <;> simp [isDiscarded]

/-! ## Uses that are looked at -/

/-- There is a use of a mixin in the tree that is not inside a mixin that nobody extends. -/
inductive OpenCall : Node → Prop
  | here {l : Label} {cs : List Node} (h : l.kind.form = .call) : OpenCall (.mk l cs)
  | inside {l : Label} {cs : List Node} {c : Node} (h : l.kind.form ≠ .template) (hc : c ∈ cs)
      (ho : OpenCall c) : OpenCall (.mk l cs)

/-- What evaluation meets in a tree: open uses of mixins only if `leaks`, and blocks without a record
of their names only if `unscoped`. -/
structure Meets (leaks unscoped : Prop) (n : Node) : Prop where
  call : OpenCall n → leaks
  block : ∀ m ∈ n.preorder, m.kind.form = .block → m.scope = none → unscoped

theorem Meets.child {l : Label} {c : Node} (h : Meets leaks unscoped (.mk l cs))
    (hl : l.kind.form ≠ .template) (hc : c ∈ cs) : Meets leaks unscoped c :=
  ⟨fun ho => h.call (.inside hl hc ho), fun m hm => h.block m (mem_preorder_of_mem hc hm)⟩

/-! ## Steps of evaluation -/

section Steps

variable {s : Surroundings}

theorem Bindings.Plain.entering {bindings : Bindings} (h : Bindings.Plain bindings)
    (scope : Scope) : Bindings.Plain (Bindings.entering scope bindings) := by
  unfold Bindings.entering
  generalize scope.modified = names
  induction names generalizing bindings with
  | nil => exact h
  | cons name names ih => exact ih (h.erase name)

/-- A block is evaluated in bindings of its own and keeps its label. -/
theorem Label.enter_leaves {l : Label} {statements : Evaluation (List Node)}
    {P : List Node → Prop} (hl : l.scope = none → unscoped) (h : Leaves unscoped statements P) :
    Leaves unscoped (l.enter s statements) fun m => ∃ cs, m = .mk l cs ∧ P cs := by
  unfold Label.enter
  split
  · exact .of_error fun _ => ⟨_, rfl, .inr ⟨hl ‹_›, rfl⟩⟩
  · rename_i scope _
    refine .bind_get fun bindings hb => ?_
    have hin : Leaves unscoped (Evaluation.within (Bindings.entering scope bindings)
        statements) P := by
      refine ⟨fun outer a t houter hm => ?_, fun outer e _ he => ?_⟩
      · obtain ⟨⟨a', t'⟩, ha, hm⟩ := bind_eq_ok.1 hm
        cases hm
        exact ⟨houter, (h.ok _ _ _ (hb.entering scope) ha).2⟩
      · obtain he | ⟨_, -, he⟩ := bind_eq_error.1 he
        · exact h.error _ e (hb.entering scope) he
        · cases he
    exact hin.bind fun cs hcs => .pure ⟨cs, rfl, hcs⟩

/-- Writing the values of variables into the texts of a label. -/
theorem Label.interpolate_leaves (l : Label) :
    Leaves unscoped (l.interpolate s) fun l' =>
      l'.kind.form = l.kind.form ∧ l'.kind.dynamic = [] ∧ l'.relation = l.relation := by
  unfold Label.interpolate
  refine .bind_get fun bindings _ => Evaluation.leaves_ofResult.bind fun kind hkind => .pure ?_
  obtain ⟨texts, -, hkind⟩ := bind_eq_ok.1 hkind
  cases hkind
  exact ⟨by cases l.kind <;> rfl, by cases l.kind <;> rfl, rfl⟩

namespace Node

theorem executeAll_leaves {P : Node → Prop}
    (h : ∀ c ∈ cs, Leaves unscoped (c.execute s) fun ms => ∀ m ∈ ms, P m) :
    Leaves unscoped (executeAll s cs) fun ms => ∀ m ∈ ms, P m := by
  induction cs with
  | nil => exact .pure (by simp)
  | cons c cs ih =>
    rw [executeAll]
    refine (h c mem_cons_self).bind fun ms hms => ?_
    refine (ih fun d hd => h d (mem_cons_of_mem _ hd)).bind fun ns hns => .pure fun m hm => ?_
    rcases mem_append.1 hm with hm | hm
    · exact hms m hm
    · exact hns m hm

theorem executeBranch_leaves {P : Node → Prop} {relation : Relation}
    (h : ∀ c ∈ cs, c.relation = some relation →
      (c.kind = .conditional → Leaves unscoped (c.execute s) fun ms => ∀ m ∈ ms, P m) ∧
      (c.kind ≠ .conditional →
        Leaves unscoped (executeAll s c.children) fun ms => ∀ m ∈ ms, P m)) :
    Leaves unscoped (executeBranch s relation cs) fun ms => ∀ m ∈ ms, P m := by
  induction cs with
  | nil => exact .pure (by simp)
  | cons c cs ih =>
    obtain ⟨l, ds⟩ := c
    rw [executeBranch]
    refine .ite (fun hrel => ?_) fun _ => ih fun d hd => h d (mem_cons_of_mem _ hd)
    obtain ⟨hcond, hblock⟩ := h _ mem_cons_self hrel
    split
    · exact hcond ‹_›
    · exact hblock ‹_›

end Node

end Steps

/-! ## Statements -/

/-- What is left of a statement: settled statements in its place.  The statements of a branch take
the place of a conditional. -/
def Left (ok : Node → Prop) (n : Node) (ms : List Node) : Prop :=
  ∀ m ∈ ms, IsSettled ok m ∧
    if n.kind.form = .conditional then IsMember m
    else m.relation = n.relation ∧ m.kind.form = n.kind.form

/-- What is left of the statements of a block. -/
def LeftAll (ok : Node → Prop) (ms : List Node) : Prop :=
  ∀ m ∈ ms, IsSettled ok m ∧ IsMember m

theorem Left.members {ms : List Node} (h : Left ok n ms) (hn : IsMember n) : LeftAll ok ms := by
  intro m hm
  obtain ⟨hs, hplace⟩ := h m hm
  refine ⟨hs, ?_⟩
  split at hplace
  · exact hplace
  · exact ⟨hplace.1.trans hn.1, hplace.2 ▸ hn.2⟩

/-- One statement that keeps its form and its place. -/
theorem Left.singleton {m : Node} (hm : IsSettled ok m) (hn : n.kind.form ≠ .conditional)
    (hr : m.relation = n.relation) (hf : m.kind.form = n.kind.form) : Left ok n [m] := by
  intro m' hm'
  obtain rfl := mem_singleton.1 hm'
  exact ⟨hm, by rw [if_neg hn]; exact ⟨hr, hf⟩⟩

/-- Every use of a mixin that evaluation can see is one that may be left. -/
def CallsAre (leaks : Prop) (m : Node) : Prop :=
  m.kind.form = .call → leaks

namespace Kind

theorem treatment_of_rule (h : kind.form.isRule = true ∨ kind.form = .extended) :
    kind.treatment = .rules := by
  unfold form at h
  split at h <;> simp_all [Form.isRule, treatment]

theorem treatment_of_property (h : kind.form = .property) : kind.treatment = .values := by
  unfold form at h
  split at h <;> simp_all [treatment]

theorem treatment_of_directive (h : kind.form = .directive) : kind.treatment = .arguments := by
  unfold form at h
  split at h <;> simp_all [treatment]

theorem treatment_of_declaration (h : kind.form = .declaration) :
    ∃ name, kind.treatment = .declare name := by
  unfold form at h
  split at h <;> simp_all [treatment]

theorem treatment_of_kept (h : kind.form = .marker ∨ kind.form = .template ∨ kind.form = .call) :
    kind.treatment = .keep := by
  unfold form at h
  split at h <;> simp_all [treatment]

end Kind

section Execute

variable {s : Surroundings} {leaks : Prop}

/-- The statements of a block give settled statements, if each of them does. -/
theorem Node.executeAll_left (hm : ∀ c ∈ cs, IsMember c)
    (h : ∀ c ∈ cs, Leaves unscoped (c.execute s) (Left (CallsAre leaks) c)) :
    Leaves unscoped (executeAll s cs) (LeftAll (CallsAre leaks)) :=
  executeAll_leaves fun c hc => (h c hc).weaken fun _ hms => hms.members (hm c hc)

/-- A rule gives a rule with the statements that are left. -/
theorem Node.execute_rule {l lb : Label} (h : l.kind.form.isRule = true)
    (hk : lb.kind.form = .block) (hr : lb.relation = some .rules) (hl : lb.scope = none → unscoped)
    (hcs : Leaves unscoped (executeAll s cs) fun ms => ∀ m ∈ ms,
      IsSettled (CallsAre leaks) m ∧ m.relation = none ∧
        (m.kind.form = .frame ↔ l.kind.form = .keyframes)) :
    Leaves unscoped ((mk l [mk lb cs]).execute s)
      (Left (CallsAre leaks) (.mk l [.mk lb cs])) := by
  rw [execute]
  simp only [Kind.treatment_of_rule (.inl h), executeRules, hr, if_true, bind_assoc, pure_bind]
  refine l.interpolate_leaves.bind fun l' hl' => ?_
  obtain ⟨hf, hd, hrel⟩ := hl'
  have hrule : l'.kind.form.isRule = true := hf ▸ h
  refine (Label.enter_leaves hl hcs).bind fun b hb => ?_
  obtain ⟨ms, rfl, hms⟩ := hb
  refine .pure (.singleton (.rule ?_ hrule hd hk hr (fun m hm => ?_) fun m hm => (hms m hm).1) ?_
    hrel hf)
  · intro hcall
    rw [kind_mk] at hcall
    rw [hcall] at hrule
    cases hrule
  · rw [hf]
    exact (hms m hm).2
  · intro hcond
    rw [kind_mk] at hcond
    rw [hcond] at h
    cases h

/-- **What evaluation leaves of a statement is settled.**  The second part is about the statements of
a block, which are evaluated without the block around them where it belongs to something else. -/
theorem IsStatement.execute (hn : IsStatement sharing n) (hmeets : Meets leaks unscoped n) :
    Leaves unscoped (n.execute s) (Left (CallsAre leaks) n) ∧
      (n.kind.form = .block →
        Leaves unscoped (executeAll s n.children) (LeftAll (CallsAre leaks))) := by
  induction hn with
  | marker h =>
    refine ⟨?_, fun hb => by simp [h] at hb⟩
    rw [Node.execute]
    simp only [Kind.treatment_of_kept (.inl h)]
    refine .pure (.singleton (.silent (fun hc => by simp [h] at hc) ?_) (by simp [h]) rfl rfl)
    exact Kind.isDiscarded_iff.2 (.inl h)
  | @property l v h hr hv =>
    refine ⟨?_, fun hb => by simp [h] at hb⟩
    rw [Node.execute]
    simp only [Kind.treatment_of_property h]
    refine l.interpolate_leaves.bind fun l' hl' => ?_
    obtain ⟨hf, hd, hrel⟩ := hl'
    refine (evaluateAll_leaves (forall_mem_singleton.2 hv.evaluate)).bind
      fun ms hms => ?_
    obtain _ | ⟨hm, _ | _⟩ := hms
    exact .pure (.singleton (.property (fun hc => by simp [hf, h] at hc) (hf.trans h) hd
      (hm.2.trans hr) hm.1) (by simp [h]) hrel hf)
  | declaration h hcs =>
    refine ⟨?_, fun hb => by simp [h] at hb⟩
    obtain ⟨name, ht⟩ := Kind.treatment_of_declaration h
    rw [Node.execute]
    simp only [ht]
    split
    · rename_i value hvalue
      have hv := hcs.isValue value (mem_of_find?_eq_some hvalue)
      refine hv.evaluate.bind fun m hm => (Evaluation.leaves_bindName name hm.1).bind fun _ _ => ?_
      exact .pure fun _ h => by cases h
    · have hunbind : Leaves unscoped (Evaluation.unbindName name) fun _ => True :=
        .modify fun _ h => h.erase name
      exact hunbind.bind fun _ _ => .pure fun _ h => by cases h
  | assign h hr hv =>
    refine ⟨?_, fun hb => by simp [h] at hb⟩
    obtain ⟨name, op, hk⟩ := Kind.of_form h
    rw [Node.execute]
    simp only [hk, Kind.treatment, evaluateInitializer_singleton hr]
    refine hv.evaluate.bind fun value hvalue => .bind_get fun bindings hb => ?_
    refine Evaluation.leaves_ofResult.bind fun result hresult => ?_
    have hplain := isPlain_assigned (fun n hn => hb.find? hn) hvalue.1 hresult
    exact (Evaluation.leaves_bindName name hplain).bind fun _ _ => .pure fun _ h => by cases h
  | directive h hargs =>
    refine ⟨?_, fun hb => by simp [h] at hb⟩
    rw [Node.execute]
    simp only [Kind.treatment_of_directive h, evaluateArguments_singleton hargs.relation,
      bind_assoc, pure_bind]
    refine (evaluateAll_leaves fun c hc => (hargs.isValue c hc).evaluate).bind fun ms _ => ?_
    refine .pure (.singleton (.silent (fun hc => by simp [h] at hc) ?_) (by simp [h]) rfl rfl)
    exact Kind.isDiscarded_iff.2 (.inr (.inl h))
  | @rule l b h hk hr _ ih =>
    refine ⟨?_, fun hb => by rcases h with h | h <;> simp [h] at hb⟩
    obtain ⟨lb, cs⟩ := b
    have hrule : l.kind.form.isRule = true := by rcases h with h | h <;> exact h ▸ rfl
    have hmeets' := hmeets.child (by rcases h with h | h <;> simp [h]) mem_cons_self
    have hin := (ih hmeets').2 hk
    refine execute_rule hrule hk hr (hmeets'.block _ (self_mem_preorder _) hk) (hin.weaken fun ms hms m hm => ?_)
    obtain ⟨hs, hrel, hform⟩ := hms m hm
    refine ⟨hs, hrel, iff_of_false hform ?_⟩
    rcases h with h | h <;> simp [h]
  | @keyframes l lb cs h hk hr hframe _ ih =>
    refine ⟨?_, fun hb => by simp [h] at hb⟩
    have hmeets' := hmeets.child (by simp [h]) mem_cons_self
    refine execute_rule (h ▸ rfl) hk hr (hmeets'.block _ (self_mem_preorder _) hk)
      (executeAll_leaves fun c hc => ?_)
    have hc' := (ih c hc (hmeets'.child (by simp [hk]) hc)).1
    refine hc'.weaken fun ms hms m hm => ?_
    obtain ⟨hs, hplace⟩ := hms m hm
    rw [if_neg (by simp [(hframe c hc).2]), (hframe c hc).1, (hframe c hc).2] at hplace
    exact ⟨hs, hplace.1, iff_of_true hplace.2 h⟩
  | @mixin l lp ps b h hkp hrp _ hbk hbr _ ih =>
    refine ⟨?_, fun hb => by rcases h with h | h <;> simp [h] at hb⟩
    rcases h with h | ⟨-, h, rfl⟩
    · rw [Node.execute]
      simp only [Kind.treatment_of_kept (.inr (.inl h))]
      refine .pure (.singleton (.silent (fun hc => by simp [h] at hc) ?_) (by simp [h]) rfl rfl)
      exact Kind.isDiscarded_iff.2 (.inr (.inr h))
    · obtain ⟨lb, cs⟩ := b
      have hbr' : lb.relation = some .rules := hbr
      have hmeets' := hmeets.child (by simp [h]) (mem_cons_of_mem _ mem_cons_self)
      have hin := (ih hmeets').2 hbk
      rw [Node.execute]
      simp only [Kind.treatment_of_rule (.inr h), executeRules, hrp, hbr', if_true, bind_assoc,
        pure_bind, Option.some.injEq, reduceCtorEq, if_false]
      refine l.interpolate_leaves.bind fun l' hl' => ?_
      obtain ⟨hf, hd, hrel⟩ := hl'
      refine (Label.enter_leaves (hmeets'.block _ (self_mem_preorder _) hbk) hin).bind fun b hb => ?_
      obtain ⟨ms, rfl, hms⟩ := hb
      exact .pure (.singleton (.extended (fun hc => by simp [hf, h] at hc) (hf.trans h) hkp hrp hbk
        hbr (fun m hm => (hms m hm).2) fun m hm => (hms m hm).1) (by simp [h]) hrel hf)
  | call h =>
    refine ⟨?_, fun hb => by simp [h] at hb⟩
    rw [Node.execute]
    simp only [Kind.treatment_of_kept (.inr (.inr h))]
    exact .pure (.singleton (.call (fun _ => hmeets.call (.here h)) h) (by simp [h]) rfl rfl)
  | @conditional l c t es h hc hcr htk htr _ hes _ _ iht ihe =>
    refine ⟨?_, fun hb => by simp [h] at hb⟩
    have hbranch : ∀ relation : Relation, relation ≠ .condition →
        Leaves unscoped (executeBranch s relation (c :: t :: es))
          (LeftAll (CallsAre leaks)) := by
      intro relation hne
      refine executeBranch_leaves (forall_mem_cons.2 ⟨fun hrel => ?_,
        forall_mem_cons.2 ⟨fun _ => ⟨fun hk => ?_, fun _ => ?_⟩,
          fun e he _ => ⟨fun hk => ?_, fun hk => ?_⟩⟩⟩)
      · rw [hcr] at hrel
        exact absurd (Option.some.inj hrel).symm hne
      · simp [hk, Kind.form] at htk
      · exact (iht (hmeets.child (by simp [h]) (by simp))).2 htk
      · refine (ihe e he (hmeets.child (by simp [h]) (by simp [he]))).1.weaken fun ms hms m hm => ?_
        obtain ⟨hs, hplace⟩ := hms m hm
        rw [if_pos (by rw [hk, Kind.form])] at hplace
        exact ⟨hs, hplace⟩
      · have hblock := (hes e he).2.resolve_right fun hf => hk (Kind.eq_conditional hf)
        exact (ihe e he (hmeets.child (by simp [h]) (by simp [he]))).2 hblock
    obtain ⟨lc, cc⟩ := c
    have hcr' : lc.relation = some .condition := hcr
    rw [Node.execute]
    simp only [Kind.eq_conditional h, Kind.treatment, conditionHolds, hcr', if_true,
      bind_assoc, pure_bind]
    refine hc.evaluate.bind fun value _ => (hbranch _ ?_).weaken fun ms hms m hm => ?_
    · split <;> decide
    · rw [kind_mk, if_pos h]
      exact hms m hm
  | @block l cs h hm _ ih =>
    have hin : Leaves unscoped (executeAll s cs) (LeftAll (CallsAre leaks)) :=
      executeAll_left hm fun c hc => (ih c hc (hmeets.child (by simp [h]) hc)).1
    refine ⟨?_, fun _ => hin⟩
    have hk := Kind.eq_block h
    rw [Node.execute]
    simp only [hk, Kind.treatment]
    refine (Label.enter_leaves (hmeets.block _ (self_mem_preorder _) h) hin).bind fun b hb => ?_
    obtain ⟨ms, rfl, hms⟩ := hb
    exact .pure (.singleton (.block (fun hc => by simp [h] at hc) h (fun m hm => (hms m hm).2)
      fun m hm => (hms m hm).1) (by simp [h]) rfl rfl)

end Execute

/-- The statements of a stylesheet are evaluated in bindings of its own. -/
theorem IsSheet.enter_leaves {root : Node} (hs : IsSheet sharing root)
    (hmeets : Meets leaks unscoped root) (hroot : root.scope = none → unscoped) (s : Surroundings) :
    Leaves unscoped (root.label.enter s (executeAll s root.children)) fun m =>
      ∃ cs, m = .mk root.label cs ∧ LeftAll (CallsAre leaks) cs := by
  obtain ⟨l, cs⟩ := root
  have hk : l.kind.form = .sheet := hs.kind
  exact Label.enter_leaves hroot (executeAll_left (fun c hc => (hs.item c hc).isMember)
    fun c hc => ((hs.item c hc).isStatement.execute (hmeets.child (by simp [hk]) hc)).1)

/-- **Evaluating a stylesheet** leaves settled statements, among them uses of mixins only if there
were open ones before. -/
theorem IsSheet.execute {sheet sheet' : Sheet} {commands : CommandHost}
    (hs : IsSheet sharing sheet.root) (hopen : OpenCall sheet.root → leaks)
    (h : sheet.execute commands = .ok sheet') :
    sheet'.root.kind.form = .sheet ∧ sheet'.root.relation = sheet.root.relation ∧
      LeftAll (CallsAre leaks) sheet'.root.children := by
  obtain ⟨⟨root, bindings⟩, hrun, h⟩ := bind_eq_ok.1 h
  cases h
  have hmeets : Meets leaks True sheet.root := ⟨hopen, fun _ _ _ _ => trivial⟩
  obtain ⟨-, ms, rfl, hms⟩ := (hs.enter_leaves hmeets (fun _ => trivial) _).ok [] root bindings
    (fun _ he => by cases he) hrun
  exact ⟨hs.kind, rfl, hms⟩

end Cascade
