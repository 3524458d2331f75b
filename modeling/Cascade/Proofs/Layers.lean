import Cascade.Proofs.Flattened

/-!
# The layers of a flat stylesheet

A flat stylesheet has at most three layers of rules: media queries, inside them feature queries, and
inside these rules with nothing but properties in them.  This file shows that lifting rules out of a
nested stylesheet gives these layers, and that removing what is empty and merging neighbours keeps
them.
-/

set_option autoImplicit false

namespace Cascade

open Node List

variable {n a : Node} {P ok : Node → Prop} {heading : Kind → Prop} {ns cs : List Node}
  {file : Option String} {found : List Lifted} {d : Descent} {depth : Nat} {lb l : Label}

/-! ## Containers -/

namespace Node

/-- The statements in the block of a rule. -/
def body (n : Node) : List Node :=
  (n.rules?.map children).getD []

theorem rules?_rule (h : lb.relation = some .rules) :
    (mk l [mk lb cs]).rules? = some (mk lb cs) := by
  simp [rules?, child?, h]

theorem body_rule (h : lb.relation = some .rules) : (mk l [mk lb cs]).body = cs := by
  rw [body, rules?_rule h]
  rfl

theorem body_extended {lp : Label} {ps : List Node} (hp : lp.relation = some .params)
    (h : lb.relation = some .rules) : (mk l [mk lp ps, mk lb cs]).body = cs := by
  simp [body, rules?, child?, h, hp]

theorem rules?_dissolveBlocks (n : Node) : n.dissolveBlocks.rules? = n.rules?.map dissolveBlocks := by
  obtain ⟨l, cs⟩ := n
  simp only [dissolveBlocks, dissolveBlocksAll_eq_flatMap, rules?, child?, children_mk, find?_flatMap]
  induction cs with
  | nil => rfl
  | cons c cs ih =>
    rw [findSome?_cons, find?_cons, ih, dissolved]
    cases hb : c.isPlainBlock with
    | false => cases hr : c.relation == some .rules <;> simp [relation_dissolveBlocks, hr]
    | true =>
      have hplain (m : Node) : m.plain.relation = none := by cases m; rfl
      have hnone : ((dissolveBlocksAll c.children).map plain).find?
          (fun m => m.relation == some .rules) = none := by simp [hplain]
      simp [hnone, (isPlainBlock_eq_true.1 hb).2]

theorem body_dissolveBlocks (n : Node) : n.dissolveBlocks.body = dissolveBlocksAll n.body := by
  rw [body, body, rules?_dissolveBlocks]
  cases n.rules? with
  | none => rfl
  | some b =>
    obtain ⟨lb, cs⟩ := b
    rfl

/-- Induction on the statements in the block of a rule. -/
@[elab_as_elim]
theorem body_ind {motive : Node → Prop} (step : ∀ n, (∀ c ∈ n.body, motive c) → motive n)
    (n : Node) : motive n := by
  have h : motive n ∧ ∀ c ∈ n.children, motive c := by
    induction n using Node.ind with
    | mk l cs ih =>
      refine ⟨step _ fun c hc => ?_, fun c hc => (ih c hc).1⟩
      unfold body at hc
      cases hb : (mk l cs).rules? with
      | none => simp [hb] at hc
      | some b => exact (ih b (mem_of_find?_eq_some hb)).2 c (by simpa [hb] using hc)
  exact h.1

theorem ruleContainers_eq (file : Option String) (d : Descent) (cs : List Node) :
    ruleContainers file d cs = containersAll file d
      (((cs.find? fun c => c.relation == some .rules).map children).getD []) := by
  induction cs with
  | nil => rfl
  | cons c cs ih =>
    obtain ⟨l, ds⟩ := c
    rw [ruleContainers, ih]
    by_cases h : l.relation = some .rules
    · simp [h]
    · simp [h]

/-- The containers of a tree: the tree itself and those in its body. -/
theorem containers_eq (file : Option String) (d : Descent) (n : Node) :
    n.containers file d =
      if !n.kind.isContainer || n.kind.isDiscarded then .ok []
      else d.enter file false n >>= fun d' =>
        if n.kind.isWhole then pure [⟨n, d'.context⟩]
        else containersAll file d' n.body >>= fun inner => pure (⟨n, d'.context⟩ :: inner) := by
  obtain ⟨l, cs⟩ := n
  rw [containers]
  simp only [ruleContainers_eq]
  rfl

theorem containersAll_eq_ok (h : containersAll file d cs = .ok found) :
    ∃ parts, List.Forall₂ (fun c part => c.containers file d = .ok part) cs parts ∧
      found = parts.flatten := by
  induction cs generalizing found with
  | nil =>
    cases h
    exact ⟨[], .nil, rfl⟩
  | cons c cs ih =>
    rw [containersAll] at h
    obtain ⟨first, hfirst, h⟩ := bind_eq_ok.1 h
    obtain ⟨rest, hrest, h⟩ := bind_eq_ok.1 h
    cases h
    obtain ⟨parts, hparts, rfl⟩ := ih hrest
    exact ⟨first :: parts, .cons hfirst hparts, rfl⟩

/-- **What the containers of a tree are**: none, if it is no container itself; otherwise the tree
itself, and those in its body unless it is lifted out as a whole. -/
theorem containers_eq_ok (h : n.containers file d = .ok found) :
    ((n.kind.isContainer = false ∨ n.kind.isDiscarded = true) ∧ found = []) ∨
    (n.kind.isContainer = true ∧ n.kind.isDiscarded = false ∧
      ∃ d' inner, d.enter file false n = .ok d' ∧ found = ⟨n, d'.context⟩ :: inner ∧
        (n.kind.isWhole = true ∧ inner = [] ∨
          n.kind.isWhole = false ∧ containersAll file d' n.body = .ok inner)) := by
  rw [containers_eq] at h
  split at h
  · rename_i hno
    cases h
    refine .inl ⟨?_, rfl⟩
    simpa using hno
  · rename_i hyes
    obtain ⟨d', hd', h⟩ := bind_eq_ok.1 h
    have hyes' : n.kind.isContainer = true ∧ n.kind.isDiscarded = false := by simpa using hyes
    refine .inr ⟨hyes'.1, hyes'.2, d', ?_⟩
    split at h
    · rename_i hwhole
      cases h
      exact ⟨[], hd', rfl, .inl ⟨hwhole, rfl⟩⟩
    · rename_i hwhole
      obtain ⟨inner, hinner, h⟩ := bind_eq_ok.1 h
      cases h
      exact ⟨inner, hd', rfl, .inr ⟨by simpa using hwhole, hinner⟩⟩

end Node

/-- Containers in the order in which they are lifted out. -/
def mixinsFirst (found : List Lifted) : List Lifted :=
  found.filter (fun x => x.node.kind.isMixin) ++ found.filter fun x => !x.node.kind.isMixin

theorem mixinsFirst_perm (found : List Lifted) : (mixinsFirst found).Perm found :=
  filter_append_perm _ _

/-- **What a statement becomes**: nothing, itself, or a rule for each of its containers. -/
theorem lift_eq_ok {ms : List Node} (h : lift file n = .ok ms) :
    (n.kind.isDiscarded = true ∧ ms = []) ∨
    (n.kind.isDiscarded = false ∧ n.kind.isContainer = false ∧ ms = [n]) ∨
    (n.kind.isDiscarded = false ∧ n.kind.isContainer = true ∧
      ∃ found, n.containers file {} = .ok found ∧
        ms = (mixinsFirst found).filterMap fun x => x.rule?.map x.context.wrap) := by
  unfold lift at h
  split at h
  · rename_i hd
    cases h
    exact .inl ⟨hd, rfl⟩
  · rename_i hd
    replace hd : n.kind.isDiscarded = false := by simpa using hd
    split at h
    · rename_i hc
      cases h
      exact .inr (.inl ⟨hd, by simpa using hc, rfl⟩)
    · rename_i hc
      obtain ⟨found, hfound, h⟩ := bind_eq_ok.1 h
      rw [partition_eq_filter_filter] at h
      cases h
      exact .inr (.inr ⟨hd, by simpa using hc, found, hfound, rfl⟩)

section Liftable

variable {leaks : Prop}

/-- **What a settled rule consists of**: parameters, if it has been extended, and a block. -/
theorem IsSettled.rule_cases (hn : IsSettled ok n) (hc : n.kind.isContainer = true)
    (hd : n.kind.isDiscarded = false) :
    ∃ l ps lb cs, n = .mk l (ps ++ [.mk lb cs]) ∧ (∀ m ∈ ps, m.kind = .params) ∧
      lb.kind = .block ∧ n.body = cs ∧
      ∀ c ∈ cs, IsSettled ok c ∧ c.relation = none ∧
        (c.kind.form = .frame → l.kind.form = .keyframes) := by
  cases hn with
  | @property l v hok h =>
    exfalso
    rw [kind_mk] at hc
    unfold Kind.form at h
    split at h <;> simp_all [Kind.isContainer]
  | silent hok h =>
    rw [kind_mk, h] at hd
    cases hd
  | call hok h =>
    obtain ⟨name, extend, hk⟩ := Kind.of_form h
    simp [hk, Kind.isContainer] at hc
  | block hok h =>
    simp [Kind.eq_block h, Kind.isContainer] at hc
  | rule hok h _ hk hr hm hcs =>
    exact ⟨_, [], _, _, rfl, by simp, Kind.eq_block hk, body_rule hr,
      fun c hc => ⟨hcs c hc, (hm c hc).1, (hm c hc).2.1⟩⟩
  | extended hok h hkp hrp hk hr hm hcs =>
    exact ⟨_, [_], _, _, rfl, forall_mem_singleton.2 (Kind.eq_params hkp),
      Kind.eq_block hk, body_extended hrp hr,
      fun c hc => ⟨hcs c hc, (hm c hc).1, fun hf => absurd hf (hm c hc).2⟩⟩

/-- The statements of a settled rule. -/
theorem IsSettled.body (hn : IsSettled ok n) (hc : n.kind.isContainer = true)
    (hd : n.kind.isDiscarded = false) (hw : n.kind.isWhole = false) :
    ∀ c ∈ n.body, IsSettled ok c ∧ IsMember c := by
  obtain ⟨l, ps, lb, cs, rfl, -, -, hbody, hcs⟩ := hn.rule_cases hc hd
  rw [hbody]
  refine fun c hc => ⟨(hcs c hc).1, (hcs c hc).2.1, fun hf => ?_⟩
  have hkey := (hcs c hc).2.2 hf
  rw [kind_mk] at hw
  unfold Kind.form at hkey
  split at hkey <;> simp_all [Kind.isWhole]

/-- A statement on its own, with all selectors of its context written out. -/
structure Liftable (leaks : Prop) (x : Lifted) : Prop where
  settled : IsSettled (Unblocked leaks) x.node
  relation : x.node.relation = none
  container : x.node.kind.isContainer = true
  kept : x.node.kind.isDiscarded = false
  standalone : Standalone x.context.selectors

/-- The containers of a settled tree can be lifted out. -/
theorem IsSettled.containers_liftable (hn : IsSettled (Unblocked leaks) n) (hr : n.relation = none)
    (hd : Standalone d.context.selectors) (hfound : n.containers file d = .ok found) :
    ∀ x ∈ found, Liftable leaks x := by
  induction n using body_ind generalizing d found with
  | step n ih =>
    obtain ⟨-, rfl⟩ | ⟨hc, hk, d', inner, hd', rfl, hinner⟩ := containers_eq_ok hfound
    · simp
    · have hd'' := Descent.enter_standalone hd hd'
      refine forall_mem_cons.2 ⟨⟨hn, hr, hc, hk, hd''⟩, fun x hx => ?_⟩
      obtain ⟨-, rfl⟩ | ⟨hw, hinner⟩ := hinner
      · simp at hx
      · have hbody := hn.body hc hk hw
        obtain ⟨parts, hparts, rfl⟩ := containersAll_eq_ok hinner
        obtain ⟨part, hpart, hx⟩ := mem_flatten.1 hx
        exact forall_mem_of_forall₂ hparts (fun _ _ => trivial) (fun c hc part h _ =>
          ih c hc (hbody c hc).1 (hbody c hc).2.1 hd'' h) part hpart x hx

end Liftable

/-! ## Layers -/

/-- A rule with a heading and statements in its body. -/
inductive RuleOf (heading : Kind → Prop) (P : Node → Prop) : Node → Prop
  | mk {l lb : Label} {cs : List Node} (hl : heading l.kind) (hrel : l.relation = none)
      (hb : lb.kind = .block) (hr : lb.relation = some .rules) (hcs : ∀ c ∈ cs, P c) :
      RuleOf heading P (.mk l [.mk lb cs])

theorem RuleOf.mono {Q : Node → Prop} (hPQ : ∀ c, P c → Q c) (h : RuleOf heading P n) :
    RuleOf heading Q n := by
  cases h with
  | mk hl hrel hb hr hcs => exact .mk hl hrel hb hr fun c hc => hPQ c (hcs c hc)

theorem RuleOf.heading_mono {heading' : Kind → Prop} (hh : ∀ k, heading k → heading' k)
    (h : RuleOf heading P n) : RuleOf heading' P n := by
  cases h with
  | mk hl hrel hb hr hcs => exact .mk (hh _ hl) hrel hb hr hcs

theorem RuleOf.kind (h : RuleOf heading P n) : heading n.kind := by
  cases h with
  | mk hl => exact hl

theorem RuleOf.forall_body (h : RuleOf heading P n) : ∀ c ∈ n.body, P c := by
  cases h with
  | mk hl hrel hb hr hcs => rwa [body_rule hr]

/-- Selectors that stand for themselves. -/
def StyleHeading (kind : Kind) : Prop :=
  ∃ names, kind = .selector names [] ∧ names ≠ [] ∧ Standalone names

/-- A feature query. -/
def FeatureHeading (kind : Kind) : Prop :=
  ∃ query, kind = .supports query

/-- Media queries. -/
def MediaHeading (kind : Kind) : Prop :=
  ∃ queries, kind = .media queries [] ∧ queries ≠ []

section Layers

variable (ok : Node → Prop)

/-- A statement of a rule with selectors. -/
def IsDeclaration (n : Node) : Prop :=
  IsSettled ok n ∧ IsMember n ∧ n.kind.isContainer = false

/-- The innermost layer: rules with selectors, and what is lifted out as a whole. -/
def IsCore (n : Node) : Prop :=
  ok n ∧ (RuleOf StyleHeading (IsDeclaration ok) n ∨
    n.kind.isWhole = true ∧ IsSettled ok n ∧ n.relation = none)

/-- Feature queries around the innermost layer. -/
def IsFeature (n : Node) : Prop :=
  ok n ∧ RuleOf FeatureHeading (IsCore ok) n

/-- What stands inside media queries. -/
def IsInner (n : Node) : Prop :=
  IsCore ok n ∨ IsFeature ok n

/-- Media queries around the other layers. -/
def IsMedia (n : Node) : Prop :=
  ok n ∧ RuleOf MediaHeading (IsInner ok) n

/-- **A statement of a flat stylesheet.** -/
def IsTop (n : Node) : Prop :=
  IsDeclaration ok n ∨ IsInner ok n ∨ IsMedia ok n

end Layers

section Lift

variable {leaks : Prop}

/-- The statements of a container that stay with it. -/
def Lifted.statements (x : Lifted) : List Node :=
  x.node.body.filter fun m => !m.kind.isContainer

/-- **What stands for a container**: itself if it is lifted out as a whole; nothing without
selectors or statements; otherwise a rule with the selectors of its context. -/
theorem Lifted.rule?_cases (x : Lifted) :
    (x.node.kind.isWhole = true ∧ x.rule? = some x.node) ∨
    (x.node.kind.isWhole = false ∧ (x.context.selectors = [] ∨ x.statements = []) ∧
      x.rule? = none) ∨
    (x.node.kind.isWhole = false ∧ x.context.selectors ≠ [] ∧
      x.rule? = some (.make (.selector x.context.selectors []) x.node.line
        [(make .block x.node.line x.statements).placed .rules])) := by
  cases hwhole : x.node.kind.isWhole with
  | true => exact .inl ⟨rfl, by simp [rule?, hwhole]⟩
  | false =>
    refine .inr ?_
    cases hrules : x.node.rules? with
    | none =>
      have hbody : x.statements = [] := by simp [statements, body, hrules]
      exact .inl ⟨rfl, .inr hbody, by simp [rule?, hwhole, hrules]⟩
    | some block =>
      have hbody : block.children.filter (fun m => !m.kind.isContainer) = x.statements := by
        simp [statements, body, hrules]
      simp only [rule?, hwhole, hrules, hbody, Bool.false_eq_true, if_false]
      by_cases hempty : x.statements.isEmpty || x.context.selectors.isEmpty
      · refine .inl ⟨trivial, ?_, if_pos hempty⟩
        simpa [or_comm] using hempty
      · refine .inr ⟨trivial, ?_, if_neg hempty⟩
        intro h
        simp [h] at hempty

/-- The statements that stay with a container are declarations. -/
theorem Liftable.statements {x : Lifted} (hx : Liftable leaks x)
    (hwhole : x.node.kind.isWhole = false) :
    ∀ m ∈ x.statements, IsDeclaration (Unblocked leaks) m := by
  intro m hm
  obtain ⟨hm, hcont⟩ := mem_filter.1 hm
  obtain ⟨hs, hmember⟩ := hx.settled.body hx.container hx.kept hwhole m hm
  exact ⟨hs, hmember, by simpa using hcont⟩

/-- A rule that stands for a container. -/
theorem Liftable.rule? {x : Lifted} (hx : Liftable leaks x) (h : x.rule? = some n) :
    IsCore (Unblocked leaks) n := by
  obtain ⟨hwhole, hn⟩ | ⟨-, -, hn⟩ | ⟨hwhole, hsel, hn⟩ := x.rule?_cases <;> rw [hn] at h <;> cases h
  · exact ⟨hx.settled.self, .inr ⟨hwhole, hx.settled, hx.relation⟩⟩
  · refine ⟨⟨nofun, nofun⟩, .inl (.mk ⟨_, rfl, hsel, hx.standalone⟩ rfl rfl rfl fun c hc => ?_)⟩
    exact hx.statements hwhole c hc

/-- A rule inside the queries of its context. -/
theorem IsCore.wrap (hn : IsCore (Unblocked leaks) n) (context : Context) :
    IsTop (Unblocked leaks) (context.wrap n) := by
  have feature : ∀ query, IsFeature (Unblocked leaks) (n.enclosed (.supports query)) := fun query =>
    ⟨⟨nofun, nofun⟩, .mk ⟨query, rfl⟩ rfl rfl rfl (forall_mem_singleton.2 hn)⟩
  have media : ∀ {m : Node}, context.media ≠ [] →
      IsInner (Unblocked leaks) m →
      IsMedia (Unblocked leaks) (m.enclosed (.media context.media [])) := fun hne hm =>
    ⟨⟨nofun, nofun⟩, .mk ⟨_, rfl, hne⟩ rfl rfl rfl (forall_mem_singleton.2 hm)⟩
  unfold Context.wrap
  dsimp only
  split <;> rename_i hempty
  · split
    · exact .inr (.inl (.inr (feature _)))
    · exact .inr (.inl (.inl hn))
  · have hne : context.media ≠ [] := by simpa using hempty
    split
    · exact .inr (.inr (media hne (.inr (feature _))))
    · exact .inr (.inr (media hne (.inl hn)))

/-- **Lifting rules out** gives layers. -/
theorem IsSettled.lift (hn : IsSettled (Unblocked leaks) n) (hm : IsMember n) {ms : List Node}
    (h : lift file n = .ok ms) : ∀ m ∈ ms, IsTop (Unblocked leaks) m := by
  obtain ⟨-, rfl⟩ | ⟨-, hc, rfl⟩ | ⟨-, -, found, hfound, rfl⟩ := lift_eq_ok h
  · simp
  · exact forall_mem_singleton.2 (.inl ⟨hn, hm, hc⟩)
  · have hall := hn.containers_liftable hm.1 (by simp [Standalone]) hfound
    intro m hmem
    obtain ⟨x, hx, hxm⟩ := mem_filterMap.1 hmem
    obtain ⟨rule, hrule, rfl⟩ := Option.map_eq_some_iff.1 hxm
    have hxf : x ∈ found := (mixinsFirst_perm found).mem_iff.1 hx
    exact ((hall x hxf).rule? hrule).wrap _

end Lift

/-! ## Removing what is empty -/

section DropEmpty

variable {leaks : Prop}

/-- The headings of the three layers. -/
def Heading (kind : Kind) : Prop :=
  StyleHeading kind ∨ FeatureHeading kind ∨ MediaHeading kind

/-- A rule is kept if there is something in it. -/
theorem full_rule (hl : Heading l.kind) (hr : lb.relation = some .rules) :
    Full leaks (.mk l [.mk lb cs]) ↔ cs ≠ [] := by
  rcases hl with ⟨_, hk, -⟩ | ⟨_, hk⟩ | ⟨_, hk, -⟩ <;>
    simp [Full, Unblocked, CallsAre, isKept, isEmptyRule, rules?_rule hr, hk, Kind.form,
      Kind.isDiscarded]

/-- Removing what is empty from a rule. -/
theorem RuleOf.dropEmpty {Q : Node → Prop} (h : RuleOf heading P n)
    (hPQ : ∀ c, P c → c.dropEmpty.isKept = true → Q c.dropEmpty) :
    RuleOf heading Q n.dropEmpty := by
  cases h with
  | @mk l lb cs hl hrel hb hr hcs =>
    rw [dropEmpty_rule hb]
    exact .mk hl hrel hb hr (forall_mem_dropEmptyAll fun c hc => hPQ c (hcs c hc))

section

variable (hkept : n.dropEmpty.isKept = true)

include hkept

theorem Unblocked.dropEmpty (h : Unblocked leaks n) : Full leaks n.dropEmpty := by
  refine ⟨?_, hkept⟩
  rw [Unblocked, CallsAre, kind_dropEmpty]
  exact h

theorem IsDeclaration.dropEmpty (hn : IsDeclaration (Unblocked leaks) n) :
    IsDeclaration (Full leaks) n.dropEmpty := by
  obtain ⟨hs, hm, hc⟩ := hn
  refine ⟨hs.dropEmpty hkept, ?_, by rwa [kind_dropEmpty]⟩
  rwa [IsMember, relation_dropEmpty, kind_dropEmpty]

theorem IsCore.dropEmpty (hn : IsCore (Unblocked leaks) n) : IsCore (Full leaks) n.dropEmpty := by
  refine ⟨hn.1.dropEmpty hkept, ?_⟩
  obtain hrule | ⟨hw, hs, hrel⟩ := hn.2
  · exact .inl (hrule.dropEmpty fun c hc hkept => hc.dropEmpty hkept)
  · refine .inr ⟨?_, hs.dropEmpty hkept, ?_⟩
    · rwa [kind_dropEmpty]
    · rwa [relation_dropEmpty]

theorem IsFeature.dropEmpty (hn : IsFeature (Unblocked leaks) n) :
    IsFeature (Full leaks) n.dropEmpty :=
  ⟨hn.1.dropEmpty hkept, hn.2.dropEmpty fun _ hc hkept => hc.dropEmpty hkept⟩

theorem IsInner.dropEmpty (hn : IsInner (Unblocked leaks) n) : IsInner (Full leaks) n.dropEmpty :=
  hn.imp (fun hn => hn.dropEmpty hkept) fun hn => hn.dropEmpty hkept

theorem IsMedia.dropEmpty (hn : IsMedia (Unblocked leaks) n) : IsMedia (Full leaks) n.dropEmpty :=
  ⟨hn.1.dropEmpty hkept, hn.2.dropEmpty fun _ hc hkept => hc.dropEmpty hkept⟩

/-- **Removing what is empty** keeps the layers. -/
theorem IsTop.dropEmpty (hn : IsTop (Unblocked leaks) n) : IsTop (Full leaks) n.dropEmpty := by
  obtain hn | hn | hn := hn
  · exact .inl (hn.dropEmpty hkept)
  · exact .inr (.inl (hn.dropEmpty hkept))
  · exact .inr (.inr (hn.dropEmpty hkept))

end

theorem IsTop.dropEmptyAll (hns : ∀ n ∈ ns, IsTop (Unblocked leaks) n) :
    ∀ m ∈ dropEmptyAll ns, IsTop (Full leaks) m :=
  forall_mem_dropEmptyAll fun n hn => (hns n hn).dropEmpty

end DropEmpty

/-! ## Layers are made of settled statements -/

section Settled

variable {ok : Node → Prop}

theorem RuleOf.isSettled (hh : ∀ k, heading k → Heading k) (hn : RuleOf heading P n) (hok : ok n)
    (hP : ∀ c, P c → IsSettled ok c ∧ IsMember c) : IsSettled ok n ∧ IsMember n := by
  cases hn with
  | @mk l lb cs hl hrel hb hr hcs =>
    have hform : l.kind.form = .rule ∧ l.kind.dynamic = [] := by
      rcases hh _ hl with ⟨_, hk, -⟩ | ⟨_, hk⟩ | ⟨_, hk, -⟩ <;> rw [hk] <;> exact ⟨rfl, rfl⟩
    refine ⟨.rule hok (by rw [hform.1]; rfl) hform.2 (by rw [hb]; rfl) hr (fun c hc => ?_)
      fun c hc => (hP c (hcs c hc)).1, hrel, by simp [kind_mk, hform.1]⟩
    have hm := (hP c (hcs c hc)).2
    exact ⟨hm.1, iff_of_false hm.2 (by simp [hform.1])⟩

theorem IsCore.isSettled (hn : IsCore ok n) : IsSettled ok n ∧ IsMember n := by
  obtain ⟨hok, hrule | ⟨hw, hs, hrel⟩⟩ := hn
  · exact hrule.isSettled (fun _ => .inl) hok fun c hc => ⟨hc.1, hc.2.1⟩
  · refine ⟨hs, hrel, ?_⟩
    revert hw
    cases n.kind <;> simp [Kind.isWhole, Kind.form]

theorem IsInner.isSettled (hn : IsInner ok n) : IsSettled ok n ∧ IsMember n := by
  obtain hn | hn := hn
  · exact hn.isSettled
  · exact hn.2.isSettled (fun _ h => .inr (.inl h)) hn.1 fun _ hc => hc.isSettled

/-- Every statement of a flat stylesheet is settled. -/
theorem IsTop.isSettled (hn : IsTop ok n) : IsSettled ok n ∧ IsMember n := by
  obtain hn | hn | hn := hn
  · exact ⟨hn.1, hn.2.1⟩
  · exact hn.isSettled
  · exact hn.2.isSettled (fun _ h => .inr (.inr h)) hn.1 fun _ hc => hc.isSettled

end Settled

/-! ## Merging neighbours -/

section Merge

variable {leaks : Prop} {m b : Node}

theorem Node.updateRules_rule (hr : lb.relation = some .rules) (change : Node → Node) :
    (Node.mk l [.mk lb cs]).updateRules change = .mk l [change (.mk lb cs)] := by
  simp [updateRules, hr]

/-- What merging makes of two rules. -/
theorem Node.merged?_rule {l' lb' : Label} {cs' : List Node} (hr : lb.relation = some .rules)
    (hr' : lb'.relation = some .rules) : (Node.mk l [.mk lb cs]).merged? (.mk l' [.mk lb' cs']) =
      if l.kind.sameRule l'.kind then some (.mk l [.mk lb (cs ++ cs')]) else none := by
  rw [merged?, rules?_rule hr, rules?_rule hr']
  cases h : l.kind.sameRule l'.kind with
  | false => simp [kind_mk, h]
  | true => simp [kind_mk, h, updateRules_rule hr, withChildren]

theorem Node.kind_updateRules (change : Node → Node) (n : Node) :
    (n.updateRules change).kind = n.kind := by
  obtain ⟨l, cs⟩ := n
  rw [updateRules]
  split <;> rfl

theorem Node.merged?_kind (h : a.merged? b = some m) : m.kind = a.kind := by
  unfold merged? at h
  split at h
  · cases h
    exact kind_updateRules _ a
  · cases h

theorem Node.merged?_eq_none (h : a.kind.sameRule b.kind = false) : a.merged? b = none := by
  simp [merged?, h]

section

variable (hP : ∀ {a b m : Node}, P a → P b → a.merged? b = some m → P m)

include hP

/-- What holds of all statements and of what two of them are merged into holds after merging. -/
theorem forall_mergeAfter {previous : Node} (hp : P previous) (hns : ∀ n ∈ ns, P n) :
    ∀ m ∈ mergeAfter previous ns, P m := by
  induction ns generalizing previous with
  | nil => simpa [mergeAfter] using hp
  | cons n ns ih =>
    obtain ⟨hn, hns⟩ := forall_mem_cons.1 hns
    rw [mergeAfter]
    split
    · rename_i merged hm
      exact ih (hP hp hn hm) hns
    · exact forall_mem_cons.2 ⟨hp, ih hn hns⟩

theorem forall_mergeRuns (hns : ∀ n ∈ ns, P n) : ∀ m ∈ mergeRuns ns, P m := by
  cases ns with
  | nil => simp [mergeRuns]
  | cons n ns =>
    obtain ⟨hn, hns⟩ := forall_mem_cons.1 hns
    exact forall_mergeAfter hP hn hns

end

/-- Rules that can be merged have headings that say the same. -/
theorem RuleOf.merged? (hh : ∀ k, heading k → Heading k) (ha : RuleOf heading P a)
    (hb : RuleOf heading P b) (hfull : Full leaks a) (h : a.merged? b = some m) :
    Full leaks m ∧ RuleOf heading P m := by
  cases ha with
  | mk hl hrel hk hr hcs =>
    cases hb with
    | mk hl' hrel' hk' hr' hcs' =>
      rw [merged?_rule hr hr'] at h
      split at h
      · cases h
        have hne := (full_rule (hh _ hl) hr).1 hfull
        refine ⟨(full_rule (hh _ hl) hr).2 (by simp [hne]), .mk hl hrel hk hr fun c hc => ?_⟩
        exact (mem_append.1 hc).elim (hcs c) (hcs' c)
      · cases h

theorem Kind.sameRule_cases {a b : Kind} (h : a.sameRule b = true) :
    (∃ names raw raw', a = .selector names raw ∧ b = .selector names raw') ∨
    (∃ query, a = .supports query ∧ b = .supports query) ∨
    (∃ queries raw raw', a = .media queries raw ∧ b = .media queries raw') := by
  unfold Kind.sameRule at h
  split at h
  · obtain rfl := eq_of_beq h
    exact .inl ⟨_, _, _, rfl, rfl⟩
  · obtain rfl := eq_of_beq h
    exact .inr (.inr ⟨_, _, _, rfl, rfl⟩)
  · obtain rfl := eq_of_beq h
    exact .inr (.inl ⟨_, rfl, rfl⟩)
  · cases h

/-- The layer of a statement can be read off its kind. -/
theorem IsTop.by_kind (h : IsTop ok n) :
    match n.kind with
    | .selector .. => ok n ∧ RuleOf StyleHeading (IsDeclaration ok) n
    | .supports _ => IsFeature ok n
    | .media .. => IsMedia ok n
    | .keyframes .. | .fontFace => IsCore ok n
    | _ => IsDeclaration ok n := by
  obtain hd | (hc | hf) | hm := h
  · have hcont := hd.2.2
    revert hcont
    cases n.kind <;> simp [Kind.isContainer, hd]
  · obtain ⟨hok, hrule | ⟨hw, hs⟩⟩ := id hc
    · obtain ⟨_, hk, -⟩ := hrule.kind
      rw [hk]
      exact ⟨hok, hrule⟩
    · revert hw
      cases n.kind <;> simp [Kind.isWhole, hc]
  · obtain ⟨_, hk⟩ := hf.2.kind
    rw [hk]
    exact hf
  · obtain ⟨_, hk, -⟩ := hm.2.kind
    rw [hk]
    exact hm

theorem IsCore.not_isQuery (h : IsCore ok n) : n.kind.isQuery = false := by
  obtain ⟨-, hrule | ⟨hw, -⟩⟩ := h
  · obtain ⟨_, hk, -⟩ := hrule.kind
    rw [hk]
    rfl
  · revert hw
    cases n.kind <;> simp [Kind.isWhole, Kind.isQuery]

theorem IsCore.of_kind (ha : IsCore ok a) (hm : IsTop ok m) (hk : m.kind = a.kind) :
    IsCore ok m := by
  have hm' := hm.by_kind
  rw [hk] at hm'
  obtain ⟨-, hrule | ⟨hw, -⟩⟩ := ha
  · obtain ⟨_, hka, -⟩ := hrule.kind
    rw [hka] at hm'
    exact ⟨hm'.1, .inl hm'.2⟩
  · revert hw hm'
    cases a.kind <;> simp [Kind.isWhole]

theorem IsInner.of_kind (ha : IsInner ok a) (hm : IsTop ok m) (hk : m.kind = a.kind) :
    IsInner ok m := by
  obtain ha | ha := ha
  · exact .inl (ha.of_kind hm hk)
  · obtain ⟨_, hka⟩ := ha.2.kind
    have hm' := hm.by_kind
    rw [hk, hka] at hm'
    exact .inr hm'

/-- **Merging two statements** leaves a statement of the same layer. -/
theorem IsTop.merged? (ha : IsTop (Full leaks) a) (hb : IsTop (Full leaks) b)
    (h : a.merged? b = some m) : IsTop (Full leaks) m ∧ m.kind = a.kind := by
  have hsame : a.kind.sameRule b.kind = true := by
    cases hs : a.kind.sameRule b.kind with
    | true => rfl
    | false => simp [merged?_eq_none hs] at h
  have ha' := ha.by_kind
  have hb' := hb.by_kind
  obtain ⟨_, _, _, hka, hkb⟩ | ⟨_, hka, hkb⟩ | ⟨_, _, _, hka, hkb⟩ := Kind.sameRule_cases hsame
  · rw [hka] at ha'
    rw [hkb] at hb'
    obtain ⟨hfull, hrule⟩ := ha'.2.merged? (fun _ => .inl) hb'.2 ha'.1 h
    exact ⟨.inr (.inl (.inl ⟨hfull, .inl hrule⟩)), merged?_kind h⟩
  · rw [hka] at ha'
    rw [hkb] at hb'
    exact ⟨.inr (.inl (.inr (ha'.2.merged? (fun _ h => .inr (.inl h)) hb'.2 ha'.1 h))),
      merged?_kind h⟩
  · rw [hka] at ha'
    rw [hkb] at hb'
    exact ⟨.inr (.inr (ha'.2.merged? (fun _ h => .inr (.inr h)) hb'.2 ha'.1 h)),
      merged?_kind h⟩

theorem mergeRuns_eq_nil : mergeRuns ns = [] ↔ ns = [] := by
  have after : ∀ (ns : List Node) (n : Node), mergeAfter n ns ≠ [] := by
    intro ns
    induction ns with
    | nil => simp [mergeAfter]
    | cons n ns ih =>
      intro previous
      rw [mergeAfter]
      split
      · exact ih _
      · simp
  cases ns with
  | nil => simp [mergeRuns]
  | cons n ns => simpa [mergeRuns] using after ns n

theorem mergeWithin_eq_nil : mergeWithin depth ns = [] ↔ ns = [] := by
  cases depth with
  | zero => exact mergeRuns_eq_nil
  | succ depth => rw [mergeWithin, map_eq_nil_iff, mergeRuns_eq_nil]

/-- A query with its statements merged, and everything else as it is. -/
def Node.mergeInside (depth : Nat) (n : Node) : Node :=
  if n.kind.isQuery then
    n.updateRules fun block => block.withChildren (mergeWithin depth block.children)
  else n

theorem mergeWithin_succ (depth : Nat) (ns : List Node) :
    mergeWithin (depth + 1) ns = (mergeRuns ns).map (mergeInside depth) := rfl

theorem Node.kind_mergeInside (depth : Nat) (n : Node) : (n.mergeInside depth).kind = n.kind := by
  unfold mergeInside
  split
  · exact kind_updateRules _ n
  · rfl

theorem RuleOf.mergeInside (hh : ∀ k, heading k → Heading k)
    (hP : ∀ {cs : List Node}, (∀ c ∈ cs, P c) → ∀ m ∈ mergeWithin depth cs, P m)
    (hn : RuleOf heading P n) (hfull : Full leaks n) (hquery : n.kind.isQuery = true) :
    Full leaks (n.mergeInside depth) ∧ RuleOf heading P (n.mergeInside depth) := by
  rw [Node.mergeInside, if_pos hquery]
  cases hn with
  | mk hl hrel hk hr hcs =>
    have hne := (full_rule (hh _ hl) hr).1 hfull
    rw [updateRules_rule hr]
    exact ⟨(full_rule (hh _ hl) hr).2 (mt mergeWithin_eq_nil.1 hne), .mk hl hrel hk hr (hP hcs)⟩

/-- A set of statements that is made of whole layers. -/
structure IsLayer (leaks : Prop) (P : Node → Prop) : Prop where
  top : ∀ {n : Node}, P n → IsTop (Full leaks) n
  of_kind : ∀ {a m : Node}, P a → IsTop (Full leaks) m → m.kind = a.kind → P m

theorem isLayer_isTop : IsLayer leaks (IsTop (Full leaks)) := ⟨id, fun _ h _ => h⟩

theorem isLayer_isInner : IsLayer leaks (IsInner (Full leaks)) :=
  ⟨fun h => .inr (.inl h), IsInner.of_kind⟩

theorem isLayer_isCore : IsLayer leaks (IsCore (Full leaks)) :=
  ⟨fun h => .inr (.inl (.inl h)), IsCore.of_kind⟩

theorem IsLayer.mergeRuns (hP : IsLayer leaks P) (hns : ∀ n ∈ ns, P n) :
    ∀ m ∈ mergeRuns ns, P m := by
  refine forall_mergeRuns (fun ha hb h => ?_) hns
  obtain ⟨hm, hk⟩ := (hP.top ha).merged? (hP.top hb) h
  exact hP.of_kind ha hm hk

/-- **Merging neighbours** keeps the layers. -/
theorem IsLayer.mergeWithin (hP : IsLayer leaks P) (hns : ∀ n ∈ ns, P n) :
    ∀ m ∈ mergeWithin depth ns, P m := by
  induction depth generalizing P ns with
  | zero => exact hP.mergeRuns hns
  | succ depth ih =>
    rw [mergeWithin_succ]
    intro m hm
    obtain ⟨n, hn, rfl⟩ := mem_map.1 hm
    have hPn := hP.mergeRuns hns n hn
    refine hP.of_kind hPn ?_ (n.kind_mergeInside depth)
    cases hq : n.kind.isQuery with
    | false =>
      rw [mergeInside, hq]
      exact hP.top hPn
    | true =>
      have htop := (hP.top hPn).by_kind
      cases hk : n.kind with
      | supports =>
        rw [hk] at htop
        exact .inr (.inl (.inr (htop.2.mergeInside (fun _ h => .inr (.inl h))
          (ih isLayer_isCore) htop.1 hq)))
      | media =>
        rw [hk] at htop
        exact .inr (.inr (htop.2.mergeInside (fun _ h => .inr (.inr h))
          (ih isLayer_isInner) htop.1 hq))
      | _ => simp [hk, Kind.isQuery] at hq

end Merge

/-! ## All steps -/

section Flatten

variable {leaks : Prop}

/-- The steps of flattening a stylesheet of settled statements, with what lifting rules out leaves. -/
theorem Sheet.flatten_eq_ok {sheet flat : Sheet}
    (hs : LeftAll (CallsAre leaks) sheet.root.children) (h : sheet.flatten = .ok flat) :
    ∃ lifted : List (List Node),
      (dissolveBlocksAll sheet.root.children).mapM (lift sheet.file) = .ok lifted ∧
      (∀ n ∈ lifted.flatten, IsTop (Unblocked leaks) n) ∧
      flat = sheet.withRoot (.mk sheet.root.label (mergeWithin
        (Node.mk sheet.root.label (dropEmptyAll lifted.flatten)).size
        (dropEmptyAll lifted.flatten))) := by
  unfold Sheet.flatten at h
  obtain ⟨lifted, hlifted, h⟩ := bind_eq_ok.1 h
  cases h
  obtain ⟨⟨l, cs⟩, file, expansions⟩ := sheet
  refine ⟨lifted, hlifted, fun n hn => ?_, rfl⟩
  have hdissolved := Dissolves.members (fun c hc => (hs c hc).1.dissolves) fun c hc => (hs c hc).2
  obtain ⟨ms, hms, hn⟩ := mem_flatten.1 hn
  exact forall_mem_of_forall₂ (mapM_eq_ok hlifted) (fun _ _ => trivial)
    (fun c hc ms h _ => (hdissolved c hc).1.lift (hdissolved c hc).2 h) ms hms n hn

/-- **Flattening** a stylesheet of settled statements gives layers without anything empty. -/
theorem Sheet.flatten_isTop {sheet flat : Sheet}
    (hs : LeftAll (CallsAre leaks) sheet.root.children) (h : sheet.flatten = .ok flat) :
    flat.root.label = sheet.root.label ∧ ∀ n ∈ flat.root.children, IsTop (Full leaks) n := by
  obtain ⟨lifted, -, htop, rfl⟩ := Sheet.flatten_eq_ok hs h
  exact ⟨rfl, isLayer_isTop.mergeWithin (IsTop.dropEmptyAll htop)⟩

end Flatten

end Cascade
