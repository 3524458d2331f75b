import Cascade.Proofs.Settled

/-!
# Dissolving blocks and removing what is empty

Two steps of flattening say something about every statement of a tree, animations and fonts
included: after the first no block stands among statements, and after the second no rule is empty and
nothing is left of what leaves no trace.  Between them rules are lifted out, with their selectors
written out; none of these refers to a selector around it.
-/

set_option autoImplicit false

namespace Cascade

open Node List

variable {n : Node} {cs : List Node} {file : Option String}

/-! ## Blocks that stand for themselves -/

/-- Whether a node is a block in no named place. -/
def Node.isPlainBlock (n : Node) : Bool :=
  n.kind.isBlock && n.relation.isNone

/-- What dissolving blocks makes of one statement. -/
def Node.dissolved (n : Node) : List Node :=
  if n.isPlainBlock then (dissolveBlocksAll n.children).map plain
  else [n.dissolveBlocks]

theorem Node.dissolveBlocksAll_eq_flatMap (cs : List Node) :
    dissolveBlocksAll cs = cs.flatMap dissolved := by
  induction cs with
  | nil => rfl
  | cons c cs ih =>
    obtain ⟨l, ds⟩ := c
    rw [dissolveBlocksAll, ih]
    rfl

theorem Node.dissolveBlocksAll_singleton (h : n.isPlainBlock = false) :
    dissolveBlocksAll [n] = [n.dissolveBlocks] := by
  simp [dissolveBlocksAll_eq_flatMap, dissolved, h]

theorem Node.isPlainBlock_eq_true :
    n.isPlainBlock = true ↔ n.kind.form = .block ∧ n.relation = none := by
  unfold isPlainBlock Kind.form
  split <;> simp_all [Kind.isBlock]

theorem Node.isPlainBlock_eq_false_of_isPart (h : n.kind.form.isPart = true) :
    n.isPlainBlock = false := by
  cases hb : n.isPlainBlock with
  | false => rfl
  | true =>
    rw [(isPlainBlock_eq_true.1 hb).1] at h
    cases h

theorem Node.dissolveBlocksAll_eq (h : ∀ c ∈ cs, c.dissolveBlocks = c)
    (hb : ∀ c ∈ cs, c.isPlainBlock = false) : dissolveBlocksAll cs = cs := by
  rw [dissolveBlocksAll_eq_flatMap]
  calc cs.flatMap dissolved = cs.flatMap fun c => [c] := ?_
    _ = cs := by simp
  refine flatMap_congr fun c hc => ?_
  rw [dissolved, hb c hc, h c hc]
  rfl

/-- There are no blocks in values, arguments and parameters. -/
theorem Node.dissolveBlocks_of_isPart
    (h : ∀ c ∈ n.children, ∀ m ∈ c.preorder, m.kind.form.isPart = true) : n.dissolveBlocks = n := by
  induction n using ind with
  | mk l cs ih =>
    have hcs : ∀ c ∈ cs, c.dissolveBlocks = c := by
      rintro ⟨_, _⟩ hc
      exact ih _ hc fun d hd m hm => h _ hc m (mem_preorder_of_mem hd hm)
    rw [dissolveBlocks, dissolveBlocksAll_eq hcs fun c hc =>
      isPlainBlock_eq_false_of_isPart (h c hc c c.self_mem_preorder)]

section Shape

variable {leaks : Prop}

/-- The statements that dissolving blocks leaves: no block is among them. -/
def Unblocked (leaks : Prop) (m : Node) : Prop :=
  CallsAre leaks m ∧ m.kind.form ≠ .block

theorem Node.kind_dissolveBlocks (n : Node) : n.dissolveBlocks.kind = n.kind := by
  cases n
  rfl

theorem Node.relation_dissolveBlocks (n : Node) : n.dissolveBlocks.relation = n.relation := by
  cases n
  rfl

theorem Node.plain_eq (h : n.relation = none) : n.plain = n := by
  obtain ⟨⟨kind, line, span, relation, comments, scope⟩, cs⟩ := n
  cases (show relation = none from h)
  rfl

theorem Node.dissolved_of_block {n : Node} (hf : n.kind.form = .block) (hr : n.relation = none) :
    n.dissolved = (dissolveBlocksAll n.children).map plain := by
  rw [dissolved, if_pos (isPlainBlock_eq_true.2 ⟨hf, hr⟩)]

theorem Node.dissolved_of_not_block {n : Node} (hf : n.kind.form ≠ .block) :
    n.dissolved = [n.dissolveBlocks] := by
  rw [dissolved, if_neg fun hb => hf (isPlainBlock_eq_true.1 hb).1]

/-- What dissolving blocks makes of a settled statement: a settled statement without blocks, or, if
it is a block itself, its statements. -/
def Dissolves (leaks : Prop) (n : Node) : Prop :=
  (n.kind.form ≠ .block → IsSettled (Unblocked leaks) n.dissolveBlocks) ∧
    (n.kind.form = .block → ∀ m ∈ dissolveBlocksAll n.children,
      IsSettled (Unblocked leaks) m ∧ IsMember m)

/-- Statements among others stay among others. -/
theorem Dissolves.members (h : ∀ c ∈ cs, Dissolves leaks c) (hm : ∀ c ∈ cs, IsMember c) :
    ∀ m ∈ dissolveBlocksAll cs, IsSettled (Unblocked leaks) m ∧ IsMember m := by
  intro m hmem
  rw [dissolveBlocksAll_eq_flatMap] at hmem
  obtain ⟨c, hc, hmc⟩ := mem_flatMap.1 hmem
  by_cases hf : c.kind.form = .block
  · rw [dissolved_of_block hf (hm c hc).1] at hmc
    obtain ⟨d, hd, rfl⟩ := mem_map.1 hmc
    have hd' := (h c hc).2 hf d hd
    rwa [plain_eq hd'.2.1]
  · rw [dissolved_of_not_block hf] at hmc
    obtain rfl := mem_singleton.1 hmc
    refine ⟨(h c hc).1 hf, (relation_dissolveBlocks c).trans (hm c hc).1, ?_⟩
    rw [kind_dissolveBlocks]
    exact (hm c hc).2

/-- Steps of an animation stay steps. -/
theorem Dissolves.frames (h : ∀ c ∈ cs, Dissolves leaks c)
    (hm : ∀ c ∈ cs, c.relation = none ∧ c.kind.form = .frame) :
    ∀ m ∈ dissolveBlocksAll cs,
      IsSettled (Unblocked leaks) m ∧ m.relation = none ∧ m.kind.form = .frame := by
  intro m hmem
  rw [dissolveBlocksAll_eq_flatMap] at hmem
  obtain ⟨c, hc, hmc⟩ := mem_flatMap.1 hmem
  have hf : c.kind.form ≠ .block := by simp [(hm c hc).2]
  rw [dissolved_of_not_block hf] at hmc
  obtain rfl := mem_singleton.1 hmc
  rw [relation_dissolveBlocks, kind_dissolveBlocks]
  exact ⟨(h c hc).1 hf, hm c hc⟩

/-- **Dissolving blocks** leaves settled statements without blocks. -/
theorem IsSettled.dissolves (hn : IsSettled (CallsAre leaks) n) : Dissolves leaks n := by
  induction hn with
  | @property l v hok h hd hr hv =>
    refine ⟨fun _ => ?_, fun hb => by simp [h] at hb⟩
    rw [@dissolveBlocks_of_isPart (.mk l [v]) (forall_mem_singleton.2 hv.isPart)]
    exact .property ⟨hok, by simp [h]⟩ h hd hr hv
  | silent hok h =>
    refine ⟨fun hb => .silent ⟨hok, hb⟩ h, fun hb => ?_⟩
    rcases Kind.isDiscarded_iff.1 h with h | h | h <;> simp [h] at hb
  | call hok h => exact ⟨fun hb => .call ⟨hok, hb⟩ h, fun hb => by simp [h] at hb⟩
  | block hok h hm _ ih => exact ⟨fun hb => absurd h hb, fun _ => Dissolves.members ih hm⟩
  | @rule l lb cs hok h hd hk hr hm _ ih =>
    have hlb : (Node.mk lb cs).isPlainBlock = false := by simp [isPlainBlock, hr]
    refine ⟨fun hb => ?_, fun hb => by rw [kind_mk] at hb; rw [hb] at h; cases h⟩
    rw [dissolveBlocks, dissolveBlocksAll_singleton hlb]
    by_cases hkey : l.kind.form = .keyframes
    · have hin := Dissolves.frames ih fun c hc => ⟨(hm c hc).1, (hm c hc).2.2 hkey⟩
      exact .rule ⟨hok, hb⟩ h hd hk hr
        (fun m hm => ⟨(hin m hm).2.1, iff_of_true (hin m hm).2.2 hkey⟩) fun m hm => (hin m hm).1
    · have hin := Dissolves.members ih fun c hc => ⟨(hm c hc).1, fun hf => hkey ((hm c hc).2.1 hf)⟩
      exact .rule ⟨hok, hb⟩ h hd hk hr
        (fun m hm => ⟨(hin m hm).2.1, iff_of_false (hin m hm).2.2 hkey⟩) fun m hm => (hin m hm).1
  | @extended l lp lb cs hok h hkp hrp hk hr hm _ ih =>
    refine ⟨fun hb => ?_, fun hb => by simp [h] at hb⟩
    have hin := Dissolves.members ih hm
    have hlp : (Node.mk lp []).isPlainBlock = false := by simp [isPlainBlock, hrp]
    have hlb : (Node.mk lb cs).isPlainBlock = false := by simp [isPlainBlock, hr]
    rw [dissolveBlocks, dissolveBlocksAll_eq_flatMap]
    simp only [flatMap_cons, flatMap_nil, dissolved, hlp, hlb]
    exact .extended ⟨hok, hb⟩ h hkp hrp hk hr (fun m hm => (hin m hm).2) fun m hm => (hin m hm).1

/-! ## Removing what is empty -/

/-- Whether a statement is kept when empty rules are removed. -/
def Node.isKept (n : Node) : Bool :=
  !(n.isEmptyRule || n.kind.isDiscarded)

theorem Node.dropEmptyAll_eq_filter (cs : List Node) :
    dropEmptyAll cs = (cs.map dropEmpty).filter isKept := by
  induction cs with
  | nil => rfl
  | cons c cs ih =>
    rw [dropEmptyAll, map_cons, filter_cons, ih, isKept]
    cases c.dropEmpty.isEmptyRule || c.dropEmpty.kind.isDiscarded <;> rfl

/-- What holds of the statements that are kept. -/
theorem Node.forall_mem_dropEmptyAll {P : Node → Prop}
    (h : ∀ c ∈ cs, c.dropEmpty.isKept = true → P c.dropEmpty) : ∀ m ∈ dropEmptyAll cs, P m := by
  rw [dropEmptyAll_eq_filter]
  simpa using h

theorem Node.kind_dropEmpty (n : Node) : n.dropEmpty.kind = n.kind := by
  cases n
  rfl

theorem Node.relation_dropEmpty (n : Node) : n.dropEmpty.relation = n.relation := by
  cases n
  rfl

theorem Node.isKept_of_isPart (h : n.kind.form.isPart = true) : n.isKept = true := by
  unfold isKept isEmptyRule
  unfold Kind.form at h
  split at h <;> simp_all [Form.isPart, Form.isValue, Kind.isDiscarded]

theorem Node.dropEmptyAll_eq (h : ∀ c ∈ cs, c.dropEmpty = c) (hkept : ∀ c ∈ cs, c.isKept = true) :
    dropEmptyAll cs = cs := by
  rw [dropEmptyAll_eq_filter, map_congr_left h, map_id', filter_eq_self.2 hkept]

/-- Nothing in values, arguments and parameters is removed. -/
theorem Node.dropEmpty_of_isPart
    (h : ∀ c ∈ n.children, ∀ m ∈ c.preorder, m.kind.form.isPart = true) : n.dropEmpty = n := by
  induction n using ind with
  | mk l cs ih =>
    have hcs : ∀ c ∈ cs, c.dropEmpty = c := by
      rintro ⟨_, _⟩ hc
      exact ih _ hc fun d hd m hm => h _ hc m (mem_preorder_of_mem hd hm)
    rw [dropEmpty, dropEmptyAll_eq hcs fun c hc =>
      isKept_of_isPart (h c hc c c.self_mem_preorder)]

theorem Node.isKept_of_block (h : n.kind = .block) : n.isKept = true := by
  simp [isKept, isEmptyRule, h, Kind.isDiscarded]

/-- Removing what is empty from a rule. -/
theorem Node.dropEmpty_rule {l lb : Label} (hb : lb.kind = .block) :
    (Node.mk l [.mk lb cs]).dropEmpty = .mk l [.mk lb (dropEmptyAll cs)] := by
  have hkept : (Node.mk lb cs).dropEmpty.isKept = true :=
    isKept_of_block ((kind_dropEmpty (.mk lb cs)).trans hb)
  rw [dropEmpty, dropEmptyAll_eq_filter, map_singleton,
    filter_eq_self.2 (forall_mem_singleton.2 hkept)]
  rfl

/-- The statements that removing what is empty leaves. -/
def Full (leaks : Prop) (m : Node) : Prop :=
  Unblocked leaks m ∧ m.isKept = true

theorem Full.isDiscarded {m : Node} (h : Full leaks m) : m.kind.isDiscarded = false := by
  have hkept := h.2
  rw [isKept, Bool.not_eq_true', Bool.or_eq_false_iff] at hkept
  exact hkept.2

/-- **Removing what is empty** from a settled statement that is kept. -/
theorem IsSettled.dropEmpty (hn : IsSettled (Unblocked leaks) n)
    (hkept : n.dropEmpty.isKept = true) : IsSettled (Full leaks) n.dropEmpty := by
  -- The statements that are kept inside a rule are statements of the rule.
  have inner : ∀ {cs : List Node} {P : Option Relation → Kind → Prop},
      (∀ c ∈ cs, c.dropEmpty.isKept = true → IsSettled (Full leaks) c.dropEmpty) →
      (∀ c ∈ cs, P c.relation c.kind) → ∀ m ∈ dropEmptyAll cs,
        IsSettled (Full leaks) m ∧ P m.relation m.kind := by
    refine fun hcs hP => forall_mem_dropEmptyAll fun c hc hkept => ⟨hcs c hc hkept, ?_⟩
    rw [relation_dropEmpty, kind_dropEmpty]
    exact hP c hc
  induction hn with
  | @property l v hok h hd hr hv =>
    rw [@dropEmpty_of_isPart (.mk l [v]) (forall_mem_singleton.2 hv.isPart)] at hkept ⊢
    exact .property ⟨hok, hkept⟩ h hd hr hv
  | silent hok h =>
    rw [isKept, kind_dropEmpty, kind_mk, h, Bool.or_true] at hkept
    cases hkept
  | call hok h => exact .call ⟨hok, hkept⟩ h
  | @rule l lb cs hok h hd hk hr hm _ ih =>
    have hin := inner (P := fun r k => r = none ∧ (k.form = .frame ↔ l.kind.form = .keyframes))
      ih hm
    rw [dropEmpty_rule (Kind.eq_block hk)] at hkept ⊢
    exact .rule ⟨hok, hkept⟩ h hd hk hr (fun m hm => (hin m hm).2) fun m hm => (hin m hm).1
  | @extended l lp lb cs hok h hkp hrp hk hr hm _ ih =>
    have hlp : (Node.mk lp []).dropEmpty.isKept = true := by
      rw [isKept, isEmptyRule, kind_dropEmpty, kind_mk,
        Kind.eq_params hkp]
      rfl
    have hdrop : (Node.mk l [.mk lp [], .mk lb cs]).dropEmpty =
        .mk l [.mk lp [], .mk lb (dropEmptyAll cs)] := by
      have hlb : (Node.mk lb cs).dropEmpty.isKept = true :=
        isKept_of_block ((kind_dropEmpty (.mk lb cs)).trans (Kind.eq_block hk))
      rw [Node.dropEmpty, Node.dropEmptyAll_eq_filter, filter_eq_self.2 (by
        simpa using ⟨hlp, hlb⟩)]
      rfl
    have hin := inner (P := fun r k => r = none ∧ k.form ≠ .frame) ih hm
    rw [hdrop] at hkept ⊢
    exact .extended ⟨hok, hkept⟩ h hkp hrp hk hr (fun m hm => (hin m hm).2) fun m hm => (hin m hm).1
  | block hok h => exact absurd h hok.2

end Shape

/-! ## Selectors without parent references -/

/-- Selectors that refer to no selector around them. -/
def Standalone (names : List String) : Prop :=
  ∀ name ∈ names, hasParentReference name = false

theorem hasParentReference_eq_false {name : String} :
    hasParentReference name = false ↔ '&' ∉ name.toList := by
  simp [hasParentReference]

theorem Text.not_mem_replaceAfter {replacement cs : List Char} (h : '&' ∉ replacement) :
    '&' ∉ Text.replaceAfter ['&'] replacement 0 cs := by
  induction cs with
  | nil => simp [Text.replaceAfter]
  | cons c cs ih =>
    rw [Text.replaceAfter]
    split
    · simpa using ⟨h, ih⟩
    · rename_i hc
      have hne : '&' ≠ c := fun heq => hc ⟨by simp, by simp [← heq]⟩
      simpa using ⟨hne, ih⟩

theorem nestSelector_standalone {atRoot : Bool} {outer inner : String}
    (h : hasParentReference outer = false) :
    hasParentReference (nestSelector atRoot outer inner) = false := by
  rw [hasParentReference_eq_false] at h
  unfold nestSelector
  split
  · rw [hasParentReference_eq_false, Text.replaced, String.toList_ofList]
    exact Text.not_mem_replaceAfter h
  · rename_i hinner
    split
    · simpa using hinner
    · rw [hasParentReference_eq_false, String.toList_append, String.toList_append]
      have hinner' := hasParentReference_eq_false.1 (by simpa using hinner)
      simpa using ⟨h, hinner'⟩

theorem combineSelectors_standalone {outer inner names : List String} {atRoot : Bool}
    (ho : Standalone outer) (h : combineSelectors outer inner atRoot false = .ok names) :
    Standalone names := by
  unfold combineSelectors at h
  split at h
  · split at h
    · cases h
    · rename_i hnone
      cases h
      intro name hname
      simpa using find?_eq_none.1 hnone name hname
  · cases h
    intro name hname
    obtain ⟨o, hoo, hi⟩ := mem_flatMap.1 (mem_eraseDups.1 hname)
    obtain ⟨i, -, rfl⟩ := mem_map.1 hi
    exact nestSelector_standalone (ho o hoo)

/-! ## Steps down -/

/-- The selectors of a rule. -/
def Kind.nested? : Kind → Option (List String)
  | .selector names _ => some names
  | .mixin _ (some names) _ => some names
  | _ => none

/-- Whether rules start at the root again here. -/
def Kind.startsAtRoot : Kind → Bool
  | .root => true
  | _ => false

namespace Descent

variable {d d' : Descent} {keep : Bool} {names selectors : List String}

/-- What is known below a node without selectors. -/
def pass (d : Descent) : Kind → Descent
  | .media queries _ =>
    { d with context := { d.context with media := combineMedia d.context.media queries } }
  | .supports query =>
    { d with context := { d.context with supports := d.context.supports ++ [query] } }
  | .root => { d with atRoot := true }
  | _ => d

theorem enter_eq : d.enter file keep n =
    match n.kind.nested? with
    | some names =>
      match combineSelectors d.context.selectors names d.atRoot keep with
      | .ok selectors => .ok { context := { d.context with selectors } }
      | .error error => .error (n.errorIn file (.resolve error))
    | none => .ok (d.pass n.kind) := by
  unfold enter
  cases n.kind with
  | mixin _ selector _ => cases selector <;> rfl
  | _ => rfl

/-- A step down depends on the kind of the node. -/
theorem enter_congr {m : Node} {file' : Option String} (hk : n.kind = m.kind)
    (h : d.enter file keep n = .ok d') : d.enter file' keep m = .ok d' := by
  rw [enter_eq, hk] at h
  rw [enter_eq]
  revert h
  cases m.kind.nested? with
  | none => exact id
  | some names =>
    dsimp only
    cases combineSelectors d.context.selectors names d.atRoot keep with
    | ok => exact id
    | error => exact nofun

/-- **What a step down can do**: combine selectors, or leave them as they are and at most start at
the root again. -/
theorem enter_cases (h : d.enter file keep n = .ok d') :
    (∃ names, n.kind.nested? = some names ∧
      combineSelectors d.context.selectors names d.atRoot keep = .ok d'.context.selectors ∧
      d'.atRoot = false) ∨
    (n.kind.nested? = none ∧ d'.context.selectors = d.context.selectors ∧
      d'.atRoot = (d.atRoot || n.kind.startsAtRoot)) := by
  rw [enter_eq] at h
  split at h
  · split at h
    · cases h
      exact .inl ⟨_, ‹_›, ‹_›, rfl⟩
    · cases h
  · cases h
    refine .inr ⟨‹_›, ?_, ?_⟩ <;> cases n.kind <;> simp [pass, Kind.startsAtRoot]

/-- On the way down into a tree all selectors are written out. -/
theorem enter_standalone (hd : Standalone d.context.selectors)
    (h : d.enter file false n = .ok d') : Standalone d'.context.selectors := by
  obtain ⟨names, -, h, -⟩ | ⟨-, h, -⟩ := enter_cases h
  · exact combineSelectors_standalone hd h
  · rwa [h]

/-- Selectors that are written out do not change on the way down into them. -/
theorem enter_written {dynamic : NameSet} (hk : n.kind = .selector names dynamic)
    (hd : d.context.selectors = []) (hn : Standalone names) :
    d.enter file false n = .ok { context := { d.context with selectors := names } } := by
  have hstray : names.find? hasParentReference = none :=
    find?_eq_none.2 fun name hname => by simp [hn name hname]
  simp [enter, hk, combineSelectors, hd, hstray]

end Descent

end Cascade
