import Cascade.Proofs.Layers
import Mathlib.Data.List.Chain

/-!
# Merging neighbours

The last step of flattening puts neighbours with the same selectors or queries together.  In a
stylesheet order is meaning, so nothing may be moved past anything else: what stands under some
selectors and queries, read from the top to the bottom, is the same before and after.  And the step
is complete: no neighbours are left that say the same, in the stylesheet or inside its queries.
-/

set_option autoImplicit false

namespace Cascade

open Node List

variable {ns cs : List Node} {n : Node} {depth : Nat} {P : Node → Prop}

/-! ## Selectors and queries around a node -/

/-- Whether nodes of the kind are properties. -/
def Kind.isProperty : Kind → Bool
  | property .. => true
  | _ => false

/-- The selectors or the queries that a rule has, without the names of variables in them. -/
def Kind.rule? : Kind → Option Kind
  | selector names _ => some (.selector names [])
  | media queries _ => some (.media queries [])
  | supports query => some (.supports query)
  | _ => none

namespace Node

variable (p through : Kind → Bool)

mutual

/-- **The nodes that `p` selects**, in document order, each with the selectors and queries around it.
They are looked for below nodes of the kinds that `through` selects. -/
def cascade (around : List Kind) : Node → List (List Kind × Node)
  | mk label children =>
    let around := around ++ label.kind.rule?.toList
    (if p label.kind then [(around, mk label children)] else []) ++
      if through label.kind then cascadeAll around children else []

/-- The nodes that `p` selects in several trees. -/
def cascadeAll (around : List Kind) : List Node → List (List Kind × Node)
  | [] => []
  | node :: rest => cascade around node ++ cascadeAll around rest

end

end Node

section Seeks

variable {p through : Kind → Bool} {around : List Kind}

theorem Node.cascadeAll_eq_flatMap (ns : List Node) :
    cascadeAll p through around ns = ns.flatMap (cascade p through around) := by
  induction ns with
  | nil => rfl
  | cons n ns ih => rw [cascadeAll, ih, flatMap_cons]

theorem Node.cascadeAll_append (ns ms : List Node) :
    cascadeAll p through around (ns ++ ms) =
      cascadeAll p through around ns ++ cascadeAll p through around ms := by
  simp only [cascadeAll_eq_flatMap, flatMap_append]

/-- Blocks and rules are looked into, and not looked for themselves. -/
structure Seeks (p through : Kind → Bool) : Prop where
  block : p .block = false ∧ through .block = true
  rule : ∀ kind : Kind, kind.sameRule kind = true → p kind = false ∧ through kind = true

/-- What is found in a rule is found in its block. -/
theorem Node.cascade_rule (hs : Seeks p through) {l lb : Label}
    (hl : l.kind.sameRule l.kind = true) (hb : lb.kind = .block) :
    (Node.mk l [.mk lb cs]).cascade p through around =
      cascadeAll p through (around ++ l.kind.rule?.toList) cs := by
  obtain ⟨hp, hthrough⟩ := hs.rule _ hl
  simp [cascade, cascadeAll, hp, hthrough, hb, hs.block, Kind.rule?]

end Seeks

theorem Kind.sameRule_of_isQuery {kind : Kind} (h : kind.isQuery = true) :
    kind.sameRule kind = true := by
  cases kind <;> simp_all [isQuery, sameRule]

/-- Rules that can be merged say the same. -/
theorem Kind.rule?_eq {a b : Kind} (h : a.sameRule b = true) :
    a.sameRule a = true ∧ b.sameRule b = true ∧ a.rule? = b.rule? ∧ a.isQuery = b.isQuery := by
  rcases sameRule_cases h with ⟨_, _, _, rfl, rfl⟩ | ⟨_, rfl, rfl⟩ | ⟨_, _, _, rfl, rfl⟩ <;>
    simp [sameRule, rule?, isQuery]

/-! ## Neighbours -/

/-- No two neighbours have the same selectors or queries. -/
def Apart (ns : List Node) : Prop :=
  ns.IsChain fun a b => a.kind.sameRule b.kind = false

/-- **Statements without neighbours that could be merged**, inside queries too. -/
inductive Tidy : List Node → Prop
  | mk {ns : List Node} (apart : Apart ns)
      (inside : ∀ n ∈ ns, n.kind.isQuery = true → Tidy n.body) : Tidy ns

theorem Tidy.apart (h : Tidy ns) : Apart ns := by
  cases h with
  | mk apart => exact apart

theorem Tidy.inside {ns : List Node} (h : Tidy ns) :
    ∀ n ∈ ns, n.kind.isQuery = true → Tidy n.body := by
  cases h with
  | mk _ inside => exact inside

theorem apart_map {f : Node → Node} (hf : ∀ n, (f n).kind = n.kind) :
    Apart (ns.map f) ↔ Apart ns := by
  unfold Apart
  rw [isChain_map]
  simp only [hf]

/-! ## Rules with a block -/

/-- A statement that has a block and nothing else, if it is a rule with selectors or queries.  The
statements in a query satisfy `P`. -/
def Ruled (P : Node → Prop) (n : Node) : Prop :=
  n.kind.sameRule n.kind = true → ∃ l lb cs, n = .mk l [.mk lb cs] ∧ lb.kind = .block ∧
    lb.relation = some .rules ∧ (l.kind.isQuery = true → ∀ c ∈ cs, P c)

/-- **Statements whose rules have a block and nothing else**, where queries are nested no deeper than
`depth`. -/
def RuledTo : Nat → Node → Prop
  | 0 => Ruled fun _ => False
  | depth + 1 => Ruled (RuledTo depth)

theorem Node.size_le_sizeAll {c : Node} (h : c ∈ cs) : c.size ≤ sizeAll cs := by
  induction cs with
  | nil => cases h
  | cons d cs ih =>
    rw [sizeAll]
    obtain rfl | h := mem_cons.1 h
    · exact Nat.le_add_right _ _
    · exact (ih h).trans (Nat.le_add_left _ _)

theorem Ruled.imp {Q : Node → Prop} (h : Ruled P n) (hPQ : ∀ c, P c → c.size < n.size → Q c) :
    Ruled Q n := by
  intro hsame
  obtain ⟨l, lb, cs, rfl, hb, hr, hcs⟩ := h hsame
  refine ⟨l, lb, cs, rfl, hb, hr, fun hq c hc => hPQ c (hcs hq c hc) ?_⟩
  have hsize := size_le_sizeAll hc
  simp only [size, sizeAll]
  omega

theorem RuledTo.mono {depth' : Nat} (hle : depth ≤ depth') (h : RuledTo depth n) :
    RuledTo depth' n := by
  induction depth generalizing depth' n with
  | zero =>
    cases depth' with
    | zero => exact h
    | succ _ => exact Ruled.imp h fun _ => False.elim
  | succ depth ih =>
    cases depth' with
    | zero => cases hle
    | succ _ => exact Ruled.imp h fun _ hc _ => ih (Nat.le_of_succ_le_succ hle) hc

/-- Queries are nested no deeper than there are nodes. -/
theorem RuledTo.of_size (h : RuledTo depth n) : RuledTo n.size n := by
  induction depth generalizing n with
  | zero => exact h.mono (Nat.zero_le _)
  | succ depth ih =>
    obtain ⟨l, cs⟩ := n
    exact Ruled.imp h fun c hc hlt => (ih hc).mono (Nat.le_of_lt_succ hlt)

theorem RuledTo.of_mem (l : Label) (h : ∀ n ∈ ns, RuledTo depth n) :
    ∀ n ∈ ns, RuledTo (Node.mk l ns).size n :=
  fun n hn => (h n hn).of_size.mono ((size_le_sizeAll hn).trans (Nat.le_succ _))

theorem RuledTo.of_not_rule (h : n.kind.sameRule n.kind = false) : RuledTo depth n := by
  cases depth <;> exact fun hsame => absurd hsame (Bool.eq_false_iff.1 h)

theorem RuledTo.enclosed (h : RuledTo depth n) (kind : Kind) :
    RuledTo (depth + 1) (n.enclosed kind) :=
  fun _ => ⟨_, _, _, rfl, rfl, rfl, fun _ => forall_mem_singleton.2 h⟩

/-- The rule that stands for a container has a block and nothing else, and so have its queries. -/
theorem Lifted.ruledTo_wrap {x : Lifted} (h : x.rule? = some n) : RuledTo 2 (x.context.wrap n) := by
  have hn : RuledTo 0 n := by
    obtain ⟨hwhole, hrule⟩ | ⟨-, -, hrule⟩ | ⟨-, -, hrule⟩ := x.rule?_cases <;>
      cases hrule.symm.trans h
    · refine .of_not_rule ?_
      revert hwhole
      cases x.node.kind <;> simp [Kind.isWhole, Kind.sameRule]
    · exact fun _ => ⟨_, _, _, rfl, rfl, rfl, Bool.false_ne_true.elim⟩
  unfold Context.wrap
  cases x.context.supportsQuery <;> split_ifs
  · exact hn.mono (Nat.zero_le _)
  · exact (hn.enclosed _).mono (Nat.le_succ _)
  · exact (hn.enclosed _).mono (Nat.le_succ _)
  · exact (hn.enclosed _).enclosed _

/-- What a statement becomes, where nothing is asked of the statement. -/
theorem RuledTo.lift {file : Option String} {ms : List Node} (h : lift file n = .ok ms) :
    ∀ m ∈ ms, RuledTo 2 m := by
  obtain ⟨-, rfl⟩ | ⟨-, hc, rfl⟩ | ⟨-, -, found, -, rfl⟩ := lift_eq_ok h
  · exact forall_mem_nil _
  · refine forall_mem_singleton.2 (.of_not_rule ?_)
    revert hc
    cases n.kind <;> simp [Kind.isContainer, Kind.sameRule]
  · intro m hm
    obtain ⟨x, -, hx⟩ := mem_filterMap.1 hm
    obtain ⟨rule, hrule, rfl⟩ := Option.map_eq_some_iff.1 hx
    exact Lifted.ruledTo_wrap hrule

theorem Ruled.dropEmpty (hP : ∀ {cs : List Node}, (∀ c ∈ cs, P c) → ∀ c ∈ dropEmptyAll cs, P c)
    (hns : ∀ n ∈ ns, Ruled P n) : ∀ m ∈ dropEmptyAll ns, Ruled P m := by
  intro m hm hsame
  rw [dropEmptyAll_eq_filter] at hm
  obtain ⟨n, hn, rfl⟩ := mem_map.1 (mem_filter.1 hm).1
  obtain ⟨l, lb, cs, rfl, hb, hr, hcs⟩ := hns n hn (n.kind_dropEmpty ▸ hsame)
  exact ⟨l, lb, _, dropEmpty_rule hb, hb, hr, fun hq => hP (hcs hq)⟩

theorem RuledTo.dropEmptyAll (hns : ∀ n ∈ ns, RuledTo depth n) :
    ∀ m ∈ dropEmptyAll ns, RuledTo depth m := by
  induction depth generalizing ns with
  | zero =>
    refine Ruled.dropEmpty (fun hcs => ?_) hns
    rw [eq_nil_iff_forall_not_mem.2 hcs]
    exact forall_mem_nil _
  | succ depth ih => exact Ruled.dropEmpty ih hns

section Merge

/-- **Two rules that say the same are one rule**, with the statements of one after those of the
other. -/
theorem Ruled.merged? {a b : Node} (ha : Ruled P a) (hb : Ruled P b)
    (hsame : a.kind.sameRule b.kind = true) :
    ∃ m, a.merged? b = some m ∧ Ruled P m ∧ ∀ {p through : Kind → Bool}, Seeks p through →
      ∀ around, m.cascade p through around =
        a.cascade p through around ++ b.cascade p through around := by
  obtain ⟨hsa, hsb, hrule, hquery⟩ := Kind.rule?_eq hsame
  obtain ⟨l, lb, cs, rfl, hk, hr, hcs⟩ := ha hsa
  obtain ⟨l', lb', cs', rfl, hk', hr', hcs'⟩ := hb hsb
  simp only [kind_mk] at hsa hsb hsame hquery hrule
  refine ⟨_, by rw [merged?_rule hr hr', if_pos hsame], fun _ => ⟨l, lb, _, rfl, hk, hr, fun hq => ?_⟩,
    fun hs around => ?_⟩
  · exact forall_mem_append.2 ⟨hcs hq, hcs' (hquery ▸ hq)⟩
  · rw [cascade_rule hs hsa hk, cascade_rule hs hsa hk, cascade_rule hs hsb hk', hrule,
      cascadeAll_append]

/-- **What merging makes of a statement and those after it.** -/
theorem Ruled.mergeAfter {previous : Node} (hp : Ruled P previous) (hns : ∀ n ∈ ns, Ruled P n) :
    ∃ m ms, mergeAfter previous ns = m :: ms ∧ m.kind = previous.kind ∧
      (∀ n ∈ m :: ms, Ruled P n) ∧ Apart (m :: ms) ∧ ∀ {p through : Kind → Bool}, Seeks p through →
        ∀ around, cascadeAll p through around (m :: ms) =
          cascadeAll p through around (previous :: ns) := by
  induction ns generalizing previous with
  | nil => exact ⟨previous, [], rfl, rfl, forall_mem_singleton.2 hp, .singleton _, fun _ _ => rfl⟩
  | cons n ns ih =>
    obtain ⟨hn, hns⟩ := forall_mem_cons.1 hns
    rw [Cascade.mergeAfter]
    cases hsame : previous.kind.sameRule n.kind with
    | true =>
      obtain ⟨merged, hm, hmerged, hfound⟩ := hp.merged? hn hsame
      obtain ⟨m, ms, heq, hk, hall, hapart, hrest⟩ := ih hmerged hns
      rw [hm]
      refine ⟨m, ms, heq, hk.trans (merged?_kind hm), hall, hapart, fun hs around => ?_⟩
      rw [hrest hs, cascadeAll, hfound hs, append_assoc]
      rfl
    | false =>
      obtain ⟨m, ms, heq, hk, hall, hapart, hrest⟩ := ih hn hns
      rw [merged?_eq_none hsame, heq]
      refine ⟨previous, m :: ms, rfl, rfl, forall_mem_cons.2 ⟨hp, hall⟩,
        isChain_cons_cons.2 ⟨hk ▸ hsame, hapart⟩, fun hs around => ?_⟩
      rw [cascadeAll, hrest hs]
      rfl

theorem Ruled.mergeRuns (hns : ∀ n ∈ ns, Ruled P n) :
    (∀ n ∈ mergeRuns ns, Ruled P n) ∧ Apart (mergeRuns ns) ∧
      ∀ {p through : Kind → Bool}, Seeks p through → ∀ around,
        cascadeAll p through around (mergeRuns ns) = cascadeAll p through around ns := by
  cases ns with
  | nil => exact ⟨hns, .nil, fun _ _ => rfl⟩
  | cons n ns =>
    obtain ⟨hn, hns⟩ := forall_mem_cons.1 hns
    obtain ⟨m, ms, heq, -, h⟩ := hn.mergeAfter hns
    rw [Cascade.mergeRuns, heq]
    exact h

/-- **Merging neighbours, inside queries too**, keeps what is found, and leaves nothing that could be
merged if it goes down far enough. -/
theorem RuledTo.mergeWithin (hns : ∀ n ∈ ns, RuledTo depth n) :
    Tidy (mergeWithin depth ns) ∧ ∀ {p through : Kind → Bool}, Seeks p through → ∀ around,
      cascadeAll p through around (mergeWithin depth ns) = cascadeAll p through around ns := by
  induction depth generalizing ns with
  | zero =>
    obtain ⟨hall, hapart, hfound⟩ := Ruled.mergeRuns hns
    refine ⟨.mk hapart fun n hn hq => ?_, hfound⟩
    obtain ⟨l, lb, cs, rfl, -, hr, hcs⟩ := hall n hn (Kind.sameRule_of_isQuery hq)
    rw [body_rule hr, eq_nil_iff_forall_not_mem.2 (hcs hq)]
    exact .mk .nil (forall_mem_nil _)
  | succ depth ih =>
    obtain ⟨hall, hapart, hfound⟩ := Ruled.mergeRuns hns
    have hinside : ∀ n ∈ mergeRuns ns,
        (n.kind.isQuery = true → Tidy (n.mergeInside depth).body) ∧
        ∀ {p through : Kind → Bool}, Seeks p through → ∀ around,
          (n.mergeInside depth).cascade p through around = n.cascade p through around := by
      intro n hn
      unfold mergeInside
      split
      · rename_i hq
        have hsame := Kind.sameRule_of_isQuery hq
        obtain ⟨l, lb, cs, rfl, hk, hr, hcs⟩ := hall n hn hsame
        obtain ⟨htidy, hbody⟩ := ih (hcs hq)
        rw [updateRules_rule hr]
        rw [kind_mk] at hsame
        refine ⟨fun _ => (body_rule hr).symm ▸ htidy, fun hs around => ?_⟩
        exact (cascade_rule hs hsame hk).trans ((hbody hs _).trans (cascade_rule hs hsame hk).symm)
      · exact ⟨fun hq => absurd hq ‹_›, fun _ _ => rfl⟩
    rw [mergeWithin_succ]
    refine ⟨.mk ((apart_map (kind_mergeInside depth)).2 hapart) fun m hm hq => ?_, fun hs around => ?_⟩
    · obtain ⟨n, hn, rfl⟩ := mem_map.1 hm
      rw [kind_mergeInside] at hq
      exact (hinside n hn).1 hq
    · rw [← hfound hs, cascadeAll_eq_flatMap, cascadeAll_eq_flatMap, flatMap_map]
      exact flatMap_congr fun n hn => (hinside n hn).2 hs around

end Merge

/-! ## The last step of flattening -/

/-- What the last step finds: rules that have been lifted out, without those that are empty. -/
theorem mergeWithin_lifted {file : Option String} {lifted : List (List Node)} (l : Label)
    (h : ns.mapM (lift file) = .ok lifted) :
    let cleaned := dropEmptyAll lifted.flatten
    let merged := mergeWithin (Node.mk l cleaned).size cleaned
    Tidy merged ∧ ∀ {p through : Kind → Bool}, Seeks p through → ∀ around,
      cascadeAll p through around merged = cascadeAll p through around cleaned := by
  have hruled : ∀ n ∈ lifted.flatten, RuledTo 2 n := by
    intro n hn
    obtain ⟨ms, hms, hn⟩ := mem_flatten.1 hn
    exact forall_mem_of_forall₂ (mapM_eq_ok h) (fun _ _ => trivial)
      (fun _ _ ms h _ => RuledTo.lift h) ms hms n hn
  exact RuledTo.mergeWithin (.of_mem l (.dropEmptyAll hruled))

/-- The properties of a stylesheet in document order, each with the selectors and queries around
it. -/
def Node.properties (root : Node) : List (List Kind × Node) :=
  cascadeAll Kind.isProperty (fun _ => true) [] root.children

theorem seeks_isProperty : Seeks Kind.isProperty fun _ => true :=
  ⟨⟨rfl, rfl⟩, fun kind h => by cases kind <;> simp_all [Kind.sameRule, Kind.isProperty]⟩

/-- **Merging neighbours keeps every property under its selectors and queries, in order**, and leaves
no neighbours that could be merged. -/
theorem merging_keeps_cascade {file : Option String} {root : Node} {lifted : List (List Node)}
    (h : root.children.mapM (lift file) = .ok lifted) :
    let cleaned := (root.withChildren lifted.flatten).dropEmpty
    let merged := cleaned.withChildren (mergeWithin cleaned.size cleaned.children)
    merged.properties = cleaned.properties ∧ Tidy merged.children := by
  obtain ⟨l, cs⟩ := root
  obtain ⟨htidy, hfound⟩ := mergeWithin_lifted l h
  exact ⟨hfound seeks_isProperty [], htidy⟩

/-- Two rules that are merged, and three queries, of which two hold the same rule. -/
theorem merging_keeps_cascade_query :
    let declared (name : String) : Node := .make (.property name [] false) 1
    let styled (selector name : String) := (declared name).enclosed (.selector [selector] [])
    let queried (selector name : String) := (styled selector name).enclosed (.media ["x"] [])
    let root : Node := .make .sheet 1
      [styled "a" "b", styled "a" "c", queried "a" "d", queried "a" "e", queried "p" "f"]
    let merged := root.withChildren (mergeWithin root.size root.children)
    root.children.mapM (lift none) = .ok (root.children.map ([·])) ∧
      root.dropEmpty = root ∧
      merged.children.map (·.body.map (·.body.length)) = [[0, 0], [2, 1]] ∧
      merged.properties = root.properties ∧ Tidy merged.children := by
  intro declared styled queried root merged
  have h : root.children.mapM (lift none) = .ok (root.children.map ([·])) := rfl
  exact ⟨h, rfl, by decide +kernel, merging_keeps_cascade h⟩

end Cascade
