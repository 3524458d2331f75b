import Cascade.Proofs.LockstepStatements

/-!
# Parsed trees follow the grammar

Whatever text is parsed: if parsing succeeds, the tree is a stylesheet in the sense of
`Cascade.IsSheet`.  The parsers give well shaped trees, in which every node has the children that
belong to its kind, and such trees follow the grammar: a node does if the nodes below it do.
-/

set_option autoImplicit false

namespace Cascade

open Node List

variable {sharing : Prop}

/-- **Every node of a parsed tree has the children that belong to its kind.** -/
theorem parsed_tree_shaped {source : Source} {root : Node} (h : parse source = .ok root) :
    root.kind = .sheet ∧ root.relation = none ∧ ∀ n ∈ root.preorder, n.Shaped := by
  obtain ⟨hkind, hrelation, hshaped⟩ := parse_shaped h
  exact ⟨hkind, hrelation, fun n hn => hshaped n hn⟩

/-- A text with most of the shapes in it: a mixin with a default, a slash that is kept, an animation, a
conditional with all its parts and a use that passes a block along. -/
def shapeSample : Source where
  text := "$m($a,$b=1 2)\x7bp:10px/2 $a,f(1);\x7d@keyframes k\x7bfrom\x7ba:-1;\x7d\x7d" ++
    "@if 1+2\x7b$x=1;\x7d@elif $x\x7b$m()<\x7bc:d;\x7d\x7d@else\x7b\x7d"

theorem parsed_tree_shaped_sample :
    ∃ root, parse shapeSample = .ok root ∧
      root.preorder.map (fun n => n.kind.form) =
        [.sheet, .template, .params, .param, .param, .list, .atom, .atom, .block, .property, .comma,
          .list, .slash, .atom, .atom, .atom, .application, .params, .atom, .keyframes, .block,
          .frame, .block, .property, .atom, .conditional, .binary, .atom, .atom, .block,
          .declaration, .atom, .conditional, .atom, .block, .call, .params, .block, .property,
          .atom, .block] ∧
      root.kind = .sheet ∧ root.relation = none ∧ ∀ n ∈ root.preorder, n.Shaped := by
  exact exists_of_map (by decide +kernel) fun _ => parsed_tree_shaped

/-- Induction on trees: what holds of a node if it holds of all nodes below it, holds of every
node. -/
@[elab_as_elim]
theorem Node.ind_below {motive : Node → Prop}
    (mk : ∀ label children, (∀ c ∈ children, ∀ m ∈ c.preorder, motive m) →
      motive (.mk label children))
    (node : Node) : motive node := by
  suffices hall : ∀ m ∈ node.preorder, motive m from hall node node.self_mem_preorder
  induction node using ind with
  | mk l cs ih => exact forall_mem_preorder.2 ⟨mk l cs ih, ih⟩

namespace Node

/-! ## Values -/

theorem WellShaped.isValue {n : Node} (h : n.WellShaped) (hv : n.kind.form.isValue = true) :
    IsValue n := by
  induction n using ind_below with
  | mk l cs ih =>
    have part : ∀ {place loose} {c : Node}, c ∈ cs → c.IsValueIn place loose → IsValue c :=
      fun hc hv => ih _ hc _ (self_mem_preorder _) (h.child _ hc) hv.1
    have hself := h.self
    rw [Shaped, kind_mk, children_mk] at hself
    rw [kind_mk] at hv
    generalize hf : l.kind.form = form at hself hv
    cases form with
    | atom =>
      rcases cs with _ | _
      case nil => exact .atom hf
      all_goals exact hself.elim
    | list =>
      refine .series (by rw [hf]; decide) hself.1 (fun c hc => ?_) fun c hc => part hc (hself.2 c hc)
      rw [hf]
      exact Nat.lt_succ_of_le (hself.2 c hc).2.2
    | comma =>
      refine .series (by rw [hf]; decide) hself.1 (fun c hc => ?_) fun c hc => part hc (hself.2 c hc)
      rw [hf]
      exact Nat.lt_succ_of_le (hself.2 c hc).2.2
    | slash =>
      rcases cs with _ | ⟨a, _ | ⟨b, _ | _⟩⟩
      case cons.cons.nil =>
        exact .pair (.inl hf) (part (by simp) hself.1.isValueIn) (part (by simp) hself.2.isValueIn)
      all_goals exact hself.elim
    | binary =>
      rcases cs with _ | ⟨a, _ | ⟨b, _ | _⟩⟩
      case cons.cons.nil => exact .pair (.inr hf) (part (by simp) hself.1) (part (by simp) hself.2)
      all_goals exact hself.elim
    | unary =>
      rcases cs with _ | ⟨a, _ | _⟩
      case cons.nil => exact .unary hf (part (by simp) hself)
      all_goals exact hself.elim
    | assign =>
      rcases cs with _ | ⟨a, _ | _⟩
      case cons.nil => exact .assign hf hself.2.1 (part (by simp) hself)
      all_goals exact hself.elim
    | application =>
      rcases cs with _ | ⟨⟨lp, as⟩, _ | _⟩
      case cons.nil =>
        obtain ⟨hk, hr, has⟩ := hself
        have hparams : (Node.mk lp as).WellShaped := h.child _ (by simp)
        refine .application hf hk hr (fun c hc => Nat.lt_succ_of_le (has c hc).2.2) fun c hc => ?_
        have hbelow : c ∈ (Node.mk lp as).preorder := mem_preorder_of_mem hc c.self_mem_preorder
        exact ih _ (by simp) c hbelow (hparams.child c hc) (has c hc).1
      all_goals exact hself.elim
    | _ => exact absurd hv (by decide)

theorem WellShaped.isParameter {p : Node} (h : p.WellShaped) (hp : p.IsParam) : IsParameter p := by
  obtain ⟨l, cs⟩ := p
  have hself := h.self
  rw [Shaped, hp.1] at hself
  rcases cs with _ | ⟨v, _ | _⟩
  case nil => exact .mk hp.1 ⟨by simp, by simp, by simp⟩
  case cons.nil =>
    have hv : IsValue v := (h.child v (by simp)).isValue hself.1
    exact .mk hp.1 ⟨by simp, by simpa using hself.2.1, by simpa using hv⟩
  all_goals exact hself.elim

theorem WellShaped.isArguments {loose : Nat} {lp : Label} {cs : List Node}
    (h : (Node.mk lp cs).WellShaped) (hs : (Node.mk lp cs).IsParams (IsValueIn none loose)) :
    IsArguments lp cs :=
  ⟨hs.1, hs.2.1, fun c hc => (h.child c hc).isValue (hs.2.2 c hc).1⟩

/-! ## Statements -/

/-- A statement of a list, a step of an animation, or a block of listed statements. -/
def IsStatementLike (n : Node) : Prop :=
  n.kind.form.isListed = true ∨ n.kind.form = .frame ∨
    n.kind.form = .block ∧ ∀ c ∈ n.children, c.IsListed

theorem IsBody.isStatementLike {place : Relation} {b : Node} (h : b.IsBody place) :
    b.IsStatementLike :=
  .inr (.inr ⟨h.1, h.2.2⟩)

theorem IsListed.isMember {c : Node} (h : c.IsListed) : IsMember c := by
  refine ⟨h.2, fun hframe => ?_⟩
  have hlisted := h.1
  rw [hframe] at hlisted
  exact absurd hlisted (by decide)

theorem IsElsePart.placed {e : Node} (h : e.IsElsePart) : e.relation = some .elsePart ∧
    (e.kind.form = .block ∨ e.kind.form = .conditional) := by
  rcases h with h | h
  · exact ⟨h.2.1, .inl h.1⟩
  · exact ⟨h.2, .inr h.1⟩

theorem IsElsePart.isStatementLike {e : Node} (h : e.IsElsePart) : e.IsStatementLike := by
  rcases h with h | h
  · exact h.isStatementLike
  · exact .inl (by rw [h.1]; rfl)

theorem WellShaped.isStatement {n : Node} (h : n.WellShaped) (hs : n.IsStatementLike) :
    IsStatement sharing n := by
  induction n using ind_below with
  | mk l cs ih =>
    have part : ∀ {c : Node}, c ∈ cs → c.IsStatementLike → IsStatement sharing c :=
      fun hc hs => ih _ hc _ (self_mem_preorder _) (h.child _ hc) hs
    have hself := h.self
    rw [Shaped, kind_mk, children_mk] at hself
    rw [IsStatementLike, kind_mk, children_mk] at hs
    generalize hf : l.kind.form = form at hself hs
    cases form with
    | marker =>
      rcases cs with _ | _
      case nil => exact .marker hf
      all_goals exact hself.elim
    | property =>
      rcases cs with _ | ⟨v, _ | _⟩
      case cons.nil => exact .property hf hself.2.1 ((h.child v (by simp)).isValue hself.1)
      all_goals exact hself.elim
    | declaration =>
      rcases cs with _ | ⟨v, _ | _⟩
      case cons.nil =>
        have hvalue : IsValue v := (h.child v (by simp)).isValue hself.1
        exact .declaration hf ⟨by simp, by simpa using hself.2.1, by simpa using hvalue⟩
      all_goals exact hself.elim
    | assign =>
      rcases cs with _ | ⟨v, _ | _⟩
      case cons.nil => exact .assign hf hself.2.1 ((h.child v (by simp)).isValue hself.1)
      all_goals exact hself.elim
    | directive =>
      rcases cs with _ | ⟨⟨lp, as⟩, _ | _⟩
      case cons.nil => exact .directive hf ((h.child _ (by simp)).isArguments hself)
      all_goals exact hself.elim
    | rule =>
      rcases cs with _ | ⟨b, _ | _⟩
      case cons.nil =>
        exact .rule (.inl hf) hself.1 hself.2.1 (part (by simp) hself.isStatementLike)
      all_goals exact hself.elim
    | frame =>
      rcases cs with _ | ⟨b, _ | _⟩
      case cons.nil =>
        exact .rule (.inr hf) hself.1 hself.2.1 (part (by simp) hself.isStatementLike)
      all_goals exact hself.elim
    | keyframes =>
      rcases cs with _ | ⟨⟨lb, fs⟩, _ | _⟩
      case cons.nil =>
        obtain ⟨hk, hr, hfs⟩ := hself
        have hblock : (Node.mk lb fs).WellShaped := h.child _ (by simp)
        refine .keyframes hf hk hr (fun c hc => (hfs c hc).symm) fun c hc => ?_
        have hbelow : c ∈ (Node.mk lb fs).preorder := mem_preorder_of_mem hc c.self_mem_preorder
        exact ih _ (by simp) c hbelow (hblock.child c hc) (.inr (.inl (hfs c hc).1))
      all_goals exact hself.elim
    | template =>
      rcases cs with _ | ⟨⟨lp, ps⟩, _ | ⟨b, _ | _⟩⟩
      case cons.cons.nil =>
        obtain ⟨⟨hk, hr, hps⟩, hb⟩ := hself
        have hparams : (Node.mk lp ps).WellShaped := h.child _ (by simp)
        exact .mixin (.inl hf) hk hr (fun p hp => (hparams.child p hp).isParameter (hps p hp))
          hb.1 hb.2.1 (part (by simp) hb.isStatementLike)
      all_goals exact hself.elim
    | call =>
      rcases cs with _ | ⟨⟨lp, as⟩, _ | ⟨b, _ | _⟩⟩
      case cons.nil =>
        exact .call hf ((h.child _ (by simp)).isArguments hself) (by simp) (by simp) (by simp)
      case cons.cons.nil =>
        obtain ⟨hargs, hb⟩ := hself
        refine .call hf ((h.child _ (by simp)).isArguments hargs) (by simp) ?_ ?_
        · exact forall_mem_singleton.2 ⟨hb.1, hb.2.1⟩
        · exact forall_mem_singleton.2 (part (by simp) hb.isStatementLike)
      all_goals exact hself.elim
    | conditional =>
      rcases cs with _ | ⟨c, _ | ⟨t, _ | ⟨e, _ | _⟩⟩⟩
      case cons.cons.nil =>
        obtain ⟨hc, ht⟩ := hself
        exact .conditional hf ((h.child c (by simp)).isValue hc.1) hc.2.1 ht.1 ht.2.1 (by simp)
          (by simp) (part (by simp) ht.isStatementLike) (by simp)
      case cons.cons.cons.nil =>
        obtain ⟨hc, ht, he⟩ := hself
        refine .conditional hf ((h.child c (by simp)).isValue hc.1) hc.2.1 ht.1 ht.2.1 (by simp)
          ?_ (part (by simp) ht.isStatementLike) ?_
        · exact forall_mem_singleton.2 he.placed
        · exact forall_mem_singleton.2 (part (by simp) he.isStatementLike)
      all_goals exact hself.elim
    | block =>
      obtain hs | hs | ⟨-, hlisted⟩ := hs
      · exact absurd hs (by decide)
      · exact absurd hs (by decide)
      · exact .block hf (fun c hc => (hlisted c hc).isMember) fun c hc =>
          part hc (.inl (hlisted c hc).1)
    | _ => exact absurd hs (by simp [Form.isListed])

end Node

/-- **Parsed trees follow the grammar.** -/
theorem parse_isSheet {source : Source} {root : Node} (h : parse source = .ok root) :
    IsSheet sharing root := by
  obtain ⟨hkind, -, hshaped⟩ := parse_shaped h
  have hself := hshaped.self
  rw [Node.Shaped, hkind] at hself
  exact ⟨by rw [hkind]; rfl, fun c hc =>
    ⟨(hself c hc).isMember, (hshaped.child c hc).isStatement (.inl (hself c hc).1)⟩⟩

end Cascade
