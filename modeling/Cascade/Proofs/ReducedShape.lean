import Cascade.Proofs.Contexts
import Cascade.Proofs.OpenCalls

/-!
# The shape of reduced stylesheets

Every stage of reduction removes some kinds of nodes: mixins are expanded and extended, variables
and expressions evaluated, rules lifted out of each other.  This file says what is left in the end.
No expression, no variable and no use of a mixin is left anywhere, and outside animations and fonts,
which are lifted out as they are, nothing is left but rules with properties in them and queries
around such rules.

For uses of mixins this needs a condition: no mixin is used under a name that starts like the names
in expansions.  Otherwise a use could refer to a copy of a definition, and stay.
-/

set_option autoImplicit false

namespace Cascade

open Node List

variable {n : Node} {heading : Kind → Prop}

/-! ## Evaluation -/

/-- If no mixin is used under a marked name, **no use of a mixin is left** by the stages before
flattening, except inside mixins that nobody extends. -/
theorem Sheet.evaluate_closed {source : Source} {profile : Profile} {sheet evaluated : Sheet}
    (hp : Sheet.parse source = .ok sheet)
    (hn : CallsNamed (fun name => hasMark name = false) sheet.root)
    (h : sheet.evaluate profile = .ok evaluated) :
    LeftAll (CallsAre False) evaluated.root.children := by
  obtain ⟨s₁, h₁, h⟩ := bind_eq_ok.1 h
  obtain ⟨s₂, h₂, h⟩ := bind_eq_ok.1 h
  obtain ⟨s₃, h₃, h⟩ := bind_eq_ok.1 h
  obtain ⟨s₄, h₄, h⟩ := bind_eq_ok.1 h
  obtain ⟨s₅, h₅, h⟩ := bind_eq_ok.1 h
  have hs₁ : ∀ sharing, IsSheet sharing s₁.root := fun _ =>
    (Sheet.parse_isSheet hp).substituteFields h₁
  have hs₂ : ∀ sharing, IsSheet sharing s₂.root := fun sharing => (hs₁ sharing).cleanUp h₂
  have hs₄ : IsSheet True s₄.root := ((hs₂ True).expandMixins h₃).processExtends h₄
  have hn₂ : CallsNamed (fun name => hasMark name = false) s₂.root :=
    Sheet.cleanUp_keeps (fun _ _ ht => ht.callsNamed _) (hs₁ True) (hn.substituteFields h₁) h₂
  have hclosed : ¬ OpenCall s₅.root := by
    refine Sheet.cleanUp_keeps (P := fun n => ¬ OpenCall n) (fun n m ht hno ho => ?_) hs₄
      (Sheet.processExtends_closed hs₂ hn₂ h₃ h₄) h₅
    exact hno (ho.of_edited (ht.edited _))
  exact ((hs₄.cleanUp h₅).execute hclosed h).2.2

/-! ## Kinds that are gone -/

/-- Kinds of nodes that reduction removes. -/
def Kind.isUnreduced : Kind → Bool
  | reference _ | call .. | conditional | declaration _ | assign .. | content | directive _
  | inclusion _ | binary _ | unary _ | command _ => true
  | _ => false

theorem Kind.isUnreduced_of_isInert {kind : Kind} (h : kind.isInert = true) :
    kind.isUnreduced = false := by
  cases kind <;> first | rfl | cases h

theorem Kind.isUnreduced_of_isRule {kind : Kind}
    (h : kind.form.isRule = true ∨ kind.form = .extended) : kind.isUnreduced = false := by
  cases kind with
  | mixin => rfl
  | _ => first | rfl | simp [form, Form.isRule] at h

/-- **In a settled statement without anything empty in it nothing is left to reduce**, if no use of
a mixin is left. -/
theorem IsSettled.reduced (hn : IsSettled (Full False) n) :
    ∀ m ∈ n.preorder, m.kind.isUnreduced = false := by
  -- A block and what is in it.
  have block : ∀ {lb : Label} {cs : List Node}, lb.kind.form = .block →
      (∀ c ∈ cs, ∀ m ∈ c.preorder, m.kind.isUnreduced = false) →
      ∀ m ∈ (Node.mk lb cs).preorder, m.kind.isUnreduced = false := by
    intro lb cs hk ih
    exact forall_mem_preorder.2 ⟨by rw [kind_mk, Kind.eq_block hk]; rfl, ih⟩
  induction hn with
  | @property l v hok h hd hr hv =>
    refine forall_mem_preorder.2 ⟨?_, forall_mem_singleton.2 fun m hm =>
      Kind.isUnreduced_of_isInert (hv.inert m hm)⟩
    obtain ⟨_, _, _, h⟩ := Kind.of_form h
    rw [kind_mk, h]
    rfl
  | silent hok h => cases h.symm.trans hok.isDiscarded
  | call hok h => exact (hok.1.1 h).elim
  | block hok h => exact absurd h hok.1.2
  | @rule l lb cs hok h hd hk hr hm hcs ih =>
    exact forall_mem_preorder.2 ⟨Kind.isUnreduced_of_isRule (.inl h),
      forall_mem_singleton.2 (block hk ih)⟩
  | @extended l lp lb cs hok h hkp hrp hk hr hm hcs ih =>
    exact forall_mem_preorder.2 ⟨Kind.isUnreduced_of_isRule (.inr h), forall_mem_cons.2
      ⟨forall_mem_preorder.2 ⟨by rw [kind_mk, Kind.eq_params hkp]; rfl, by simp⟩,
        forall_mem_singleton.2 (block hk ih)⟩⟩

/-! ## Outside animations and fonts -/

namespace Node

mutual

/-- Every node of a tree that is not part of an animation or a font. -/
def surface : Node → List Node
  | mk label children =>
    if label.kind.isWhole then [] else mk label children :: surfaceAll children

/-- Every node of several trees that is not part of an animation or a font. -/
def surfaceAll : List Node → List Node
  | [] => []
  | node :: rest => surface node ++ surfaceAll rest

end

theorem surfaceAll_eq_flatMap (nodes : List Node) :
    surfaceAll nodes = nodes.flatMap surface := by
  induction nodes with
  | nil => rfl
  | cons node rest ih => rw [surfaceAll, ih, flatMap_cons]

theorem mem_surface_mk {l : Label} {cs : List Node} {m : Node} : m ∈ (mk l cs).surface ↔
    l.kind.isWhole = false ∧ (m = mk l cs ∨ ∃ c ∈ cs, m ∈ c.surface) := by
  rw [surface, surfaceAll_eq_flatMap]
  cases l.kind.isWhole <;> simp

theorem mem_preorder_of_mem_surface {m : Node} (h : m ∈ n.surface) : m ∈ n.preorder := by
  induction n using ind with
  | mk l cs ih =>
    obtain ⟨-, rfl | ⟨c, hc, hm⟩⟩ := mem_surface_mk.1 h
    · exact self_mem_preorder _
    · exact mem_preorder_of_mem hc (ih c hc hm)

/-- **How a node of a flat stylesheet is built**, if it is not part of an animation or a font. -/
def IsFlat (n : Node) : Prop :=
  match n.kind with
  | .mixin .. | .root => False
  | .block => n.relation ≠ none
  | .selector names _ =>
    (∀ name ∈ names, '&' ∉ name.toList) ∧ n.body ≠ [] ∧ ∀ c ∈ n.body, c.kind.isProperty = true
  | .supports _ =>
    n.body ≠ [] ∧ ∀ c ∈ n.body, c.kind.isWhole = true ∨ ∃ names, c.kind = .selector names []
  | .media .. =>
    n.body ≠ [] ∧ ∀ c ∈ n.body, c.kind.isWhole = true ∨ (∃ names, c.kind = .selector names []) ∨
      ∃ query, c.kind = .supports query
  | _ => True

/-- There are no rules in values. -/
theorem isFlat_of_isPart (h : n.kind.form.isPart = true) : n.IsFlat := by
  unfold IsFlat
  unfold Kind.form at h
  split at h <;> simp_all [Form.isPart, Form.isValue]

end Node

/-! ## Layers are flat -/

/-- The statements of a rule are properties. -/
theorem IsDeclaration.cases_property (hn : IsDeclaration (Full False) n) :
    ∃ l v, n = .mk l [v] ∧ l.kind.isProperty = true ∧ IsPlain v := by
  obtain ⟨hs, hm, hc⟩ := hn
  cases hs with
  | @property l v hok h hd hr hv =>
    exact ⟨l, v, rfl, Kind.isProperty_iff.2 h, hv⟩
  | silent hok h => cases h.symm.trans hok.isDiscarded
  | call hok h => exact (hok.1.1 h).elim
  | block hok h => exact absurd h hok.1.2
  | @rule l lb cs hok h =>
    have hframe := hm.2
    rw [kind_mk] at hc hframe
    unfold Kind.form at h hframe
    split at h <;> simp_all [Form.isRule, Kind.isContainer]
  | @extended l lp lb cs hok h =>
    rw [kind_mk] at hc
    revert h hc
    cases l.kind <;> simp [Kind.form, Kind.isContainer]

theorem IsDeclaration.isFlat (hn : IsDeclaration (Full False) n) : ∀ m ∈ n.surface, m.IsFlat := by
  obtain ⟨l, v, rfl, hl, hv⟩ := hn.cases_property
  intro m hm
  obtain ⟨-, rfl | ⟨c, hc, hmc⟩⟩ := mem_surface_mk.1 hm
  · rw [Node.IsFlat, kind_mk]
    revert hl
    cases l.kind <;> simp [Kind.isProperty]
  · obtain rfl := mem_singleton.1 hc
    exact isFlat_of_isPart (hv.isPart m (mem_preorder_of_mem_surface hmc))

/-- A rule is flat if what is in it is. -/
theorem RuleOf.isFlat {P : Node → Prop} (hn : RuleOf heading P n) (hself : n.IsFlat)
    (hP : ∀ c, P c → ∀ m ∈ c.surface, m.IsFlat) : ∀ m ∈ n.surface, m.IsFlat := by
  cases hn with
  | @mk l lb cs hl hrel hb hr hcs =>
    intro m hm
    obtain ⟨-, rfl | ⟨b, hbm, hm⟩⟩ := mem_surface_mk.1 hm
    · exact hself
    obtain rfl := mem_singleton.1 hbm
    obtain ⟨-, rfl | ⟨c, hc, hm⟩⟩ := mem_surface_mk.1 hm
    · rw [Node.IsFlat, kind_mk, hb, relation_mk, hr]
      exact nofun
    · exact hP c (hcs c hc) m hm

/-- A rule without anything empty has statements. -/
theorem RuleOf.body_ne_nil {leaks : Prop} {P : Node → Prop} (hh : ∀ k, heading k → Heading k)
    (hn : RuleOf heading P n) (hfull : Full leaks n) : n.body ≠ [] := by
  cases hn with
  | mk hl hrel hb hr hcs =>
    rw [body_rule hr]
    exact (full_rule (hh _ hl) hr).1 hfull

theorem IsCore.kind (hn : IsCore (Full False) n) :
    n.kind.isWhole = true ∨ ∃ names, n.kind = .selector names [] := by
  obtain ⟨-, hrule | ⟨hwhole, -⟩⟩ := hn
  · obtain ⟨names, hk, -⟩ := hrule.kind
    exact .inr ⟨names, hk⟩
  · exact .inl hwhole

theorem IsCore.isFlat (hn : IsCore (Full False) n) : ∀ m ∈ n.surface, m.IsFlat := by
  obtain ⟨hfull, hrule | ⟨hwhole, -⟩⟩ := hn
  · refine hrule.isFlat ?_ fun c hc => hc.isFlat
    obtain ⟨names, hk, -, hnames⟩ := hrule.kind
    rw [Node.IsFlat, hk]
    refine ⟨fun name hname => hasParentReference_eq_false.1 (hnames name hname),
      hrule.body_ne_nil (fun _ => .inl) hfull, fun c hc => ?_⟩
    obtain ⟨l, v, rfl, hl, -⟩ := (hrule.forall_body c hc).cases_property
    exact hl
  · obtain ⟨l, cs⟩ := n
    intro m hm
    have hnot := (mem_surface_mk.1 hm).1
    rw [kind_mk, hnot] at hwhole
    cases hwhole

theorem IsFeature.isFlat (hn : IsFeature (Full False) n) : ∀ m ∈ n.surface, m.IsFlat := by
  obtain ⟨hfull, hrule⟩ := hn
  refine hrule.isFlat ?_ fun c hc => hc.isFlat
  obtain ⟨query, hk⟩ := hrule.kind
  rw [Node.IsFlat, hk]
  exact ⟨hrule.body_ne_nil (fun _ h => .inr (.inl h)) hfull,
    fun c hc => (hrule.forall_body c hc).kind⟩

/-- **Every statement of a flat stylesheet is flat**, outside animations and fonts. -/
theorem IsTop.isFlat (hn : IsTop (Full False) n) : ∀ m ∈ n.surface, m.IsFlat := by
  have inner : ∀ {n : Node}, IsInner (Full False) n → ∀ m ∈ n.surface, m.IsFlat := fun hn =>
    hn.elim IsCore.isFlat IsFeature.isFlat
  obtain hn | hn | ⟨hfull, hrule⟩ := hn
  · exact hn.isFlat
  · exact inner hn
  · refine hrule.isFlat ?_ fun c hc => inner hc
    obtain ⟨queries, hk, -⟩ := hrule.kind
    rw [Node.IsFlat, hk]
    refine ⟨hrule.body_ne_nil (fun _ h => .inr (.inr h)) hfull, fun c hc => ?_⟩
    obtain hc | hc := hrule.forall_body c hc
    · exact hc.kind.imp_right .inl
    · exact .inr (.inr hc.2.kind)

/-! ## Reduced stylesheets -/

/-- **A reduced stylesheet is flat, and nothing is left in it to reduce**, if no mixin is used under
a name that starts like the names in expansions. -/
theorem reduced_is_flat {source : Source} {profile : Profile} {sheet reduced : Sheet}
    (hp : Sheet.parse source = .ok sheet)
    (hn : CallsNamed (fun name => hasMark name = false) sheet.root)
    (h : sheet.reduce profile = .ok reduced) :
    (∀ n ∈ reduced.root.preorder, n.kind.isUnreduced = false) ∧
      ∀ n ∈ reduced.root.surface, n.IsFlat := by
  have hkind := (Sheet.reduce_isTop hp h).1
  rw [Sheet.reduce_eq] at h
  obtain ⟨evaluated, he, hf⟩ := bind_eq_ok.1 h
  obtain ⟨-, htop⟩ := Sheet.flatten_isTop (Sheet.evaluate_closed hp hn he) hf
  obtain ⟨⟨l, cs⟩, file, expansions⟩ := reduced
  have hl : l.kind = .sheet := Kind.eq_sheet hkind
  refine ⟨fun n hn => ?_, fun n hn => ?_⟩
  · obtain rfl | ⟨c, hc, hn⟩ := mem_preorder_mk.1 hn
    · rw [kind_mk, hl]
      rfl
    · exact (htop c hc).isSettled.1.reduced n hn
  · obtain ⟨-, rfl | ⟨c, hc, hn⟩⟩ := mem_surface_mk.1 hn
    · rw [Node.IsFlat, kind_mk, hl]
      trivial
    · exact (htop c hc).isFlat n hn

/-- A mixin in a query, and a rule in it that starts at the root again. -/
theorem reduced_is_flat_query :
    ∃ sheet reduced,
      Sheet.parse
          { text := "$m\x7bb:c;\x7da\x7b@media x\x7b$m();@root\x7bd\x7be:f;\x7d\x7d\x7d\x7d" } =
        .ok sheet ∧
      CallsNamed (fun name => hasMark name = false) sheet.root ∧
      sheet.reduce {} = .ok reduced ∧
      reduced.css {} = .ok "@media x\x7ba\x7bb:c;\x7dd\x7be:f;\x7d\x7d" ∧
      (∀ n ∈ reduced.root.preorder, n.kind.isUnreduced = false) ∧
        ∀ n ∈ reduced.root.surface, n.IsFlat := by
  let source : Source :=
    { text := "$m\x7bb:c;\x7da\x7b@media x\x7b$m();@root\x7bd\x7be:f;\x7d\x7d\x7d\x7d" }
  have hunmarked : (Sheet.parse source).map (fun sheet => sheet.root.callsUnmarked) = .ok true := by
    decide +kernel
  have hcompile : compile source {} {} = .ok "@media x\x7ba\x7bb:c;\x7dd\x7be:f;\x7d\x7d" := by
    decide +kernel
  obtain ⟨sheet, hp, hcompile⟩ := bind_eq_ok.1 hcompile
  obtain ⟨reduced, h, hcss⟩ := bind_eq_ok.1 hcompile
  have hn : CallsNamed (fun name => hasMark name = false) sheet.root := by
    rw [hp] at hunmarked
    exact callsUnmarked_iff.1 (Except.ok.inj hunmarked)
  exact ⟨sheet, reduced, hp, hn, h, hcss, reduced_is_flat hp hn h⟩

end Cascade
