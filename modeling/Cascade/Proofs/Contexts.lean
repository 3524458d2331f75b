import Cascade.Proofs.Emission
import Cascade.Proofs.Merging
import Cascade.Proofs.Routes

/-!
# Flattening keeps contexts

Flattening moves every rule to the top level.  This file shows that it loses no property, gives no
property twice, and changes for none of them the selectors and the queries under which it applies.
-/

set_option autoImplicit false

namespace Cascade

open Node List

variable {cs : List Node} {d : Descent} {n : Node} {found : List Lifted} {leaks : Prop}
  {xs : List (Node × Context)} {l : Label}

/-! ## What is looked for -/

/-- Whether nodes of the kind are containers that are lifted out. -/
def Kind.isLifted (kind : Kind) : Bool :=
  kind.isContainer && !kind.isDiscarded

theorem Kind.isLifted_iff {kind : Kind} :
    kind.isLifted = true ↔ kind.isContainer = true ∧ kind.isDiscarded = false := by
  simp [isLifted]

namespace Node

mutual

/-- The properties that a statement consists of: a property itself, and those of a block. -/
def ownProperties : Node → List Node
  | mk label children =>
    match label.kind with
    | .property .. => [mk label children]
    | .block => ownPropertiesAll children
    | _ => []

/-- The properties that several statements consist of. -/
def ownPropertiesAll : List Node → List Node
  | [] => []
  | node :: rest => ownProperties node ++ ownPropertiesAll rest

end

theorem ownPropertiesAll_eq_flatMap (ns : List Node) :
    ownPropertiesAll ns = ns.flatMap ownProperties := by
  induction ns with
  | nil => rfl
  | cons n ns ih => rw [ownPropertiesAll, ih, flatMap_cons]

/-- The properties of a rule, without those of the rules in it. -/
def ruleProperties (n : Node) : List Node :=
  n.body.flatMap ownProperties

end Node

theorem Node.ownProperties_property (h : l.kind.form = .property) :
    (mk l cs).ownProperties = [mk l cs] := by
  rw [ownProperties]
  unfold Kind.form at h
  split at h <;> simp_all

theorem Node.ownProperties_block (h : l.kind.form = .block) :
    (mk l cs).ownProperties = cs.flatMap ownProperties := by
  rw [ownProperties, Kind.eq_block h]
  exact ownPropertiesAll_eq_flatMap cs

theorem Node.ownProperties_eq_nil (hb : n.kind.form ≠ .block) (hp : n.kind.form ≠ .property) :
    n.ownProperties = [] := by
  obtain ⟨⟨kind, _, _, _, _⟩, cs⟩ := n
  rw [ownProperties]
  cases kind with
  | property => exact absurd rfl hp
  | block => exact absurd rfl hb
  | _ => rfl

theorem Kind.isProperty_iff {kind : Kind} : kind.isProperty = true ↔ kind.form = .property := by
  unfold form
  split <;> simp [isProperty]

/-- The properties of a container in its context.  Animations and fonts keep theirs. -/
def grouped (x : Node × Context) : List (Node × Context) :=
  if x.1.kind.isWhole then [] else x.1.ruleProperties.map fun property => (property, x.2)

/-! ## Before flattening -/

section Before

variable {file : Option String} {p : Kind → Bool}

/-- Statements that are no rules change nothing on the way down. -/
theorem Descent.enter_of_not_container (h : n.kind.isContainer = false) :
    d.enter file false n = .ok d := by
  unfold Descent.enter
  revert h
  cases n.kind <;> simp [Kind.isContainer]

theorem Descent.enter_of_isWhole (h : n.kind.isWhole = true) : d.enter file false n = .ok d := by
  unfold Descent.enter
  revert h
  cases n.kind <;> simp [Kind.isWhole]

theorem Descent.enter_of_isDiscarded (h : n.kind.isDiscarded = true) :
    d.enter file false n = .ok d := by
  unfold Descent.enter
  revert h
  cases n.kind with
  | mixin name selector dropped => cases selector <;> simp [Kind.isDiscarded]
  | _ => simp [Kind.isDiscarded]

theorem Node.containersAll_append_eq_ok {as bs : List Node}
    (h : containersAll file d (as ++ bs) = .ok found) :
    ∃ first rest, containersAll file d as = .ok first ∧ containersAll file d bs = .ok rest ∧
      found = first ++ rest := by
  induction as generalizing found with
  | nil => exact ⟨[], found, rfl, h, rfl⟩
  | cons a as ih =>
    rw [cons_append, containersAll] at h
    obtain ⟨first, hfirst, h⟩ := bind_eq_ok.1 h
    obtain ⟨rest, hrest, h⟩ := bind_eq_ok.1 h
    cases h
    obtain ⟨f, g, hf, hg, rfl⟩ := ih hrest
    refine ⟨first ++ f, g, ?_, hg, (append_assoc ..).symm⟩
    rw [containersAll, hfirst, hf]
    rfl

theorem perm_append_append {α : Type} (a b c e : List α) :
    ((a ++ b) ++ (c ++ e)).Perm ((a ++ c) ++ (b ++ e)) := by
  rw [append_assoc, append_assoc]
  exact (perm_append_comm_assoc b c e).append_left a

/-- A rule whose properties are found in its body once blocks have been dissolved. -/
def KeepsProperties (n : Node) : Prop :=
  n.dissolveBlocks.body.filter (fun m => m.kind.isProperty) = n.ruleProperties ∧
    ∀ m ∈ n.ruleProperties, m.dropEmpty = m

/-- What is known about the containers of statements before they are dissolved: `found` are those
that are lifted out, `xs` are the containers and `bs` the properties with their contexts, and `own`
are the properties of the statements themselves. -/
structure Accounted (d : Descent) (found : List Lifted) (own : List Node)
    (xs bs : List (Node × Context)) : Prop where
  lifted : found = xs.map fun x => ⟨x.1.dissolveBlocks, x.2⟩
  declared : bs.Perm ((own.map fun property => (property, d.context)) ++ xs.flatMap grouped)
  rules : ∀ x ∈ xs, x.1.kind.isWhole = false → KeepsProperties x.1

theorem Accounted.append {found' : List Lifted} {own own' : List Node}
    {xs' bs bs' : List (Node × Context)} (h : Accounted d found own xs bs)
    (h' : Accounted d found' own' xs' bs') :
    Accounted d (found ++ found') (own ++ own') (xs ++ xs') (bs ++ bs') := by
  refine ⟨by rw [h.lifted, h'.lifted, map_append], ?_,
    forall_mem_append.2 ⟨h.rules, h'.rules⟩⟩
  refine (h.declared.append h'.declared).trans ((perm_append_append ..).trans ?_)
  rw [flatMap_append, map_append]

/-- The containers and the properties of a statement with their contexts. -/
def Accounts (file : Option String) (n : Node) : Prop :=
  ∀ (d : Descent) {found : List Lifted},
    containersAll file d n.dissolved = .ok found →
    ∃ xs bs, n.under file Kind.isLifted d = .ok xs ∧ n.under file Kind.isProperty d = .ok bs ∧
      Accounted d found n.ownProperties xs bs

theorem Accounts.all (hcs : ∀ c ∈ cs, Accounts file c)
    (h : containersAll file d (dissolveBlocksAll cs) = .ok found) :
    ∃ xs bs, underAll file Kind.isLifted d cs = .ok xs ∧
      underAll file Kind.isProperty d cs = .ok bs ∧
      Accounted d found (cs.flatMap ownProperties) xs bs := by
  rw [dissolveBlocksAll_eq_flatMap] at h
  induction cs generalizing found with
  | nil =>
    cases h
    exact ⟨[], [], rfl, rfl, rfl, .refl _, by simp⟩
  | cons c cs ih =>
    obtain ⟨hc, hcs⟩ := forall_mem_cons.1 hcs
    rw [flatMap_cons] at h
    obtain ⟨first, rest, hfirst, hrest, rfl⟩ := containersAll_append_eq_ok h
    obtain ⟨xs, bs, hxs, hbs, hacc⟩ := hc d hfirst
    obtain ⟨ys, cs', hys, hcs', hacc'⟩ := ih hcs hrest
    rw [flatMap_cons]
    exact ⟨_, _, underAll_cons hxs hys, underAll_cons hbs hcs', hacc.append hacc'⟩

/-- A statement in which there are no containers and no properties. -/
theorem Accounts.of_nothing (hb : n.kind.form ≠ .block) (hp : n.kind.isPassage = false)
    (hprop : n.kind.isProperty = false)
    (hc : n.kind.isContainer = false ∨ n.kind.isDiscarded = true) : Accounts file n := by
  intro d found h
  have henter : d.enter file false n = .ok d := by
    obtain hc | hc := hc
    · exact Descent.enter_of_not_container hc
    · exact Descent.enter_of_isDiscarded hc
  have hlifted : n.kind.isLifted = false := by
    rcases hc with hc | hc <;> simp [Kind.isLifted, hc]
  have hfound : found = [] := by
    rw [dissolved_of_not_block hb, containersAll, containers_eq,
      kind_dissolveBlocks] at h
    rw [if_pos (by simpa using hc)] at h
    cases h
    rfl
  have hown : n.ownProperties = [] :=
    ownProperties_eq_nil hb fun h => by simp [Kind.isProperty_iff.2 h] at hprop
  refine ⟨[], [], ?_, ?_, ?_⟩
  · rw [under_of_not_passage henter hp, hlifted]
    rfl
  · rw [under_of_not_passage henter hp, hprop]
    rfl
  · rw [hfound, hown]
    exact ⟨rfl, .refl _, by simp⟩

theorem Node.underAll_params {ps : List Node} (hp : p .params = false)
    (hps : ∀ m ∈ ps, m.kind = .params) (hcs : underAll file p d cs = .ok xs) :
    underAll file p d (ps ++ cs) = .ok xs := by
  induction ps with
  | nil => exact hcs
  | cons m ps ih =>
    obtain ⟨hm, hps⟩ := forall_mem_cons.1 hps
    have hunder : m.under file p d = .ok [] := by
      rw [under_of_not_passage (Descent.enter_of_not_container (by rw [hm]; rfl)) (by rw [hm]; rfl),
        hm, hp]
      rfl
    exact underAll_cons hunder (ih hps)

/-- What is found in a rule is found in its body. -/
theorem Node.under_rule {lb : Label} {ps : List Node} {d' : Descent} (hblock : p .block = false)
    (hparams : p .params = false) (hk : lb.kind = .block) (hps : ∀ m ∈ ps, m.kind = .params)
    (hpassage : l.kind.isPassage = true)
    (henter : d.enter file false (.mk l (ps ++ [.mk lb cs])) = .ok d')
    (hcs : underAll file p d' cs = .ok xs) : (Node.mk l (ps ++ [.mk lb cs])).under file p d =
      .ok ((if p l.kind then [(.mk l (ps ++ [.mk lb cs]), d'.context)] else []) ++ xs) := by
  have hb : (Node.mk lb cs).under file p d' = .ok xs := by
    rw [under_of_passage (Descent.enter_of_not_container (by rw [kind_mk, hk]; rfl))
      (by rw [hk]; rfl) hcs, hk, hblock]
    rfl
  exact under_of_passage henter hpassage (underAll_params hparams hps (by
    rw [underAll_cons hb rfl, append_nil]))

/-- Statements among others are in no named place. -/
theorem Dissolves.map_plain (hcs : ∀ c ∈ cs, IsSettled (CallsAre leaks) c)
    (hm : ∀ c ∈ cs, IsMember c) :
    (dissolveBlocksAll cs).map plain = dissolveBlocksAll cs := by
  refine (map_congr_left fun m hmem => ?_).trans (map_id _)
  exact plain_eq (Dissolves.members (fun c hc => (hcs c hc).dissolves) hm m hmem).2.1

/-- Dissolving blocks keeps the properties of a statement. -/
theorem IsSettled.filter_dissolved (hn : IsSettled (CallsAre leaks) n) (hm : IsMember n) :
    n.dissolved.filter (fun m => m.kind.isProperty) = n.ownProperties ∧
      ∀ m ∈ n.ownProperties, m.dropEmpty = m := by
  have none : ∀ {n : Node}, n.kind.form ≠ .block → n.kind.form ≠ .property →
      n.dissolved.filter (fun m => m.kind.isProperty) = n.ownProperties ∧
        ∀ m ∈ n.ownProperties, m.dropEmpty = m := by
    intro n hb hp
    have hprop : n.dissolveBlocks.kind.isProperty = false := by
      rw [kind_dissolveBlocks]
      exact Bool.eq_false_iff.2 fun h => hp (Kind.isProperty_iff.1 h)
    rw [dissolved_of_not_block hb, ownProperties_eq_nil hb hp]
    simp [hprop]
  induction hn with
  | @property l v hok h hd hr hv =>
    have hb : (Node.mk l [v]).kind.form ≠ .block := by simp [h]
    have hparts : ∀ c ∈ (Node.mk l [v]).children, ∀ m ∈ c.preorder, m.kind.form.isPart = true :=
      forall_mem_singleton.2 hv.isPart
    have hprop : l.kind.isProperty = true := Kind.isProperty_iff.2 h
    rw [dissolved_of_not_block hb, dissolveBlocks_of_isPart hparts, ownProperties_property h]
    exact ⟨by simp [hprop], forall_mem_singleton.2 (dropEmpty_of_isPart hparts)⟩
  | @silent l cs hok h =>
    refine none ?_ ?_ <;> rcases Kind.isDiscarded_iff.1 h with h | h | h <;> simp [h]
  | @call l cs hok h => exact none (by simp [h]) (by simp [h])
  | @block l cs hok h hm' hcs ih =>
    rw [@Node.dissolved_of_block (.mk l cs) h hm.1, children_mk, Dissolves.map_plain hcs hm',
      ownProperties_block h, dissolveBlocksAll_eq_flatMap, filter_flatMap]
    refine ⟨flatMap_congr fun c hc => (ih c hc (hm' c hc)).1, fun m hmem => ?_⟩
    obtain ⟨c, hc, hmc⟩ := mem_flatMap.1 hmem
    exact (ih c hc (hm' c hc)).2 m hmc
  | @rule l lb cs hok h =>
    refine none ?_ ?_ <;> intro hf <;> rw [kind_mk] at hf <;> rw [hf] at h <;> cases h
  | extended hok h => exact none (by simp [h]) (by simp [h])

/-- Dissolving blocks keeps the properties of several statements. -/
theorem LeftAll.filter_dissolved (hcs : LeftAll (CallsAre leaks) cs) :
    (dissolveBlocksAll cs).filter (fun m => m.kind.isProperty) =
        cs.flatMap ownProperties ∧
      ∀ m ∈ cs.flatMap ownProperties, m.dropEmpty = m := by
  have hown := fun c hc => (hcs c hc).1.filter_dissolved (hcs c hc).2
  rw [dissolveBlocksAll_eq_flatMap, filter_flatMap]
  refine ⟨flatMap_congr fun c hc => (hown c hc).1, fun m hmem => ?_⟩
  obtain ⟨c, hc, hmc⟩ := mem_flatMap.1 hmem
  exact (hown c hc).2 m hmc

/-- What is found in a settled rule is found in its body. -/
theorem IsSettled.under_body {ok : Node → Prop} {d' : Descent} (hn : IsSettled ok n)
    (hlifted : n.kind.isLifted = true) (hpassage : n.kind.isPassage = true)
    (hblock : p .block = false) (hparams : p .params = false)
    (henter : d.enter file false n = .ok d') (hbody : underAll file p d' n.body = .ok xs) :
    n.under file p d = .ok ((if p n.kind then [(n, d'.context)] else []) ++ xs) := by
  obtain ⟨hc, hd⟩ := Kind.isLifted_iff.1 hlifted
  obtain ⟨l, ps, lb, cs, rfl, hps, hk, heq, -⟩ := hn.rule_cases hc hd
  exact under_rule hblock hparams hk hps hpassage henter (heq ▸ hbody)

/-- What is lifted out: the rule itself, and what is in its body.  Animations and fonts are lifted
out as they are. -/
theorem IsSettled.accounts_of_isLifted (hn : IsSettled (CallsAre leaks) n)
    (hlifted : n.kind.isLifted = true) (hbody : ∀ c ∈ n.body, IsMember c → Accounts file c) :
    Accounts file n := by
  intro d found h
  obtain ⟨hc, hk⟩ := Kind.isLifted_iff.1 hlifted
  have hkind : n.kind.form ≠ .block ∧ n.kind.isProperty = false ∧
      n.kind.isPassage = !n.kind.isWhole := by
    revert hc hk
    unfold Kind.form
    split <;> simp_all [Kind.isDiscarded, Kind.isContainer, Kind.isProperty, Kind.isPassage, Kind.isWhole]
  obtain ⟨hblock, hprop, hpassage⟩ := hkind
  have hown : n.ownProperties = [] :=
    ownProperties_eq_nil hblock fun h => by simp [Kind.isProperty_iff.2 h] at hprop
  rw [dissolved_of_not_block hblock, containersAll] at h
  obtain ⟨first, hfirst, h⟩ := bind_eq_ok.1 h
  cases h
  obtain ⟨hno, -⟩ | ⟨-, -, d', inner, henter, rfl, hinner⟩ := containers_eq_ok hfirst
  · simp [kind_dissolveBlocks, hc, hk] at hno
  rw [kind_dissolveBlocks, body_dissolveBlocks] at hinner
  replace henter : d.enter file false n = .ok d' :=
    Descent.enter_congr (kind_dissolveBlocks n) henter
  rw [hown, append_nil]
  obtain ⟨hwhole, rfl⟩ | ⟨hwhole, hinner⟩ := hinner
  · rw [hwhole] at hpassage
    refine ⟨_, _, under_of_not_passage henter hpassage, under_of_not_passage henter hpassage, ?_⟩
    rw [hlifted, hprop]
    exact ⟨rfl, by simp [grouped, hwhole], forall_mem_singleton.2 fun hw => by simp [hw] at hwhole⟩
  · rw [hwhole] at hpassage
    have hmembers := hn.body hc hk hwhole
    obtain ⟨xs, bs, hxs, hbs, hacc⟩ :=
      Accounts.all (fun c hc => hbody c hc (hmembers c hc).2) hinner
    refine ⟨_, _, hn.under_body hlifted hpassage rfl rfl henter hxs,
      hn.under_body hlifted hpassage rfl rfl henter hbs, ?_⟩
    rw [hlifted, hprop, hacc.lifted]
    refine ⟨rfl, ?_, forall_mem_cons.2 ⟨fun _ => ?_, hacc.rules⟩⟩
    · simpa [grouped, hwhole, ruleProperties] using hacc.declared
    · rw [KeepsProperties, body_dissolveBlocks]
      exact LeftAll.filter_dissolved hmembers

/-- **The containers and the properties of a settled statement with their contexts.** -/
theorem IsSettled.accounts (hn : IsSettled (CallsAre leaks) n) (hm : IsMember n) :
    Accounts file n := by
  induction hn with
  | @property l v hok h hd hr hv =>
    intro d found hfound
    have hkind : l.kind.isContainer = false ∧ l.kind.isPassage = false ∧
        l.kind.isProperty = true ∧ l.kind.form ≠ .block := by
      unfold Kind.form at h ⊢
      split at h <;> simp_all [Kind.isContainer, Kind.isPassage, Kind.isProperty]
    obtain ⟨hcont, hpassage, hprop, hblock⟩ := hkind
    have henter : d.enter file false (.mk l [v]) = .ok d := Descent.enter_of_not_container hcont
    rw [@Node.dissolved_of_not_block (.mk l [v]) hblock, containersAll, containers_eq,
      kind_dissolveBlocks, kind_mk, hcont] at hfound
    cases hfound
    refine ⟨_, _, under_of_not_passage henter hpassage,
      under_of_not_passage henter hpassage, ?_⟩
    rw [ownProperties_property h, kind_mk, Kind.isLifted, hcont, hprop]
    exact ⟨rfl, .refl _, by simp⟩
  | @silent l cs hok h =>
    refine .of_nothing ?_ ?_ ?_ (.inr h) <;> rw [kind_mk]
    · rcases Kind.isDiscarded_iff.1 h with h | h | h <;> simp [h]
    · unfold Kind.isDiscarded at h
      split at h <;> simp_all [Kind.isPassage]
    · revert h
      cases l.kind <;> simp [Kind.isDiscarded, Kind.isProperty]
  | @call l cs hok h =>
    obtain ⟨name, extend, hk⟩ := Kind.of_form h
    refine .of_nothing ?_ ?_ ?_ (.inl ?_) <;> rw [kind_mk, hk]
    · exact Form.noConfusion
    all_goals rfl
  | @block l cs hok h hm' hcs ih =>
    intro d found hfound
    have hk := Kind.eq_block h
    rw [@Node.dissolved_of_block (.mk l cs) h hm.1, children_mk, Dissolves.map_plain hcs hm']
      at hfound
    obtain ⟨xs, bs, hxs, hbs, hacc⟩ := Accounts.all (fun c hc => ih c hc (hm' c hc)) hfound
    have henter : d.enter file false (.mk l cs) = .ok d :=
      Descent.enter_of_not_container (by rw [kind_mk, hk]; rfl)
    refine ⟨xs, bs, ?_, ?_, ownProperties_block h ▸ hacc⟩ <;>
      rw [under_of_passage henter (by rw [hk]; rfl) (by assumption), hk] <;> rfl
  | @rule l lb cs hok h hd hk hr hm' hcs ih =>
    refine IsSettled.accounts_of_isLifted (.rule hok h hd hk hr hm' hcs) ?_ (body_rule hr ▸ ih)
    have hframe := hm.2
    rw [kind_mk] at hframe ⊢
    unfold Kind.form at h hframe
    split at h <;> simp_all [Form.isRule, Kind.isLifted, Kind.isContainer, Kind.isDiscarded]
  | @extended l lp lb cs hok h hkp hrp hk hr hm' hcs ih =>
    refine IsSettled.accounts_of_isLifted (.extended hok h hkp hrp hk hr hm' hcs) ?_
      (body_extended hrp hr ▸ ih)
    rw [kind_mk]
    unfold Kind.form at h
    split at h <;> simp_all [Kind.isLifted, Kind.isContainer, Kind.isDiscarded]

end Before

end Cascade
