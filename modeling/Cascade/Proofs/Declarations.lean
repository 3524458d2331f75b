import Cascade.Proofs.Contexts

/-!
# Flattening keeps declarations

Flattening moves every rule to the top level.  It loses no property, gives no property twice, and
changes for none of them the selectors and the queries under which it applies.  `Contexts` says what
is found in a stylesheet before flattening; here every step of flattening is shown to keep what is
found.
-/

set_option autoImplicit false

namespace Cascade

open Node List

variable {xs : List (Node × Context)} {n : Node} {ns cs : List Node} {d : Descent} {kind : Kind}
  {sheet : Sheet} (c : Context)

/-! ## What is looked for -/

/-- Selections of properties, animations and fonts. -/
def SelectsLeaves (p : Kind → Bool) : Prop :=
  ∀ kind, p kind = true → kind.isWhole = true ∨ kind.isProperty = true

theorem selectsLeaves_isProperty : SelectsLeaves Kind.isProperty := fun _ => .inr

theorem selectsLeaves_isWhole : SelectsLeaves Kind.isWhole := fun _ => .inl

section Leaves

variable {file : Option String} {p : Kind → Bool} {around : List Kind}

theorem SelectsLeaves.eq_false (hp : SelectsLeaves p)
    (h : kind.isPassage = true ∨ kind.isDiscarded = true) : p kind = false := by
  refine Bool.eq_false_iff.2 fun hsel => ?_
  have hleaf := hp kind hsel
  revert h hleaf
  cases kind <;> simp [Kind.isPassage, Kind.isDiscarded, Kind.isWhole, Kind.isProperty]

theorem SelectsLeaves.seeks (hp : SelectsLeaves p) : Seeks p Kind.isPassage := by
  refine ⟨⟨hp.eq_false (.inl rfl), rfl⟩, fun kind h => ?_⟩
  have hpass : kind.isPassage = true := by
    revert h
    cases kind <;> simp [Kind.sameRule, Kind.isPassage]
  exact ⟨hp.eq_false (.inl hpass), hpass⟩

/-- A node below which nothing is reached. -/
theorem Node.cascade_of_not_passage (h : n.kind.isPassage = false) :
    n.cascade p Kind.isPassage around = if p n.kind then [(around, n)] else [] := by
  obtain ⟨l, cs⟩ := n
  have hrule : l.kind.rule? = none := by
    revert h
    rw [kind_mk]
    cases l.kind <;> simp [Kind.isPassage, Kind.rule?]
  rw [kind_mk] at h
  rw [cascade, hrule, h, Option.toList_none, append_nil]
  exact append_nil _

theorem Node.cascadeAll_leaves (hns : ∀ n ∈ ns, n.kind.isPassage = false) :
    cascadeAll p Kind.isPassage around ns =
      (ns.filter fun n => p n.kind).map fun n => (around, n) := by
  induction ns with
  | nil => rfl
  | cons n ns ih =>
    obtain ⟨hn, hns⟩ := forall_mem_cons.1 hns
    rw [cascadeAll, cascade_of_not_passage hn, ih hns, filter_cons]
    cases p n.kind <;> rfl

theorem Heading.sameRule (h : Heading kind) : kind.sameRule kind = true := by
  rcases h with ⟨_, rfl, -⟩ | ⟨_, rfl⟩ | ⟨_, rfl, -⟩ <;> simp [Kind.sameRule]

/-! ## Removing what is empty -/

variable {leaks : Prop}

/-- What is found in a statement once what is empty has been removed from it. -/
def Drops (p : Kind → Bool) (n : Node) : Prop :=
  ∀ around, cascadeAll p Kind.isPassage around (dropEmptyAll [n]) =
    (n.cascade p Kind.isPassage around).map (Prod.map id dropEmpty)

theorem Drops.all (hns : ∀ n ∈ ns, Drops p n) (around : List Kind) :
    cascadeAll p Kind.isPassage around (dropEmptyAll ns) =
      (cascadeAll p Kind.isPassage around ns).map (Prod.map id dropEmpty) := by
  induction ns with
  | nil => rfl
  | cons n ns ih =>
    obtain ⟨hn, hns⟩ := forall_mem_cons.1 hns
    have hsplit : dropEmptyAll (n :: ns) = dropEmptyAll [n] ++ dropEmptyAll ns := by
      simp only [dropEmptyAll_eq_filter, ← filter_append, ← map_append,
        singleton_append]
    rw [hsplit, cascadeAll_append, hn, ih hns, cascadeAll, map_append]

theorem Drops.of_not_passage (hp : SelectsLeaves p) (h : n.kind.isPassage = false) : Drops p n := by
  intro around
  rw [dropEmptyAll_eq_filter, map_singleton, filter_singleton, cascade_of_not_passage h]
  have hkind := n.kind_dropEmpty
  cases hkept : n.dropEmpty.isKept with
  | true =>
    rw [cond_true, cascadeAll, cascade_of_not_passage (hkind ▸ h), hkind]
    cases p n.kind <;> rfl
  | false =>
    have hdiscarded : n.kind.isDiscarded = true := by
      rw [isKept, isEmptyRule, hkind] at hkept
      revert hkept h
      cases n.kind with
      | mixin _ s _ => cases s <;> simp [Kind.isPassage, Kind.isDiscarded]
      | _ => simp [Kind.isPassage]
    rw [hp.eq_false (.inr hdiscarded)]
    rfl

/-- Removing what is empty from a rule. -/
theorem RuleOf.drops (hp : SelectsLeaves p) {P : Node → Prop} (hn : RuleOf Heading P n)
    (hP : ∀ c, P c → Drops p c) : Drops p n := by
  intro around
  cases hn with
  | @mk l lb cs hl hrel hb hr hcs =>
    rw [dropEmptyAll_eq_filter, map_singleton, filter_singleton, dropEmpty_rule hb,
      cascade_rule hp.seeks hl.sameRule hb, ← Drops.all fun c hc => hP c (hcs c hc)]
    cases hkept : (Node.mk l [.mk lb (dropEmptyAll cs)]).isKept with
    | true =>
      rw [cond_true, cascadeAll, cascade_rule hp.seeks hl.sameRule hb, cascadeAll, append_nil]
    | false =>
      -- Nothing is left in the rule, so nothing was found in it.
      have hempty : dropEmptyAll cs = [] := by
        by_contra hne
        have hfull : Full True (.mk l [.mk lb (dropEmptyAll cs)]) := (full_rule hl hr).2 hne
        rw [hfull.2] at hkept
        cases hkept
      rw [hempty]
      rfl

theorem IsDeclaration.not_isPassage (hn : IsDeclaration (Unblocked leaks) n) :
    n.kind.isPassage = false := by
  obtain ⟨hs, -, hcont⟩ := hn
  have hb := hs.self.2
  have hsheet : n.kind.form ≠ .sheet := by
    intro hf
    cases hs with
    | silent hok h => rcases Kind.isDiscarded_iff.1 h with h | h | h <;> simp [h] at hf
    | rule hok h =>
      rw [kind_mk] at hf
      rw [hf] at h
      cases h
    | property hok h | call hok h | block hok h | extended hok h => simp [h] at hf
  revert hcont hb hsheet
  cases n.kind <;> simp [Kind.isPassage, Kind.isContainer, Kind.form]

theorem Kind.not_isPassage_of_isWhole (h : kind.isWhole = true) : kind.isPassage = false := by
  cases kind with
  | keyframes | fontFace => rfl
  | _ => cases h

/-- **Removing what is empty** from a statement of a flat stylesheet keeps what is found in it. -/
theorem IsTop.drops (hp : SelectsLeaves p) (hn : IsTop (Unblocked leaks) n) : Drops p n := by
  have declaration : ∀ c, IsDeclaration (Unblocked leaks) c → Drops p c := fun c hc =>
    .of_not_passage hp hc.not_isPassage
  have core : ∀ c, IsCore (Unblocked leaks) c → Drops p c := by
    rintro c ⟨-, hstyle | hw⟩
    · exact (hstyle.heading_mono fun _ => .inl).drops hp declaration
    · exact .of_not_passage hp (Kind.not_isPassage_of_isWhole hw.1)
  have inner : ∀ c, IsInner (Unblocked leaks) c → Drops p c := by
    rintro c (hc | hf)
    · exact core c hc
    · exact (hf.2.heading_mono fun _ h => .inr (.inl h)).drops hp core
  obtain hd | hi | hm := hn
  · exact declaration n hd
  · exact inner n hi
  · exact (hm.2.heading_mono fun _ h => .inr (.inr h)).drops hp inner

/-! ## Contexts in a flat stylesheet -/

/-- The context inside one more rule of a flat stylesheet. -/
def Context.within (c : Context) : Kind → Context
  | .selector names _ => { c with selectors := names }
  | .media queries _ => { c with media := queries }
  | .supports query => { c with supports := [query] }
  | _ => c

/-- What is found in a flat stylesheet, in its context. -/
def inContext (x : List Kind × Node) : Node × Context :=
  (x.2, x.1.foldl Context.within {})

/-- The statements of a flat stylesheet inside some rules are found in the context of these. -/
def Placed (file : Option String) (p : Kind → Bool) (d : Descent) (around : List Kind) (n : Node) :
    Prop :=
  n.under file p d = .ok ((n.cascade p Kind.isPassage around).map inContext)

theorem Placed.all (h : ∀ n ∈ ns, Placed file p d around n) :
    underAll file p d ns = .ok ((cascadeAll p Kind.isPassage around ns).map inContext) := by
  induction ns with
  | nil => rfl
  | cons n ns ih =>
    obtain ⟨hn, hns⟩ := forall_mem_cons.1 h
    rw [underAll_cons hn (ih hns), cascadeAll, map_append]

theorem Placed.of_leaf (hd : d.context = around.foldl Context.within {})
    (h : n.kind.isPassage = false) (henter : d.enter file false n = .ok d) :
    Placed file p d around n := by
  rw [Placed, under_of_not_passage henter h, cascade_of_not_passage h, hd]
  cases p n.kind <;> rfl

theorem Placed.of_rule (hp : SelectsLeaves p) {P : Node → Prop} {d' : Descent}
    (hn : RuleOf Heading P n) (henter : d.enter file false n = .ok d')
    (hP : ∀ c, P c → Placed file p d' (around ++ n.kind.rule?.toList) c) :
    Placed file p d around n := by
  cases hn with
  | @mk l lb cs hl hrel hb hr hcs =>
    obtain ⟨hsel, hpass⟩ := hp.seeks.rule _ hl.sameRule
    have hparams : p .params = false :=
      Bool.eq_false_iff.2 fun h => by simpa [Kind.isWhole, Kind.isProperty] using hp _ h
    have hrule : (Node.mk l ([] ++ [.mk lb cs])).under file p d = _ :=
      under_rule hp.seeks.block.1 hparams hb (by simp) hpass henter
        (Placed.all fun c hc => hP c (hcs c hc))
    rw [Placed, cascade_rule hp.seeks hl.sameRule hb]
    rwa [hsel] at hrule

section Layers

variable {ok : Node → Prop} (hok : ∀ m, ok m → Unblocked leaks m)

include hok

section

variable (hd : d.context = around.foldl Context.within {})

include hd

theorem IsDeclaration.placed (hn : IsDeclaration ok n) : Placed file p d around n := by
  have hdecl : IsDeclaration (Unblocked leaks) n := ⟨hn.1.mono hok, hn.2⟩
  exact .of_leaf hd hdecl.not_isPassage (Descent.enter_of_not_container hn.2.2)

theorem IsCore.placed (hp : SelectsLeaves p) (hn : IsCore ok n)
    (hselectors : d.context.selectors = []) : Placed file p d around n := by
  obtain ⟨-, hrule | ⟨hw, -⟩⟩ := hn
  · obtain ⟨names, hk, -, hstandalone⟩ := hrule.kind
    refine .of_rule hp (hrule.heading_mono fun _ => .inl)
      (Descent.enter_written hk hselectors hstandalone) fun c hc => hc.placed hok ?_
    rw [foldl_append, ← hd, hk]
    rfl
  · exact .of_leaf hd (Kind.not_isPassage_of_isWhole hw) (Descent.enter_of_isWhole hw)

theorem IsInner.placed (hp : SelectsLeaves p) (hn : IsInner ok n)
    (hselectors : d.context.selectors = []) (hsupports : d.context.supports = []) :
    Placed file p d around n := by
  obtain hcore | hfeature := hn
  · exact hcore.placed hok hd hp hselectors
  · obtain ⟨query, hk⟩ := hfeature.2.kind
    have henter : d.enter file false n =
        .ok { d with context := { d.context with supports := [query] } } := by
      simp [Descent.enter, hk, hsupports]
    refine .of_rule hp (hfeature.2.heading_mono fun _ h => .inr (.inl h)) henter fun c hc =>
      hc.placed hok ?_ hp hselectors
    rw [foldl_append, ← hd, hk]
    rfl

end

/-- **What is found in a flat stylesheet**, in its context. -/
theorem IsTop.placed (hp : SelectsLeaves p) (hn : IsTop ok n) : Placed file p {} [] n := by
  obtain hdecl | hinner | hmedia := hn
  · exact hdecl.placed hok rfl
  · exact hinner.placed hok rfl hp rfl rfl
  · obtain ⟨queries, hk, -⟩ := hmedia.2.kind
    have henter : Descent.enter file false {} n = .ok { context := { media := queries } } := by
      simp [Descent.enter, hk, combineMedia]
    refine .of_rule hp (hmedia.2.heading_mono fun _ h => .inr (.inr h)) henter fun c hc =>
      hc.placed hok ?_ hp rfl rfl
    rw [hk]
    rfl

end Layers

/-! ## Lifting rules out -/

/-- The context inside the queries that are put around a lifted rule. -/
def Context.queries (c : Context) : Context :=
  { media := c.media, supports := c.supportsQuery.toList }

/-- The queries that are put around a lifted rule. -/
def Context.rules (c : Context) : List Kind :=
  (if c.media.isEmpty then [] else [.media c.media []]) ++ c.supportsQuery.toList.map Kind.supports

theorem Context.within_rules : c.rules.foldl within {} = c.queries := by
  unfold rules queries
  cases hmedia : c.media <;> cases c.supportsQuery <;> rfl

theorem Node.cascade_enclosed (hp : SelectsLeaves p) (hk : kind.sameRule kind = true) :
    (n.enclosed kind).cascade p Kind.isPassage around =
      n.cascade p Kind.isPassage (around ++ kind.rule?.toList) :=
  (cascade_rule hp.seeks hk rfl).trans (append_nil _)

/-- What is found in a rule inside the queries of its context. -/
theorem Context.cascade_wrap (hp : SelectsLeaves p) (c : Context) (n : Node) :
    (c.wrap n).cascade p Kind.isPassage [] = n.cascade p Kind.isPassage c.rules := by
  unfold wrap rules
  cases c.supportsQuery <;> split_ifs <;>
    simp [cascade_enclosed hp, Kind.sameRule, Kind.rule?]

/-- What is found in the rule that stands for a container. -/
def Lifted.leaves (p : Kind → Bool) (x : Lifted) : List (Node × Context) :=
  if x.node.kind.isWhole then
    if p x.node.kind then [(x.node, x.context.queries)] else []
  else if x.context.selectors.isEmpty then []
  else (x.statements.filter fun m => p m.kind).map fun m =>
    (m, { x.context.queries with selectors := x.context.selectors })

/-- **Lifting a container out** keeps what is found in it. -/
theorem Liftable.cascade_rule? (hp : SelectsLeaves p) {x : Lifted} (hx : Liftable leaks x) :
    (cascadeAll p Kind.isPassage [] (x.rule?.map x.context.wrap).toList).map inContext =
      x.leaves p := by
  have hwrap (n : Node) : cascadeAll p Kind.isPassage [] [x.context.wrap n] =
      n.cascade p Kind.isPassage x.context.rules :=
    (append_nil _).trans (x.context.cascade_wrap hp n)
  unfold Lifted.leaves
  obtain ⟨hwhole, hrule⟩ | ⟨hwhole, hnone, hrule⟩ | ⟨hwhole, hsel, hrule⟩ := x.rule?_cases <;>
    rw [hrule, hwhole]
  · refine (congrArg _ (hwrap _)).trans ?_
    rw [cascade_of_not_passage (Kind.not_isPassage_of_isWhole hwhole), ← x.context.within_rules]
    cases p x.node.kind <;> rfl
  · rcases hnone with h | h <;> simp [h, cascadeAll]
  · refine (congrArg _ ((hwrap _).trans (cascade_rule hp.seeks ?_ rfl))).trans ?_
    · simp [Kind.sameRule]
    · rw [show (make Kind.block x.node.line x.statements).children = x.statements from rfl,
        cascadeAll_leaves fun m hm => (hx.statements hwhole m hm).not_isPassage,
        isEmpty_eq_false_iff.2 hsel, map_map, ← x.context.within_rules]
      exact map_congr_left fun m _ => by simp [inContext, Kind.rule?, Context.within]

/-- What is found in the rules that stand for several containers. -/
theorem Liftable.cascadeAll_filterMap (hp : SelectsLeaves p) {xs : List Lifted}
    (hxs : ∀ x ∈ xs, Liftable leaks x) :
    (cascadeAll p Kind.isPassage [] (xs.filterMap fun x => x.rule?.map x.context.wrap)).map
      inContext = xs.flatMap (Lifted.leaves p) := by
  induction xs with
  | nil => rfl
  | cons x xs ih =>
    obtain ⟨hx, hxs⟩ := forall_mem_cons.1 hxs
    have hsplit : (x :: xs).filterMap (fun x => x.rule?.map x.context.wrap) =
        (x.rule?.map x.context.wrap).toList ++
          xs.filterMap fun x => x.rule?.map x.context.wrap := by
      rw [filterMap_cons]
      cases x.rule? <;> rfl
    rw [hsplit, cascadeAll_append, map_append, hx.cascade_rule? hp, ih hxs, flatMap_cons]

/-- A node in no rule. -/
def loose (n : Node) : Node × Context :=
  (n, {})

/-- Whether a node applies under some selector. -/
def hasSelectors (x : Node × Context) : Bool :=
  !x.2.selectors.isEmpty

/-- What is found in the statements that several statements become: the statements that are no
containers, and what is found in the containers, in an order that is the same for all that is looked
for. -/
theorem cascadeAll_lift {lifted : List (List Node)}
    (hns : ∀ n ∈ ns, IsSettled (Unblocked leaks) n ∧ IsMember n)
    (h : ns.mapM (lift file) = .ok lifted) :
    ∃ found order : List Lifted, containersAll file {} ns = .ok found ∧ order.Perm found ∧
      ∀ {p : Kind → Bool}, SelectsLeaves p →
        let ys := (cascadeAll p Kind.isPassage [] lifted.flatten).map inContext
        ys.Perm (((ns.filter fun n => !n.kind.isContainer && p n.kind).map loose) ++
            order.flatMap (Lifted.leaves p)) ∧
          ys.filter hasSelectors = (order.flatMap (Lifted.leaves p)).filter hasSelectors := by
  have hall := mapM_eq_ok h
  clear h
  induction hall with
  | nil => exact ⟨[], [], rfl, .refl _, fun _ => ⟨.refl _, rfl⟩⟩
  | @cons n ms ns lifted hn _ ih =>
    obtain ⟨⟨hs, hm⟩, hns⟩ := forall_mem_cons.1 hns
    obtain ⟨rest, order, hrest, hperm, hfound⟩ := ih hns
    have all : ∀ {first : List Lifted}, n.containers file {} = .ok first →
        containersAll file {} (n :: ns) = .ok (first ++ rest) := by
      intro first hfirst
      rw [containersAll, hfirst, hrest]
      rfl
    simp only [flatten_cons, cascadeAll_append, map_append]
    obtain ⟨hd, rfl⟩ | ⟨-, hc, rfl⟩ | ⟨-, hc, found, hcontainers, rfl⟩ := lift_eq_ok hn
    · have hnone : n.containers file {} = .ok [] := by
        rw [containers_eq, hd, Bool.or_true]
        rfl
      refine ⟨_, order, all hnone, hperm, fun hp => ?_⟩
      rw [filter_cons, hp.eq_false (.inr hd), Bool.and_false]
      exact hfound hp
    · have hnone : n.containers file {} = .ok [] := by
        rw [containers_eq, hc]
        rfl
      refine ⟨_, order, all hnone, hperm, fun {p} hp => ?_⟩
      obtain ⟨hyperm, hyfilter⟩ := hfound hp
      have hleaf : IsDeclaration (Unblocked leaks) n := ⟨hs, hm, hc⟩
      rw [cascadeAll_leaves (forall_mem_singleton.2 hleaf.not_isPassage), filter_cons, filter_cons, hc]
      cases p n.kind with
      | false => exact ⟨hyperm, hyfilter⟩
      | true => exact ⟨hyperm.cons _, hyfilter⟩
    · have hliftable := hs.containers_liftable hm.1 (by simp [Standalone]) hcontainers
      refine ⟨_, mixinsFirst found ++ order, all hcontainers, (mixinsFirst_perm found).append hperm,
        fun hp => ?_⟩
      obtain ⟨hyperm, hyfilter⟩ := hfound hp
      have hfirst : ∀ x ∈ mixinsFirst found, Liftable leaks x := fun x hx =>
        hliftable x ((mixinsFirst_perm found).mem_iff.1 hx)
      rw [Liftable.cascadeAll_filterMap hp hfirst, flatMap_append]
      refine ⟨?_, by rw [filter_append, hyfilter, filter_append]⟩
      rw [filter_cons, hc]
      exact (hyperm.append_left _).trans (perm_append_comm_assoc ..)

end Leaves

/-! ## All steps -/

theorem exists_perm_of_perm_map {α β : Type} {f : α → β} {xs : List α} {ys : List β}
    (h : ys.Perm (xs.map f)) : ∃ zs : List α, zs.Perm xs ∧ ys = zs.map f := by
  have hrel : List.Forall₂ (fun y x => y = f x) (xs.map f) xs :=
    forall₂_map_left_iff.2 (forall₂_same.2 fun _ _ => rfl)
  obtain ⟨zs, hzs, hperm⟩ := perm_comp_forall₂ h hrel
  have heq : List.Forall₂ Eq ys (zs.map f) := forall₂_map_right_iff.2 hzs
  rw [forall₂_eq_eq_eq] at heq
  exact ⟨zs, hperm, heq⟩

/-- What is found in a stylesheet is found in its statements. -/
theorem Sheet.located_of_underAll {p : Kind → Bool} (hk : sheet.root.kind = .sheet)
    (hp : p .sheet = false) (h : underAll sheet.file p {} sheet.root.children = .ok xs) :
    sheet.located p = .ok xs := by
  obtain ⟨⟨l, cs⟩, file, expansions⟩ := sheet
  have hl : l.kind = .sheet := hk
  have henter : Descent.enter file false {} (.mk l cs) = .ok {} :=
    Descent.enter_of_not_container (by rw [kind_mk, hl]; rfl)
  have hunder := under_of_passage henter (by rw [hl]; rfl) h
  rw [hl, hp] at hunder
  exact located_of_under rfl hunder

/-- The properties of a stylesheet that are in no container. -/
def Sheet.looseProperties (sheet : Sheet) : List Node :=
  sheet.root.children.flatMap ownProperties

/-- A node in its context, with what is empty removed from it. -/
def dropped (x : Node × Context) : Node × Context :=
  (x.1.dropEmpty, x.2)

/-- What is found in a container once it has been lifted out. -/
def leavesOf (p : Kind → Bool) (x : Node × Context) : List (Node × Context) :=
  Lifted.leaves p ⟨x.1.dissolveBlocks, x.2⟩

/-- **What is found in a flattened stylesheet** is what was found before outside containers, and
what was found in the containers, in some order. -/
theorem Sheet.flatten_located {leaks : Prop} {flat : Sheet} (hk : sheet.root.kind = .sheet)
    (hs : LeftAll (CallsAre leaks) sheet.root.children) (h : sheet.flatten = .ok flat) :
    ∃ containers declared order : List (Node × Context),
      sheet.located Kind.isLifted = .ok containers ∧
      sheet.located Kind.isProperty = .ok declared ∧
      declared.Perm ((sheet.looseProperties.map loose) ++ containers.flatMap grouped) ∧
      (∀ x ∈ containers, x.1.kind.isWhole = false → KeepsProperties x.1) ∧
      order.Perm containers ∧
      ∀ {p : Kind → Bool}, SelectsLeaves p →
        ∃ ys : List (Node × Context), flat.located p = .ok (ys.map dropped) ∧
          ys.Perm ((((dissolveBlocksAll sheet.root.children).filter fun n =>
              !n.kind.isContainer && p n.kind).map loose) ++
            order.flatMap (leavesOf p)) ∧
          ys.filter hasSelectors = (order.flatMap (leavesOf p)).filter hasSelectors := by
  obtain ⟨lifted, hlifted, htop, rfl⟩ := Sheet.flatten_eq_ok hs h
  have hdissolved := Dissolves.members (fun c hc => (hs c hc).1.dissolves) fun c hc => (hs c hc).2
  obtain ⟨found, lifts, hfound, hperm, hcascade⟩ := cascadeAll_lift hdissolved hlifted
  obtain ⟨containers, declared, hcontainers, hdeclared, hacc⟩ :=
    Accounts.all (fun c hc => (hs c hc).1.accounts (hs c hc).2) hfound
  rw [hacc.lifted] at hperm
  obtain ⟨order, horder, rfl⟩ := exists_perm_of_perm_map hperm
  refine ⟨containers, declared, order, Sheet.located_of_underAll hk rfl hcontainers,
    Sheet.located_of_underAll hk rfl hdeclared, hacc.declared, hacc.rules, horder, fun {p} hp => ?_⟩
  obtain ⟨hyperm, hyfilter⟩ := hcascade hp
  rw [flatMap_map] at hyperm hyfilter
  refine ⟨_, Sheet.located_of_underAll hk (hp.eq_false (.inl rfl)) ?_, hyperm, hyfilter⟩
  have hfull := IsTop.dropEmptyAll htop
  refine (Placed.all fun n hn =>
    (isLayer_isTop.mergeWithin hfull n hn).placed (fun _ h => h.1) hp).trans ?_
  rw [(mergeWithin_lifted sheet.root.label hlifted).2 hp.seeks,
    Drops.all fun n hn => (htop n hn).drops hp, map_map, map_map]
  rfl

/-! ## What leaves no trace -/

/-- Nothing in the tree leaves no trace. -/
def Traced (n : Node) : Prop :=
  ∀ m ∈ n.preorder, m.kind.isDiscarded = false

theorem traced_mk {l : Label} :
    Traced (.mk l cs) ↔ l.kind.isDiscarded = false ∧ ∀ c ∈ cs, Traced c :=
  forall_mem_preorder

theorem Node.not_isDiscarded_of_isKept (h : n.dropEmpty.isKept = true) :
    n.kind.isDiscarded = false := by
  rw [isKept, kind_dropEmpty] at h
  revert h
  cases n.kind.isDiscarded <;> simp

theorem Node.dropEmpty_traced (h : n.kind.isDiscarded = false) : Traced n.dropEmpty := by
  induction n using ind with
  | mk l cs ih =>
    exact traced_mk.2 ⟨h, forall_mem_dropEmptyAll fun c hc hkept =>
      ih c hc (not_isDiscarded_of_isKept hkept)⟩

/-- There is nothing that leaves no trace to be found. -/
theorem cascade_eq_nil_iff {around : List Kind} :
    n.cascade Kind.isDiscarded (fun _ => true) around = [] ↔ Traced n := by
  induction n using ind generalizing around with
  | mk l cs ih =>
    rw [cascade, traced_mk, append_eq_nil_iff, if_pos rfl, cascadeAll_eq_flatMap, flatMap_eq_nil_iff]
    refine and_congr (by simp) (forall₂_congr fun c hc => ih c hc)

theorem seeks_isDiscarded : Seeks Kind.isDiscarded fun _ => true :=
  ⟨⟨rfl, rfl⟩, fun kind h => by cases kind <;> simp_all [Kind.sameRule, Kind.isDiscarded]⟩

/-- Flattening removes what leaves no trace. -/
theorem Sheet.flatten_traced {leaks : Prop} {flat : Sheet} (hk : sheet.root.kind = .sheet)
    (hs : LeftAll (CallsAre leaks) sheet.root.children) (h : sheet.flatten = .ok flat) :
    Traced flat.root := by
  obtain ⟨lifted, hlifted, -, rfl⟩ := Sheet.flatten_eq_ok hs h
  have hkind : sheet.root.label.kind = .sheet := hk
  have hns : ∀ n ∈ dropEmptyAll lifted.flatten, Traced n :=
    forall_mem_dropEmptyAll fun c _ hkept => dropEmpty_traced (not_isDiscarded_of_isKept hkept)
  have hmerge := (mergeWithin_lifted sheet.root.label hlifted).2 seeks_isDiscarded []
  simp only [cascadeAll_eq_flatMap] at hmerge
  rw [flatMap_eq_nil_iff.2 fun n hn => cascade_eq_nil_iff.2 (hns n hn), flatMap_eq_nil_iff] at hmerge
  exact traced_mk.2 ⟨by rw [hkind]; rfl, fun n hn => cascade_eq_nil_iff.1 (hmerge n hn)⟩

/-! ## Declarations -/

/-- A node, and the selectors and queries under which it applies. -/
def applied (x : Node × Context) : Node × List String × List String × Option String :=
  (x.1, x.2.selectors, x.2.media, x.2.supportsQuery)

/-- A node, and the queries under which it applies. -/
def queried (x : Node × Context) : Node × List String × Option String :=
  (x.1, x.2.media, x.2.supportsQuery)

theorem Context.supportsQuery_queries : c.queries.supportsQuery = c.supportsQuery := by
  unfold queries
  cases h : c.supportsQuery <;> rfl

/-- A node in its context once it has been lifted out. -/
def written (x : Node × Context) : Node × Context :=
  (x.1, { x.2.queries with selectors := x.2.selectors })

theorem applied_written (x : Node × Context) : applied (written x) = applied x := by
  show (x.1, x.2.selectors, x.2.media, x.2.queries.supportsQuery) = _
  rw [Context.supportsQuery_queries]
  rfl

/-- The properties of a container are in its context. -/
theorem context_of_mem_grouped {x y : Node × Context} (hy : y ∈ grouped x) : y.2 = x.2 := by
  rw [grouped] at hy
  split at hy
  · cases hy
  · obtain ⟨m, -, rfl⟩ := mem_map.1 hy
    rfl

theorem flatMap_ite_nil {α β : Type} (c : α → Bool) (f : α → List β) (l : List α) :
    l.flatMap (fun x => if c x then f x else []) = (l.filter c).flatMap f := by
  induction l with
  | nil => rfl
  | cons x l ih => cases h : c x <;> simp [h, ih]

/-- The properties of containers with selectors are those that have selectors. -/
theorem filter_flatMap_grouped (xs : List (Node × Context)) :
    (xs.flatMap grouped).filter hasSelectors = (xs.filter hasSelectors).flatMap grouped := by
  rw [filter_flatMap, ← flatMap_ite_nil]
  refine flatMap_congr fun x _ => ?_
  have hsame : ∀ y ∈ grouped x, hasSelectors y = hasSelectors x := fun y hy => by
    rw [hasSelectors, context_of_mem_grouped hy, hasSelectors]
  cases hsel : hasSelectors x with
  | true => exact filter_eq_self.2 fun y hy => by rw [hsame y hy, hsel]
  | false => exact filter_eq_nil_iff.2 fun y hy => by simp [hsame y hy, hsel]

/-- What becomes of the properties of a container. -/
theorem leavesOf_isProperty {x : Node × Context}
    (hx : x.1.kind.isWhole = false → KeepsProperties x.1) :
    leavesOf Kind.isProperty x = if hasSelectors x then (grouped x).map written else [] := by
  unfold leavesOf Lifted.leaves grouped
  cases hwhole : x.1.kind.isWhole with
  | true =>
    have hno : x.1.kind.isProperty = false := by
      revert hwhole
      cases x.1.kind <;> simp [Kind.isWhole, Kind.isProperty]
    simp [kind_dissolveBlocks, hwhole, hno]
  | false =>
    have hproperties : (Lifted.statements ⟨x.1.dissolveBlocks, x.2⟩).filter
        (fun m => m.kind.isProperty) = x.1.ruleProperties := by
      rw [Lifted.statements, filter_filter, ← (hx hwhole).1]
      refine filter_congr fun m _ => ?_
      cases m.kind <;> rfl
    rw [kind_dissolveBlocks, hwhole, hproperties, hasSelectors]
    cases x.2.selectors.isEmpty with
    | true => rfl
    | false => simp [written]

section

variable (hxs : ∀ x ∈ xs, x.1.kind.isWhole = false → KeepsProperties x.1)

include hxs

/-- What becomes of the properties of several containers. -/
theorem flatMap_leavesOf_isProperty : xs.flatMap (leavesOf Kind.isProperty) =
      ((xs.filter hasSelectors).flatMap grouped).map written := by
  rw [map_flatMap, ← flatMap_ite_nil]
  exact flatMap_congr fun x hx => leavesOf_isProperty (hxs x hx)

theorem applied_dropped_written : (((xs.flatMap grouped).map written).map dropped).map applied =
      (xs.flatMap grouped).map applied := by
  rw [map_map, map_map]
  refine map_congr_left fun y hy => ?_
  obtain ⟨x, hx, hyx⟩ := mem_flatMap.1 hy
  have hdrop : y.1.dropEmpty = y.1 := by
    rw [grouped] at hyx
    split at hyx
    · cases hyx
    · rename_i hwhole
      obtain ⟨m, hm, rfl⟩ := mem_map.1 hyx
      exact (hxs x hx (by simpa using hwhole)).2 m hm
  show applied (y.1.dropEmpty, (written y).2) = applied y
  rw [hdrop]
  exact applied_written y

end

/-- What becomes of animations and fonts. -/
theorem leavesOf_isWhole (x : Node × Context) :
    leavesOf Kind.isWhole x =
      if x.1.kind.isWhole then [(x.1.dissolveBlocks, x.2.queries)] else [] := by
  unfold leavesOf Lifted.leaves
  rw [kind_dissolveBlocks]
  cases hwhole : x.1.kind.isWhole with
  | true => rfl
  | false =>
    have hno : (Lifted.statements ⟨x.1.dissolveBlocks, x.2⟩).filter
        (fun m => m.kind.isWhole) = [] := by
      rw [Lifted.statements, filter_filter]
      refine filter_eq_nil_iff.2 fun m _ => ?_
      cases m.kind <;> simp [Kind.isWhole, Kind.isContainer]
    simp [hno]

/-- How flattening rearranges what is found in a stylesheet.  Before it, `outside` are the properties
in no container, and `containers`, `declared` and `wholes` are the containers, the properties, and the
animations and fonts; after it, `declared'` and `wholes'` are the properties, and the animations and
fonts. -/
structure Rearranged (outside : List Node)
    (containers declared wholes declared' wholes' : List (Node × Context)) : Prop where
  /-- Every property is in one container or in none. -/
  owned : declared.Perm (outside.map loose ++ containers.flatMap grouped)
  /-- The properties in no container and those under some selector are found again, under the same
  selectors and queries and as often as before, and no other properties are. -/
  kept : (declared'.map applied).Perm
    ((outside.map loose ++ declared.filter hasSelectors).map applied)
  /-- They come container by container, the properties of one container in their order. -/
  ordered : ∃ order : List (Node × Context), order.Perm containers ∧
    (declared'.filter hasSelectors).map applied =
      ((order.filter hasSelectors).flatMap grouped).map applied
  /-- Animations and fonts are found again, under the same queries and as often as before. -/
  whole : (wholes'.map queried).Perm
    (wholes.map fun x => queried (x.1.dissolveBlocks.dropEmpty, x.2))

/-- What is found of properties after flattening, given what is found of each container. -/
theorem Rearranged.mk_of_order {outside : List Node}
    {containers declared order ys ws : List (Node × Context)}
    (howned : declared.Perm (outside.map loose ++ containers.flatMap grouped))
    (hkeeps : ∀ x ∈ containers, x.1.kind.isWhole = false → KeepsProperties x.1)
    (hdrop : ∀ m ∈ outside, m.dropEmpty = m) (horder : order.Perm containers)
    (hys : ys.Perm (outside.map loose ++ order.flatMap (leavesOf Kind.isProperty)))
    (hfilter : ys.filter hasSelectors =
      (order.flatMap (leavesOf Kind.isProperty)).filter hasSelectors)
    (hws : ws.Perm (order.flatMap (leavesOf Kind.isWhole))) :
    Rearranged outside containers declared (containers.filter fun x => x.1.kind.isWhole)
      (ys.map dropped) (ws.map dropped) := by
  have hkeeps' : ∀ x ∈ order, x.1.kind.isWhole = false → KeepsProperties x.1 := fun x hx =>
    hkeeps x (horder.mem_iff.1 hx)
  have hselected : ∀ x ∈ order.filter hasSelectors, x.1.kind.isWhole = false →
      KeepsProperties x.1 := fun x hx => hkeeps' x (mem_of_mem_filter hx)
  rw [flatMap_leavesOf_isProperty hkeeps'] at hys hfilter
  refine ⟨howned, ?_, ⟨order, horder, ?_⟩, ?_⟩
  · have houtside : ((outside.map loose).map dropped) = outside.map loose := by
      rw [map_map]
      refine map_congr_left fun m hm => ?_
      show (m.dropEmpty, ({} : Context)) = (m, {})
      rw [hdrop m hm]
    have hnone : (outside.map loose).filter hasSelectors = [] :=
      filter_eq_nil_iff.2 (forall_mem_map.2 fun _ _ => by simp [hasSelectors, loose])
    have hdeclared : (declared.filter hasSelectors).Perm
        ((order.filter hasSelectors).flatMap grouped) := by
      refine (howned.filter _).trans ?_
      rw [filter_append, hnone, nil_append, filter_flatMap_grouped]
      exact ((horder.filter _).flatMap_right _).symm
    refine ((hys.map dropped).map applied).trans ?_
    rw [map_append, houtside, map_append, applied_dropped_written hselected,
      map_append]
    exact (hdeclared.symm.map _).append_left _
  · have hall : (((order.filter hasSelectors).flatMap grouped).map written).filter hasSelectors =
        ((order.filter hasSelectors).flatMap grouped).map written := by
      rw [← filter_flatMap_grouped, filter_map]
      exact congrArg _ (filter_eq_self.2 fun y hy => (mem_filter.1 hy).2)
    rw [← applied_dropped_written hselected, ← hall, ← hfilter, filter_map]
    rfl
  · refine ((hws.map dropped).map queried).trans (.trans (.of_eq ?_) ((horder.filter _).map _))
    simp only [funext leavesOf_isWhole, flatMap_ite_nil, map_flatMap, map_singleton]
    rw [map_eq_flatMap]
    refine flatMap_congr fun x _ => ?_
    show [(_, x.2.media, x.2.queries.supportsQuery)] = _
    rw [Context.supportsQuery_queries]
    rfl

theorem Kind.isLifted_and_isWhole (kind : Kind) :
    (kind.isLifted && kind.isWhole) = kind.isWhole := by
  cases kind <;> simp [isWhole, isLifted, isContainer, isDiscarded]

/-- **Flattening neither loses, repeats nor retargets a declaration**, and nothing is left of what
leaves no trace, such as mixins that nothing extends. -/
theorem flatten_keeps_declarations {source : Source} {profile : Profile}
    {sheet before after : Sheet} (hp : Sheet.parse source = .ok sheet)
    (he : sheet.evaluate profile = .ok before) (hf : before.flatten = .ok after) :
    ∃ containers declared wholes declared' wholes',
      before.located Kind.isLifted = .ok containers ∧
      before.located Kind.isProperty = .ok declared ∧
      before.located Kind.isWhole = .ok wholes ∧
      after.located Kind.isProperty = .ok declared' ∧
      after.located Kind.isWhole = .ok wholes' ∧
      Rearranged before.looseProperties containers declared wholes declared' wholes' ∧
      ∀ n ∈ after.root.preorder, n.kind.isDiscarded = false := by
  obtain ⟨hform, hleft⟩ := Sheet.evaluate_left hp he
  have hk := Kind.eq_sheet hform
  obtain ⟨containers, declared, order, hcontainers, hdeclared, howned, hkeeps, horder, hafter⟩ :=
    Sheet.flatten_located hk hleft hf
  obtain ⟨ys, hys, hyperm, hyfilter⟩ := hafter selectsLeaves_isProperty
  obtain ⟨ws, hws, hwperm, -⟩ := hafter selectsLeaves_isWhole
  have hwholes : before.located Kind.isWhole = .ok (containers.filter fun x => x.1.kind.isWhole) := by
    have hfiltered := located_filter (q := Kind.isWhole) hcontainers
    rwa [funext Kind.isLifted_and_isWhole] at hfiltered
  have hloose : (dissolveBlocksAll before.root.children).filter
      (fun n => !n.kind.isContainer && n.kind.isProperty) = before.looseProperties := by
    rw [Sheet.looseProperties, ← hleft.filter_dissolved.1]
    refine List.filter_congr fun n _ => ?_
    cases n.kind <;> rfl
  have hnone : (dissolveBlocksAll before.root.children).filter
      (fun n => !n.kind.isContainer && n.kind.isWhole) = [] := by
    refine List.filter_eq_nil_iff.2 fun n _ => ?_
    cases n.kind <;> simp [Kind.isContainer, Kind.isWhole]
  rw [hloose] at hyperm
  rw [hnone] at hwperm
  exact ⟨containers, declared, _, _, _, hcontainers, hdeclared, hwholes, hys, hws,
    .mk_of_order howned hkeeps hleft.filter_dissolved.2 horder hyperm hyfilter hwperm,
    Sheet.flatten_traced hk hleft hf⟩

/-- A rule with a query in it, and a query without selectors around a font. -/
theorem flatten_keeps_declarations_query :
    ∃ sheet before after,
      Sheet.parse { text :=
        "a{b:c;@media x{d:e;}}@media y{f:g;@font-face{h:i;}}" } =
        .ok sheet ∧
      sheet.evaluate {} = .ok before ∧ before.flatten = .ok after ∧
      after.css {} =
        .ok "a{b:c;}@media x{a{d:e;}}@media y{@font-face{h:i;}}" ∧
      ∃ containers declared wholes declared' wholes',
        before.located Kind.isLifted = .ok containers ∧
        before.located Kind.isProperty = .ok declared ∧
        before.located Kind.isWhole = .ok wholes ∧
        after.located Kind.isProperty = .ok declared' ∧
        after.located Kind.isWhole = .ok wholes' ∧
        Rearranged before.looseProperties containers declared wholes declared' wholes' ∧
        ∀ n ∈ after.root.preorder, n.kind.isDiscarded = false := by
  have hcompile : compile { text :=
        "a{b:c;@media x{d:e;}}@media y{f:g;@font-face{h:i;}}" } {} {} =
      .ok "a{b:c;}@media x{a{d:e;}}@media y{@font-face{h:i;}}" := by
    decide +kernel
  obtain ⟨sheet, hp, hcompile⟩ := bind_eq_ok.1 hcompile
  obtain ⟨after, h, hcss⟩ := bind_eq_ok.1 hcompile
  rw [Sheet.reduce_eq] at h
  obtain ⟨before, he, hf⟩ := bind_eq_ok.1 h
  exact ⟨sheet, before, after, hp, he, hf, hcss, flatten_keeps_declarations hp he hf⟩

end Cascade
