import Cascade.Proofs.Merging
import Cascade.Proofs.Relabeling

/-!
# Flattening a flat stylesheet

Flattening takes the queries of a flat stylesheet apart, one for each rule in them, and merging puts
them together again: neighbours that say the same are found together only where they came from one
query, since otherwise they would have been merged before.
-/

set_option autoImplicit false

namespace Cascade

open Node List

variable {ns cs : List Node} {n : Node} {depth : Nat} {P ok : Node → Prop} {d : Descent}
  {out : Node → List Node}

/-! ## Taking queries apart -/

/-- The rule with other statements in its block. -/
def Node.withBody (n : Node) (cs : List Node) : Node :=
  n.updateRules fun block => block.withChildren cs

theorem Node.withBody_rule {l lb : Label} {ds : List Node} (hr : lb.relation = some .rules) :
    (Node.mk l [.mk lb cs]).withBody ds = .mk l [.mk lb ds] :=
  updateRules_rule hr _

theorem Node.kind_withBody (n : Node) (cs : List Node) : (n.withBody cs).kind = n.kind :=
  kind_updateRules _ n

/-- **The parts of a query**: one query for each rule in it, down to the given depth. -/
def Node.explode : Nat → Node → List Node
  | 0, n => [n]
  | depth + 1, n =>
    if n.kind.isQuery then (n.body.flatMap (explode depth)).map fun c => n.withBody [c] else [n]

theorem Node.explode_of_not_isQuery (h : n.kind.isQuery = false) (depth : Nat) :
    n.explode depth = [n] := by
  cases depth with
  | zero => rfl
  | succ depth => rw [explode, h]; rfl

theorem Node.explode_query (h : n.kind.isQuery = true) (depth : Nat) :
    n.explode (depth + 1) = (n.body.flatMap (explode depth)).map fun c => n.withBody [c] := by
  rw [explode, if_pos h]

theorem Node.kind_of_mem_explode {p : Node} (hp : p ∈ n.explode depth) : p.kind = n.kind := by
  cases depth with
  | zero => rw [mem_singleton.1 hp]
  | succ depth =>
    rw [explode] at hp
    split at hp
    · obtain ⟨c, -, rfl⟩ := mem_map.1 hp
      exact n.kind_withBody _
    · rw [mem_singleton.1 hp]

section Queries

variable {leaks : Prop}

/-- The heading of a query. -/
def QueryHeading (kind : Kind) : Prop :=
  FeatureHeading kind ∨ MediaHeading kind

theorem QueryHeading.sameRule {kind : Kind} (h : QueryHeading kind) :
    kind.sameRule kind = true := by
  rcases h with ⟨_, rfl⟩ | ⟨_, rfl, -⟩ <;> simp [Kind.sameRule]

/-- A query of a flat stylesheet holds statements of flat stylesheets. -/
theorem IsTop.query (hn : IsTop (Full leaks) n) (hq : n.kind.isQuery = true) :
    RuleOf QueryHeading (IsTop (Full leaks)) n ∧ n.body ≠ [] := by
  have nonempty : ∀ {heading : Kind → Prop} {P : Node → Prop}, (∀ k, heading k → Heading k) →
      RuleOf heading P n → Full leaks n → n.body ≠ [] := by
    intro heading P hh hrule hfull
    cases hrule with
    | mk hl hrel hb hr hcs =>
      rw [body_rule hr]
      exact (full_rule (hh _ hl) hr).1 hfull
  have h := hn.by_kind
  cases hk : n.kind with
  | supports =>
    rw [hk] at h
    exact ⟨(h.2.heading_mono fun _ h => .inl h).mono fun _ hc => .inr (.inl (.inl hc)),
      nonempty (fun _ h => .inr (.inl h)) h.2 h.1⟩
  | media =>
    rw [hk] at h
    exact ⟨(h.2.heading_mono fun _ h => .inr h).mono fun _ hc => .inr (.inl hc),
      nonempty (fun _ h => .inr (.inr h)) h.2 h.1⟩
  | _ => simp [hk, Kind.isQuery] at hq

/-- Below a feature query there is no other query. -/
theorem IsInner.explode_eq (hn : IsInner ok n) (depth : Nat) :
    n.explode (depth + 1) = n.explode 1 := by
  obtain hn | hn := hn
  · rw [explode_of_not_isQuery hn.not_isQuery, explode_of_not_isQuery hn.not_isQuery]
  · have hq : n.kind.isQuery = true := by
      obtain ⟨_, hk⟩ := hn.2.kind
      rw [hk]
      rfl
    rw [explode_query hq, explode_query hq]
    refine congrArg _ (flatMap_congr fun c hc => ?_)
    exact explode_of_not_isQuery (hn.2.forall_body c hc).not_isQuery depth

/-- Queries are nested no deeper than two. -/
theorem IsTop.explode_eq (hn : IsTop ok n) (depth : Nat) : n.explode (depth + 2) = n.explode 2 := by
  obtain hn | hn | hn := hn
  · have hq : n.kind.isQuery = false := by
      have hc := hn.2.2
      revert hc
      cases n.kind <;> simp [Kind.isQuery, Kind.isContainer]
    rw [explode_of_not_isQuery hq, explode_of_not_isQuery hq]
  · rw [hn.explode_eq (depth + 1), hn.explode_eq 1]
  · have hq : n.kind.isQuery = true := by
      obtain ⟨_, hk, -⟩ := hn.2.kind
      rw [hk]
      rfl
    rw [explode_query hq, explode_query hq]
    refine congrArg _ (flatMap_congr fun c hc => ?_)
    exact (hn.2.forall_body c hc).explode_eq depth

/-- There is something in every part. -/
theorem IsTop.explode_ne_nil (hn : IsTop (Full leaks) n) (depth : Nat) : n.explode depth ≠ [] := by
  induction depth generalizing n with
  | zero => simp [explode]
  | succ depth ih =>
    cases hq : n.kind.isQuery with
    | false => simp [explode_of_not_isQuery hq]
    | true =>
      obtain ⟨hrule, hne⟩ := hn.query hq
      rw [explode_query hq]
      cases hrule with
      | @mk l lb cs hl hrel hb hr hcs =>
        rw [body_rule hr] at hne ⊢
        obtain ⟨c, ds, rfl⟩ := exists_cons_of_ne_nil hne
        simp [ih (hcs c mem_cons_self)]

/-! ## Putting queries together -/

/-- If the parts of each statement are merged into one, and neighbours differ, then so are the parts
of all statements. -/
theorem mergeRuns_flatMap {parts : Node → List Node} {joined : Node → Node}
    (hparts : ∀ n ∈ ns, ∃ p ps, parts n = p :: ps ∧ p.kind = n.kind ∧
      ∀ rest, mergeAfter p (ps ++ rest) = mergeAfter (joined n) rest)
    (hjoined : ∀ n, (joined n).kind = n.kind) (hapart : Apart ns) :
    mergeRuns (ns.flatMap parts) = ns.map joined := by
  induction ns with
  | nil => rfl
  | cons n ns ih =>
    obtain ⟨hn, hns⟩ := forall_mem_cons.1 hparts
    obtain ⟨p, ps, hp, -, hmerge⟩ := hn
    rw [flatMap_cons, hp, cons_append, mergeRuns, hmerge, map_cons]
    cases ns with
    | nil => rfl
    | cons m ms =>
      obtain ⟨hnm, hms⟩ := isChain_cons_cons.1 hapart
      obtain ⟨q, qs, hq, hkq, -⟩ := hns m mem_cons_self
      have hnone : (joined n).merged? q = none :=
        merged?_eq_none (by rw [hjoined, hkq]; exact hnm)
      have ih := ih hns hms
      rw [flatMap_cons, hq, cons_append, mergeRuns] at ih
      rw [flatMap_cons, hq, cons_append, mergeAfter, hnone, ih]

/-- The parts of a query are merged one after the other. -/
theorem mergeAfter_withBody (hn : RuleOf QueryHeading P n) (as bs rest : List Node) :
    mergeAfter (n.withBody as) (bs.map (fun c => n.withBody [c]) ++ rest) =
      mergeAfter (n.withBody (as ++ bs)) rest := by
  cases hn with
  | mk hl hrel hb hr hcs =>
    induction bs generalizing as with
    | nil => simp
    | cons b bs ih =>
      rw [map_cons, cons_append, mergeAfter]
      have hmerged : ∀ {l lb : Label} {cs : List Node}, lb.relation = some .rules →
          l.kind.sameRule l.kind = true →
          ((Node.mk l [.mk lb cs]).withBody as).merged? ((Node.mk l [.mk lb cs]).withBody [b]) =
            some ((Node.mk l [.mk lb cs]).withBody (as ++ [b])) := by
        intro l lb cs hr hsame
        rw [withBody_rule hr, withBody_rule hr, withBody_rule hr,
          merged?_rule hr hr, if_pos hsame]
      rw [hmerged hr hl.sameRule]
      simp only
      rw [ih, append_assoc, singleton_append]

/-- A query with the parts of all its statements. -/
def Node.gathered (depth : Nat) (n : Node) : Node :=
  if n.kind.isQuery then n.withBody (n.body.flatMap (explode depth)) else n

theorem Node.kind_gathered (depth : Nat) (n : Node) : (n.gathered depth).kind = n.kind := by
  unfold gathered
  split
  · exact n.kind_withBody _
  · rfl

/-- The parts of a statement are merged into one. -/
theorem IsTop.explode_gathered (hn : IsTop (Full leaks) n) (depth : Nat) :
    ∃ p ps, n.explode (depth + 1) = p :: ps ∧ p.kind = n.kind ∧
      ∀ rest, mergeAfter p (ps ++ rest) = mergeAfter (n.gathered depth) rest := by
  obtain ⟨p, ps, heq⟩ := exists_cons_of_ne_nil (hn.explode_ne_nil (depth + 1))
  have hp : p ∈ n.explode (depth + 1) := heq ▸ mem_cons_self
  refine ⟨p, ps, heq, kind_of_mem_explode hp, fun rest => ?_⟩
  cases hq : n.kind.isQuery with
  | false =>
    rw [explode_of_not_isQuery hq] at heq
    cases heq
    rw [gathered, hq]
    rfl
  | true =>
    rw [explode_query hq] at heq
    obtain ⟨c, cs, hcs, rfl, rfl⟩ := map_eq_cons_iff.1 heq
    rw [gathered, if_pos hq, hcs]
    exact mergeAfter_withBody (hn.query hq).1 [c] cs rest

/-- **Merging undoes taking apart.** -/
theorem mergeWithin_explode (depth : Nat) (hns : ∀ n ∈ ns, IsTop (Full leaks) n) (ht : Tidy ns) :
    mergeWithin depth (ns.flatMap (explode depth)) = ns := by
  induction depth generalizing ns with
  | zero =>
    have hmerge : mergeRuns (ns.flatMap (explode 0)) = ns.map id :=
      mergeRuns_flatMap (fun n _ => ⟨n, [], rfl, rfl, fun _ => rfl⟩) (fun _ => rfl) ht.apart
    rwa [map_id] at hmerge
  | succ depth ih =>
    rw [mergeWithin_succ, mergeRuns_flatMap (fun n hn => (hns n hn).explode_gathered depth)
      (kind_gathered depth) ht.apart, map_map]
    refine (map_congr_left fun n hn => ?_).trans (map_id ns)
    rw [Function.comp_apply, mergeInside, kind_gathered]
    split
    · rename_i hq
      have hinside := ht.inside n hn hq
      obtain ⟨hrule, -⟩ := (hns n hn).query hq
      rw [gathered, if_pos hq]
      cases hrule with
      | mk hl hrel hb hr hcs =>
        rw [body_rule hr] at hinside ⊢
        rw [withBody_rule hr, updateRules_rule hr, withChildren, children_mk,
          ih hcs hinside]
        rfl
    · rename_i hq
      rw [gathered, if_neg hq]
      rfl

/-- The parts of a statement are statements of the same layer. -/
theorem IsTop.of_mem_explode {p : Node} (hn : IsTop (Full leaks) n) (hp : p ∈ n.explode depth) :
    IsTop (Full leaks) p := by
  induction depth generalizing n p with
  | zero => rwa [mem_singleton.1 hp]
  | succ depth ih =>
    -- A query of one layer around a part of a statement of the layer inside it.
    have single : ∀ {heading : Kind → Prop} {P : Node → Prop}, (∀ k, heading k → Heading k) →
        IsLayer leaks P → RuleOf heading P n → ∀ c ∈ n.body.flatMap (explode depth),
        Full leaks (n.withBody [c]) ∧ RuleOf heading P (n.withBody [c]) := by
      intro heading P hh hP hrule c hc
      cases hrule with
      | mk hl hrel hb hr hcs =>
        rw [body_rule hr] at hc
        obtain ⟨e, he, hce⟩ := mem_flatMap.1 hc
        have hPc := hP.of_kind (hcs e he) (ih (hP.top (hcs e he)) hce)
          (kind_of_mem_explode hce)
        rw [withBody_rule hr]
        exact ⟨(full_rule (hh _ hl) hr).2 (by simp),
          .mk hl hrel hb hr (forall_mem_singleton.2 hPc)⟩
    cases hq : n.kind.isQuery with
    | false =>
      rw [explode_of_not_isQuery hq] at hp
      rwa [mem_singleton.1 hp]
    | true =>
      rw [explode_query hq] at hp
      obtain ⟨c, hc, rfl⟩ := mem_map.1 hp
      have h := hn.by_kind
      cases hk : n.kind with
      | supports =>
        rw [hk] at h
        exact .inr (.inl (.inr (single (fun _ h => .inr (.inl h)) isLayer_isCore h.2 c hc)))
      | media =>
        rw [hk] at h
        exact .inr (.inr (single (fun _ h => .inr (.inr h)) isLayer_isInner h.2 c hc))
      | _ => simp [hk, Kind.isQuery] at hq

end Queries

/-! ## Nothing to dissolve and nothing to remove -/

/-- **There is nothing to dissolve, and nothing to remove** unless something is empty, if no use of a
mixin is left. -/
theorem IsSettled.dissolve_drop_eq (hn : IsSettled ok n)
    (hok : ∀ m, ok m → Unblocked False m ∧ m.kind.isDiscarded = false) :
    n.isPlainBlock = false ∧ n.dissolveBlocks = n ∧
      ((∀ m, ok m → m.isKept = true) → n.dropEmpty = n) := by
  refine ⟨Bool.eq_false_iff.2 fun h => (hok n hn.self).1.2 (isPlainBlock_eq_true.1 h).1, ?_⟩
  have block : ∀ {lb : Label} {cs : List Node}, (∀ c ∈ cs, IsSettled ok c) →
      (∀ c ∈ cs, c.dissolveBlocks = c ∧ ((∀ m, ok m → m.isKept = true) → c.dropEmpty = c)) →
      (Node.mk lb cs).dissolveBlocks = .mk lb cs ∧
        ((∀ m, ok m → m.isKept = true) → (Node.mk lb cs).dropEmpty = .mk lb cs) := by
    intro lb cs hcs ih
    refine ⟨?_, fun hkept => ?_⟩
    · rw [Node.dissolveBlocks, Node.dissolveBlocksAll_eq (fun c hc => (ih c hc).1) fun c hc =>
        Bool.eq_false_iff.2 fun h => (hok c (hcs c hc).self).1.2 (isPlainBlock_eq_true.1 h).1]
    · rw [Node.dropEmpty, dropEmptyAll_eq (fun c hc => (ih c hc).2 hkept)
        fun c hc => hkept c (hcs c hc).self]
  induction hn with
  | @property l v hok h hd hr hv =>
    exact ⟨dissolveBlocks_of_isPart (forall_mem_singleton.2 hv.isPart),
      fun _ => dropEmpty_of_isPart (forall_mem_singleton.2 hv.isPart)⟩
  | silent hself h => cases h.symm.trans (hok _ hself).2
  | call hself h => exact ((hok _ hself).1.1 h).elim
  | block hself h => exact absurd h (hok _ hself).1.2
  | @rule l lb cs hself h hd hk hr hm hcs ih =>
    obtain ⟨hdissolve, hdrop⟩ := block hcs ih
    have hlb : (Node.mk lb cs).isPlainBlock = false := by simp [isPlainBlock, hr]
    refine ⟨?_, fun hkept => ?_⟩
    · rw [dissolveBlocks, dissolveBlocksAll_eq (forall_mem_singleton.2 hdissolve)
        (forall_mem_singleton.2 hlb)]
    · rw [Node.dropEmpty, Node.dropEmptyAll_eq (forall_mem_singleton.2 (hdrop hkept))
        (forall_mem_singleton.2 (isKept_of_block (Kind.eq_block hk)))]
  | @extended l lp lb cs hself h hkp hrp hk hr hm hcs ih =>
    obtain ⟨hdissolve, hdrop⟩ := block hcs ih
    have hlp : (Node.mk lp []).isPlainBlock = false := by simp [isPlainBlock, hrp]
    have hlb : (Node.mk lb cs).isPlainBlock = false := by simp [isPlainBlock, hr]
    have hpart : (Node.mk lp []).kind.form.isPart = true := by rw [kind_mk, hkp]; rfl
    refine ⟨?_, fun hkept => ?_⟩
    · rw [dissolveBlocks, dissolveBlocksAll_eq
        (forall_mem_cons.2 ⟨rfl, forall_mem_singleton.2 hdissolve⟩)
        (forall_mem_cons.2 ⟨hlp, forall_mem_singleton.2 hlb⟩)]
    · rw [Node.dropEmpty, Node.dropEmptyAll_eq
        (forall_mem_cons.2 ⟨rfl, forall_mem_singleton.2 (hdrop hkept)⟩)
        (forall_mem_cons.2 ⟨isKept_of_isPart hpart, forall_mem_singleton.2
          (isKept_of_block (Kind.eq_block hk))⟩)]

/-! ## Lifting rules out again -/

section Lift

variable {file : Option String} {heading : Kind → Prop}

/-- A rule around one statement, in the form that a query has. -/
theorem RuleOf.bare_enclosed {c : Node} (hn : RuleOf heading P n) :
    (c.enclosed n.kind).bare = (n.withBody [c]).bare := by
  cases hn with
  | @mk l lb cs hl hrel hb hr hcs =>
    rw [withBody_rule hr, enclosed, make, make, placed, withRelation]
    simp only [bare_mk, map_singleton, Label.bare, kind_mk, label_mk,
      children_mk, hrel, hb, hr]

/-- What the containers of a tree become, lines and comments aside. -/
def Yields (file : Option String) (d : Descent) (n : Node) (out : List Node) : Prop :=
  ∃ found, n.containers file d = .ok found ∧ (∀ x ∈ found, x.node.kind.isMixin = false) ∧
    (found.filterMap fun x => x.rule?.map x.context.wrap).map bare = out.map bare

theorem Yields.all (h : ∀ c ∈ cs, Yields file d c (out c)) :
    ∃ found, containersAll file d cs = .ok found ∧
      (∀ x ∈ found, x.node.kind.isMixin = false) ∧
      (found.filterMap fun x => x.rule?.map x.context.wrap).map bare =
        (cs.flatMap out).map bare := by
  induction cs with
  | nil => exact ⟨[], rfl, by simp, rfl⟩
  | cons c cs ih =>
    obtain ⟨⟨first, hfirst, hmf, hof⟩, hcs⟩ := forall_mem_cons.1 h
    obtain ⟨rest, hrest, hmr, hor⟩ := ih hcs
    refine ⟨first ++ rest, ?_, ?_, ?_⟩
    · rw [containersAll, hfirst, hrest]
      rfl
    · intro x hx
      exact (mem_append.1 hx).elim (hmf x) (hmr x)
    · rw [filterMap_append, map_append, hof, hor, flatMap_cons, map_append]

/-- What a query yields is what the statements in it yield. -/
theorem RuleOf.yields {d' : Descent} (hn : RuleOf heading P n)
    (hh : ∀ k, heading k → QueryHeading k) (hP : ∀ c, P c → c.kind.isContainer = true)
    (henter : d.enter file false n = .ok d') (hcs : ∀ c ∈ n.body, Yields file d' c (out c)) :
    Yields file d n (n.body.flatMap out) := by
  cases hn with
  | @mk l lb cs hl hrel hb hr hbody =>
    rw [body_rule hr] at hcs ⊢
    obtain ⟨inner, hinner, hmixin, hout⟩ := Yields.all hcs
    have hkind : l.kind.isContainer = true ∧ l.kind.isDiscarded = false ∧ l.kind.isWhole = false ∧
        l.kind.isMixin = false := by
      rcases hh _ hl with ⟨_, hk⟩ | ⟨_, hk, -⟩ <;> rw [hk] <;> exact ⟨rfl, rfl, rfl, rfl⟩
    obtain ⟨hcont, hdisc, hwhole, hmix⟩ := hkind
    -- There is no statement in a query that is not a container.
    have hrule : ∀ context, Lifted.rule? ⟨.mk l [.mk lb cs], context⟩ = none := by
      intro context
      have hempty : cs.filter (fun c => !c.kind.isContainer) = [] :=
        filter_eq_nil_iff.2 fun c hc => by simp [hP c (hbody c hc)]
      simp [Lifted.rule?, kind_mk, hwhole, rules?_rule hr, hempty]
    refine ⟨⟨.mk l [.mk lb cs], d'.context⟩ :: inner, ?_, forall_mem_cons.2 ⟨hmix, hmixin⟩, ?_⟩
    · rw [containers_eq, kind_mk, hcont, hdisc, henter, body_rule hr]
      simp only [Bool.not_true, Bool.or_self, Bool.false_eq_true, if_false, hwhole]
      show (containersAll file d' cs >>= _) = _
      rw [hinner]
      rfl
    · rw [filterMap_cons, hrule]
      exact hout

/-- Declarations hold no containers. -/
theorem Node.containersAll_declarations (h : ∀ c ∈ cs, c.kind.isContainer = false) :
    containersAll file d cs = .ok [] := by
  induction cs with
  | nil => rfl
  | cons c cs ih =>
    obtain ⟨hc, hcs⟩ := forall_mem_cons.1 h
    rw [containersAll, containers_eq, hc, ih hcs]
    rfl

variable {leaks : Prop}

theorem IsCore.isContainer (hn : IsCore ok n) : n.kind.isContainer = true := by
  obtain ⟨-, hrule | ⟨hw, -⟩⟩ := hn
  · obtain ⟨_, hk, -⟩ := hrule.kind
    rw [hk]
    rfl
  · revert hw
    cases n.kind <;> simp [Kind.isWhole, Kind.isContainer]

theorem IsInner.isContainer (hn : IsInner ok n) : n.kind.isContainer = true := by
  obtain hn | hn := hn
  · exact hn.isContainer
  · obtain ⟨_, hk⟩ := hn.2.kind
    rw [hk]
    rfl

/-- A rule of declarations yields itself in the queries around it, if there is something in it. -/
theorem RuleOf.yields_declarations (hn : RuleOf StyleHeading P n)
    (hP : ∀ c, P c → c.kind.isContainer = false) (hd : d.context.selectors = []) :
    Yields file d n (if n.body.isEmpty then [] else [d.context.wrap n]) := by
  cases hn with
  | @mk l lb cs hl hrel hb hr hcs =>
    obtain ⟨names, hk, hnames, hstandalone⟩ := hl
    have hdecl : ∀ c ∈ cs, c.kind.isContainer = false := fun c hc => hP c (hcs c hc)
    have henter : d.enter file false (.mk l [.mk lb cs]) =
        .ok { context := { d.context with selectors := names } } :=
      Descent.enter_written hk hd hstandalone
    have hcontainers : (Node.mk l [.mk lb cs]).containers file d =
        .ok [⟨.mk l [.mk lb cs], { d.context with selectors := names }⟩] := by
      rw [containers_eq, kind_mk, hk, henter, body_rule hr]
      show (containersAll file _ cs >>= _) = _
      rw [containersAll_declarations hdecl]
      rfl
    have hfilter : cs.filter (fun c => !c.kind.isContainer) = cs :=
      filter_eq_self.2 fun c hc => by simp [hdecl c hc]
    refine ⟨_, hcontainers, forall_mem_singleton.2 (by rw [kind_mk, hk]; rfl), ?_⟩
    simp only [filterMap_cons, filterMap_nil, Lifted.rule?, kind_mk, hk, Kind.isWhole,
      rules?_rule hr, children_mk, hfilter, isEmpty_eq_false_iff.2 hnames, Bool.or_false,
      Bool.false_eq_true, if_false, body_rule hr]
    cases cs.isEmpty
    · refine congrArg (fun n => [n]) (Context.bare_wrap rfl rfl ?_)
      simp only [make, placed, withRelation, bare_mk, map_singleton,
        Label.bare, label_mk, children_mk, hrel, hb, hr, hk]
    · rfl

/-- A rule of the innermost layer yields itself in the queries around it. -/
theorem IsCore.yields (hn : IsCore (Full leaks) n) (hd : d.context.selectors = []) :
    Yields file d n [d.context.wrap n] := by
  obtain ⟨hfull, hrule | ⟨hw, -⟩⟩ := hn
  · have hyields : Yields file d n _ := hrule.yields_declarations (fun _ hc => hc.2.2) hd
    cases hrule with
    | mk hl hrel hb hr hcs =>
      rwa [body_rule hr, if_neg (by simpa using (full_rule (.inl hl) hr).1 hfull)] at hyields
  · have hcontainers : n.containers file d = .ok [⟨n, d.context⟩] := by
      rw [containers_eq, Descent.enter]
      revert hw
      cases n.kind <;> simp [Kind.isWhole, Kind.isContainer, Kind.isDiscarded]
    refine ⟨_, hcontainers, forall_mem_singleton.2 ?_, ?_⟩
    · revert hw
      cases n.kind <;> simp [Kind.isWhole, Kind.isMixin]
    · simp [Lifted.rule?, hw]

theorem Yields.congr {out out' : List Node} (h : Yields file d n out)
    (heq : out.map bare = out'.map bare) : Yields file d n out' := by
  obtain ⟨found, hfound, hmixin, hout⟩ := h
  exact ⟨found, hfound, hmixin, hout.trans heq⟩

/-- A feature query is taken apart. -/
theorem IsInner.yields (hn : IsInner (Full leaks) n) (hd : d.context.selectors = [])
    (hs : d.context.supports = []) : Yields file d n ((n.explode 1).map d.context.wrap) := by
  obtain hn | hn := hn
  · rw [explode_of_not_isQuery hn.not_isQuery]
    exact hn.yields hd
  · obtain ⟨query, hk⟩ := hn.2.kind
    have hq : n.kind.isQuery = true := by rw [hk]; rfl
    -- The way down into the query adds nothing but the query itself.
    have henter : d.enter file false n =
        .ok { d with context := { d.context with supports := [query] } } := by
      simp [Descent.enter, hk, hs]
    have hcores := hn.2.forall_body
    refine (hn.2.yields (fun _ => .inl) (fun c hc => hc.isContainer) henter fun c hc =>
      (hcores c hc).yields hd).congr ?_
    rw [explode_query hq]
    simp only [explode, ← map_eq_flatMap, map_map]
    refine map_congr_left fun c _ => ?_
    have henclosed : (c.enclosed (.supports query)).bare = (n.withBody [c]).bare :=
      hk ▸ hn.2.bare_enclosed
    exact @Context.bare_wrap { d.context with supports := [] } d.context rfl hs.symm _ _ henclosed

/-- A media query is taken apart. -/
theorem IsMedia.yields (hn : IsMedia (Full leaks) n) : Yields file {} n (n.explode 2) := by
  obtain ⟨queries, hk, hne⟩ := hn.2.kind
  have hq : n.kind.isQuery = true := by rw [hk]; rfl
  have henter : Descent.enter file false {} n = .ok { context := { media := queries } } := by
    simp [Descent.enter, hk, combineMedia]
  refine (hn.2.yields (fun _ => .inr) (fun c hc => hc.isContainer) henter fun c hc =>
    (hn.2.forall_body c hc).yields rfl rfl).congr ?_
  rw [explode_query hq, ← map_flatMap, map_map, map_map]
  refine map_congr_left fun c _ => ?_
  have henclosed : (c.enclosed (.media queries [])).bare = (n.withBody [c]).bare :=
    hk ▸ hn.2.bare_enclosed
  have hwrap : Context.wrap { media := queries } c = c.enclosed (.media queries []) := by
    simp [Context.wrap, Context.supportsQuery, hne]
  rw [Function.comp_apply, hwrap, henclosed]
  rfl

theorem lift_of_yields (hc : n.kind.isContainer = true) (hd : n.kind.isDiscarded = false)
    {out : List Node} (h : Yields file {} n out) :
    ∃ ms, lift file n = .ok ms ∧ ms.map bare = out.map bare := by
  obtain ⟨found, hfound, hmixin, hout⟩ := h
  have hpartition : found.partition (fun x => x.node.kind.isMixin) = ([], found) := by
    rw [partition_eq_filter_filter, filter_eq_nil_iff.2 fun x hx => by simp [hmixin x hx],
      filter_eq_self.2 fun x hx => by simp [hmixin x hx]]
  refine ⟨_, ?_, hout⟩
  rw [lift, hd, hc, hfound]
  simp only [Bool.false_eq_true, if_false, Bool.not_true]
  show Except.ok _ = _
  rw [hpartition]
  rfl

/-- **Lifting rules out of a flat stylesheet takes its queries apart.** -/
theorem IsTop.lift_explode (hn : IsTop (Full leaks) n) :
    ∃ ms, lift file n = .ok ms ∧ ms.map bare = (n.explode 2).map bare := by
  have hdisc : n.kind.isDiscarded = false := hn.isSettled.1.self.isDiscarded
  obtain hn | hn | hn := hn
  · have hq : n.kind.isQuery = false := by
      have hc := hn.2.2
      revert hc
      cases n.kind <;> simp [Kind.isQuery, Kind.isContainer]
    refine ⟨[n], ?_, by rw [explode_of_not_isQuery hq]⟩
    rw [lift, hdisc, hn.2.2]
    rfl
  · refine lift_of_yields hn.isContainer hdisc ((hn.yields rfl rfl).congr ?_)
    have hwrap : Context.wrap {} = id := rfl
    rw [hwrap, map_id, hn.explode_eq 1]
  · have hc : n.kind.isContainer = true := by
      obtain ⟨_, hk, -⟩ := hn.2.kind
      rw [hk]
      rfl
    exact lift_of_yields hc hdisc hn.yields

end Lift

/-! ## Flattening again -/

theorem lift_flatten_bare {file : Option String}
    (h : ∀ n ∈ ns, ∃ ms, lift file n = .ok ms ∧ ms.map bare = (out n).map bare) :
    ∃ lifted, ns.mapM (lift file) = .ok lifted ∧
      lifted.flatten.map bare = (ns.flatMap out).map bare := by
  induction ns with
  | nil => exact ⟨[], rfl, rfl⟩
  | cons n ns ih =>
    obtain ⟨⟨ms, hms, hbare⟩, hns⟩ := forall_mem_cons.1 h
    obtain ⟨lifted, hlifted, hrest⟩ := ih hns
    refine ⟨ms :: lifted, by rw [mapM_cons, hms, hlifted]; rfl, ?_⟩
    rw [flatten_cons, flatMap_cons, map_append, map_append, hbare, hrest]

/-- **Statements that are lifted out one by one**, with nothing empty in what they become, are merged
and no more, lines, comments and scopes aside. -/
theorem Sheet.flatten_of_lift (sheet : Sheet) (out : Node → List Node)
    (hsettled : ∀ n ∈ sheet.root.children, IsSettled ok n)
    (hok : ∀ m, ok m → Unblocked False m ∧ m.kind.isDiscarded = false)
    (hlift : ∀ n ∈ sheet.root.children, ∃ ms, lift sheet.file n = .ok ms ∧
      ms.map bare = (out n).map bare)
    (hfull : ∀ p ∈ sheet.root.children.flatMap out, IsSettled (Full False) p) :
    ∃ flat, ∃ depth, sheet.flatten = .ok flat ∧ flat.file = sheet.file ∧
      (sheet.root.children.flatMap out ≠ [] → 2 ≤ depth) ∧ flat.root.children.map bare =
        (mergeWithin depth (sheet.root.children.flatMap out)).map bare := by
  obtain ⟨⟨l, ns⟩, file, expansions⟩ := sheet
  obtain ⟨lifted, hlifted, hbare⟩ := lift_flatten_bare hlift
  simp only [children_mk] at hsettled hfull hlifted hbare ⊢
  have hdissolve : (Node.mk l ns).dissolveBlocks = .mk l ns := by
    rw [dissolveBlocks, dissolveBlocksAll_eq
      (fun n hn => ((hsettled n hn).dissolve_drop_eq hok).2.1)
      fun n hn => ((hsettled n hn).dissolve_drop_eq hok).1]
  -- Nothing of what is lifted out is empty.
  have hdrop : (dropEmptyAll lifted.flatten).map bare = (ns.flatMap out).map bare := by
    have hcomm (cs : List Node) : dropEmptyAll (cs.map bare) = (dropEmptyAll cs).map bare :=
      dropEmptyAll_relabeled keepsPlace_bare fun c _ => dropEmpty_relabeled keepsPlace_bare c
    have hkept : dropEmptyAll (ns.flatMap out) = ns.flatMap out :=
      dropEmptyAll_eq (fun p hp => ((hfull p hp).dissolve_drop_eq fun m hm =>
        ⟨hm.1, hm.isDiscarded⟩).2.2 fun m hm => hm.2) fun p hp => (hfull p hp).self.2
    rw [← hcomm, hbare, hcomm, hkept]
  have hflat : Sheet.flatten ⟨.mk l ns, file, expansions⟩ =
      .ok ⟨.mk l (mergeWithin (Node.mk l (dropEmptyAll lifted.flatten)).size
        (dropEmptyAll lifted.flatten)), file, expansions⟩ := by
    rw [Sheet.flatten, hdissolve, children_mk, hlifted]
    rfl
  refine ⟨_, (Node.mk l (dropEmptyAll lifted.flatten)).size, hflat, rfl, fun hne => ?_, ?_⟩
  · cases hms : dropEmptyAll lifted.flatten with
    | nil =>
      rw [hms] at hdrop
      exact absurd (map_eq_nil_iff.1 hdrop.symm) hne
    | cons m ms =>
      obtain ⟨lm, cs⟩ := m
      rw [size, sizeAll, size]
      omega
  · have hcomm (ms : List Node) := mergeWithin_relabeled keepsPlace_bare
      (Node.mk l (dropEmptyAll lifted.flatten)).size ms
    exact ((hcomm _).symm.trans (congrArg _ hdrop)).trans (hcomm _)

/-- **A flat stylesheet is flattened to itself**, lines, comments and scopes aside. -/
theorem Sheet.flatten_of_isTop {sheet : Sheet}
    (htop : ∀ n ∈ sheet.root.children, IsTop (Full False) n) (htidy : Tidy sheet.root.children) :
    ∃ flat, sheet.flatten = .ok flat ∧ flat.file = sheet.file ∧
      flat.root.children.map bare = sheet.root.children.map bare := by
  obtain ⟨flat, depth, hflat, hfile, hdepth, hbare⟩ := Sheet.flatten_of_lift _ (explode 2)
    (fun n hn => (htop n hn).isSettled.1) (fun m hm => ⟨hm.1, hm.isDiscarded⟩)
    (fun n hn => (htop n hn).lift_explode) fun p hp => by
      obtain ⟨n, hn, hpn⟩ := mem_flatMap.1 hp
      exact ((htop n hn).of_mem_explode hpn).isSettled.1
  refine ⟨flat, hflat, hfile, hbare.trans (congrArg _ ?_)⟩
  generalize sheet.root.children = ns at htop htidy hdepth
  cases ns with
  | nil => cases depth <;> rfl
  | cons n ns =>
    have hne : (n :: ns).flatMap (explode 2) ≠ [] := fun h =>
      (htop n mem_cons_self).explode_ne_nil 2 (flatMap_eq_nil_iff.1 h n mem_cons_self)
    -- Merging goes down far enough to put everything together again.
    obtain ⟨k, rfl⟩ := Nat.exists_eq_add_of_le' (hdepth hne)
    rw [← flatMap_congr fun n hn => (htop n hn).explode_eq k]
    exact mergeWithin_explode (k + 2) htop htidy

end Cascade
