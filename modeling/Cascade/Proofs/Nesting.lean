import Cascade.Proofs.Contexts

/-!
# Selectors put together in two steps

A mixin that is extended from rules further inside collects their selectors, put together only up to
the block that the mixin stands in.  What is around that block is added later, when the mixin is
lifted out.  This file is about the question whether the two steps give the selectors that one step
gives, from the outermost rule down to the use.

Nesting is associative as long as `&` only stands at the front of a selector.  Further back it
stands for everything around, and if it has been replaced by a part of that in the first step, the
second step puts the rest in the wrong place.  In the same way, rules that start at the root again
must not stand in between, since the second step does not know of them.
-/

set_option autoImplicit false

namespace Cascade

open Node List

variable {file : Option String} {n : Node} {sheet : Sheet} {keep : Bool} {q path : Path}
  {d : Descent} {selectors : List String} (atRoot : Bool)

/-! ## Replacing one character -/

theorem replaceAll_singleton (d : Char) (replacement cs : List Char) :
    Text.replaceAll [d] replacement cs =
      cs.flatMap fun c => if c = d then replacement else [c] := by
  rw [Text.replaceAll]
  induction cs with
  | nil => rfl
  | cons c cs ih =>
    rw [Text.replaceAfter, flatMap_cons]
    by_cases h : c = d
    · subst h
      simp [isPrefixOf, ih]
    · have hne : (d == c) = false := beq_eq_false_iff_ne.2 (Ne.symm h)
      simp [isPrefixOf, hne, h, ih]

/-- A text with every `&` replaced. -/
def fillAmpersand (outer cs : List Char) : List Char :=
  cs.flatMap fun c => if c = '&' then outer else [c]

theorem fillAmpersand_append (outer as bs : List Char) :
    fillAmpersand outer (as ++ bs) = fillAmpersand outer as ++ fillAmpersand outer bs :=
  flatMap_append

theorem fillAmpersand_of_not_mem {outer cs : List Char} (h : '&' ∉ cs) :
    fillAmpersand outer cs = cs := by
  induction cs with
  | nil => rfl
  | cons c cs ih =>
    obtain ⟨hc, hcs⟩ := not_or.1 (mem_cons.not.1 h)
    rw [fillAmpersand, flatMap_cons, if_neg (Ne.symm hc)]
    exact congrArg (c :: ·) (ih hcs)

/-- What is put in place of `&` may have `&` in it. -/
theorem fillAmpersand_fillAmpersand (outer middle cs : List Char) :
    fillAmpersand outer (fillAmpersand middle cs) =
      fillAmpersand (fillAmpersand outer middle) cs := by
  rw [fillAmpersand, fillAmpersand, flatMap_assoc]
  refine flatMap_congr fun c _ => ?_
  by_cases h : c = '&' <;> simp [h, fillAmpersand]

theorem mem_fillAmpersand {outer cs : List Char} :
    '&' ∈ fillAmpersand outer cs ↔ '&' ∈ outer ∧ '&' ∈ cs := by
  rw [fillAmpersand, mem_flatMap]
  constructor
  · rintro ⟨c, hc, h⟩
    split at h
    · exact ⟨h, ‹c = '&'› ▸ hc⟩
    · exact absurd (mem_singleton.1 h).symm ‹_›
  · rintro ⟨ho, hc⟩
    exact ⟨'&', hc, by rwa [if_pos rfl]⟩

/-! ## Single selectors -/

theorem hasParentReference_iff {selector : String} :
    hasParentReference selector = true ↔ '&' ∈ selector.toList := by
  rw [hasParentReference, contains_iff_mem]

/-- The characters of a nested selector. -/
theorem toList_nestSelector (outer inner : String) : (nestSelector atRoot outer inner).toList =
      if '&' ∈ inner.toList then fillAmpersand outer.toList inner.toList
      else if atRoot then inner.toList
      else outer.toList ++ ' ' :: inner.toList := by
  simp only [nestSelector, hasParentReference_iff]
  split
  · rw [Text.replaced, String.toList_ofList]
    exact replaceAll_singleton '&' _ _
  · split
    · rfl
    · simp

/-- **A selector with `&` at its front only**, if at all. -/
def FrontOnly (selector : String) : Prop :=
  '&' ∈ selector.toList → ∃ rest, selector.toList = '&' :: rest ∧ '&' ∉ rest

/-- **Nesting is associative** for selectors with `&` at the front only. -/
theorem nestSelector_assoc (outer middle : String) {inner : String} (h : FrontOnly inner) :
    nestSelector atRoot outer (nestSelector false middle inner) =
      nestSelector false (nestSelector atRoot outer middle) inner := by
  refine String.toList_injective ?_
  rw [toList_nestSelector, toList_nestSelector, toList_nestSelector, toList_nestSelector]
  by_cases hinner : '&' ∈ inner.toList
  · simp only [hinner, if_true, mem_fillAmpersand, and_true]
    by_cases hmiddle : '&' ∈ middle.toList
    · simp only [hmiddle, if_true]
      exact fillAmpersand_fillAmpersand _ _ _
    · obtain ⟨rest, hfront, hrest⟩ := h hinner
      have hfill (cs : List Char) : fillAmpersand cs inner.toList = cs ++ rest := by
        rw [hfront, ← singleton_append, fillAmpersand_append, fillAmpersand_of_not_mem hrest]
        simp [fillAmpersand]
      simp only [hmiddle, if_false, hfill]
      cases atRoot <;> simp
  · have hcombined : '&' ∈ middle.toList ++ ' ' :: inner.toList ↔ '&' ∈ middle.toList := by
      simp [hinner]
    simp only [hinner, if_false, Bool.false_eq_true, hcombined]
    by_cases hmiddle : '&' ∈ middle.toList
    · have hblank : '&' ∉ ' ' :: inner.toList := by simp [hinner]
      simp only [hmiddle, if_true]
      rw [fillAmpersand_append, fillAmpersand_of_not_mem hblank]
    · simp only [hmiddle, if_false]
      cases atRoot <;> simp

/-! ## Lists of selectors -/

theorem combineSelectors_nonempty {outer : List String} (inner : List String) (atRoot keep : Bool)
    (h : outer ≠ []) : ∃ selectors, combineSelectors outer inner atRoot keep = .ok selectors ∧
      ∀ x, x ∈ selectors ↔ ∃ o ∈ outer, ∃ i ∈ inner, x = nestSelector atRoot o i := by
  refine ⟨_, by rw [combineSelectors, if_neg (by simpa using h)], fun x => ?_⟩
  simp only [mem_eraseDups, mem_flatMap, mem_map, eq_comm]

theorem combineSelectors_keep {outer : List String} (inner : List String) (atRoot keep keep' : Bool)
    (h : outer ≠ []) :
    combineSelectors outer inner atRoot keep = combineSelectors outer inner atRoot keep' := by
  rw [combineSelectors, combineSelectors, if_neg (by simpa using h), if_neg (by simpa using h)]

theorem combineSelectors_nil {inner : List String} {atRoot : Bool} :
    combineSelectors [] inner atRoot keep = .ok selectors ↔
      selectors = inner ∧ (keep = true ∨ ∀ s ∈ inner, '&' ∉ s.toList) := by
  rw [combineSelectors, isEmpty_nil, if_pos rfl]
  cases hstray : inner.find? hasParentReference with
  | none =>
    have hnone : ∀ s ∈ inner, '&' ∉ s.toList := fun s hs hamp => by
      have := find?_eq_none.1 hstray s hs
      exact this (hasParentReference_iff.2 hamp)
    rw [Except.ok.injEq, eq_comm, and_iff_left (.inr hnone)]
  | some stray =>
    have hmem := mem_of_find?_eq_some hstray
    have hamp := hasParentReference_iff.1 (find?_some hstray)
    cases keep with
    | true => simp [eq_comm]
    | false =>
      simp only [Bool.false_eq_true, if_false, reduceCtorEq, false_or, false_iff, not_and,
        not_forall, not_not]
      exact fun _ => ⟨stray, hmem, hamp⟩

/-! ## The way down -/

/-- A node that does not come in between the two steps: it does not start at the root again, and its
selectors have `&` at their front only. -/
structure Kind.Splits (kind : Kind) : Prop where
  startsAtRoot : kind.startsAtRoot = false
  names : ∀ names, kind.nested? = some names → names ≠ [] ∧ ∀ s ∈ names, FrontOnly s

/-- **What the two ways down have in common.**  The first one starts in the middle, the second one
with the selectors `outer` that are there, and the selectors of the second one are those of the
first one inside of `outer`. -/
inductive Descent.Split (outer : List String) (atRoot : Bool) (part whole : Descent) : Prop
  /-- No rule has been entered yet. -/
  | start (hpart : part.context.selectors = []) (hwhole : whole.context.selectors = outer)
      (hpartRoot : part.atRoot = false) (hwholeRoot : whole.atRoot = atRoot)
  | inside (hpart : part.context.selectors ≠ [])
      (hwhole : ∀ x, x ∈ whole.context.selectors ↔
        ∃ o ∈ outer, ∃ m ∈ part.context.selectors, x = nestSelector atRoot o m)
      (hpartRoot : part.atRoot = false) (hwholeRoot : whole.atRoot = false)

section Split

variable {file : Option String} {outer : List String} {atRoot : Bool}
  {part whole part' whole' : Descent}

/-- Both ways enter a rule. -/
theorem Descent.Split.nest {names : List String} (houter : outer ≠ [])
    (h : Split outer atRoot part whole) (hnames : names ≠ []) (hfront : ∀ s ∈ names, FrontOnly s)
    (hpart : combineSelectors part.context.selectors names part.atRoot true =
      .ok part'.context.selectors)
    (hwhole : combineSelectors whole.context.selectors names whole.atRoot false =
      .ok whole'.context.selectors)
    (hpartRoot : part'.atRoot = false) (hwholeRoot : whole'.atRoot = false) :
    Split outer atRoot part' whole' := by
  cases h with
  | start hp hw hpr hwr =>
    rw [hp, combineSelectors_nil] at hpart
    obtain ⟨selectors, hcombine, hmem⟩ := combineSelectors_nonempty names atRoot false houter
    rw [hw, hwr, hcombine] at hwhole
    cases hwhole
    exact .inside (hpart.1 ▸ hnames) (hpart.1 ▸ hmem) hpartRoot hwholeRoot
  | inside hp hw hpr hwr =>
    obtain ⟨o, ho⟩ := exists_mem_of_ne_nil _ houter
    obtain ⟨m, hm⟩ := exists_mem_of_ne_nil _ hp
    obtain ⟨s, hs⟩ := exists_mem_of_ne_nil _ hnames
    have hwne : whole.context.selectors ≠ [] := ne_nil_of_mem ((hw _).2 ⟨o, ho, m, hm, rfl⟩)
    obtain ⟨ps, hps, hpmem⟩ := combineSelectors_nonempty names false true hp
    obtain ⟨ws, hws, hwmem⟩ := combineSelectors_nonempty names false false hwne
    rw [hpr, hps] at hpart
    rw [hwr, hws] at hwhole
    obtain rfl := Except.ok.inj hpart
    obtain rfl := Except.ok.inj hwhole
    refine .inside (ne_nil_of_mem ((hpmem _).2 ⟨m, hm, s, hs, rfl⟩)) (fun x => ?_) hpartRoot
      hwholeRoot
    rw [hwmem]
    constructor
    · rintro ⟨w, hwmem, s, hs, rfl⟩
      obtain ⟨o, ho, m, hm, rfl⟩ := (hw w).1 hwmem
      exact ⟨o, ho, _, (hpmem _).2 ⟨m, hm, s, hs, rfl⟩,
        (nestSelector_assoc atRoot o m (hfront s hs)).symm⟩
    · rintro ⟨o, ho, p, hp', rfl⟩
      obtain ⟨m, hm, s, hs, rfl⟩ := (hpmem p).1 hp'
      exact ⟨_, (hw _).2 ⟨o, ho, m, hm, rfl⟩, s, hs, nestSelector_assoc atRoot o m (hfront s hs)⟩

/-- Two ways down enter the same node. -/
theorem Descent.enter_both {keep' : Bool} (hpart : part.enter file keep n = .ok part')
    (hwhole : whole.enter file keep' n = .ok whole') :
    (∃ names, n.kind.nested? = some names ∧
      combineSelectors part.context.selectors names part.atRoot keep =
        .ok part'.context.selectors ∧
      combineSelectors whole.context.selectors names whole.atRoot keep' =
        .ok whole'.context.selectors ∧
      part'.atRoot = false ∧ whole'.atRoot = false) ∨
    (part'.context.selectors = part.context.selectors ∧
      whole'.context.selectors = whole.context.selectors ∧
      part'.atRoot = (part.atRoot || n.kind.startsAtRoot) ∧
      whole'.atRoot = (whole.atRoot || n.kind.startsAtRoot)) := by
  obtain ⟨names, hnames, hpart, hpr⟩ | ⟨hnone, hpart, hpr⟩ := enter_cases hpart <;>
    obtain ⟨names', hnames', hwhole, hwr⟩ | ⟨hnone', hwhole, hwr⟩ := enter_cases hwhole
  · obtain rfl : names = names' := Option.some.inj (hnames.symm.trans hnames')
    exact .inl ⟨names, hnames, hpart, hwhole, hpr, hwr⟩
  · cases hnames.symm.trans hnone'
  · cases hnames'.symm.trans hnone
  · exact .inr ⟨hpart, hwhole, hpr, hwr⟩

/-- **One step of the two ways down.** -/
theorem Descent.Split.enter (houter : outer ≠ []) (h : Split outer atRoot part whole)
    (hn : n.kind.Splits) (hpart : part.enter file true n = .ok part')
    (hwhole : whole.enter file false n = .ok whole') : Split outer atRoot part' whole' := by
  obtain ⟨names, hnames, hpart, hwhole, hpr, hwr⟩ | ⟨hpart, hwhole, hpr, hwr⟩ :=
    enter_both hpart hwhole
  · obtain ⟨hne, hfront⟩ := hn.names names hnames
    exact h.nest houter hne hfront hpart hwhole hpr hwr
  · rw [hn.startsAtRoot, Bool.or_false] at hpr hwr
    cases h with
    | start hp hw hpr' hwr' =>
      exact .start (hpart.trans hp) (hwhole.trans hw) (hpr.trans hpr') (hwr.trans hwr')
    | inside hp hw hpr' hwr' =>
      exact .inside (hpart ▸ hp) (by rwa [hwhole, hpart]) (hpr.trans hpr') (hwr.trans hwr')

/-- Without selectors around, the two ways down are one, and there is no `&` to replace. -/
structure Descent.Alike (part whole : Descent) : Prop where
  selectors : whole.context.selectors = part.context.selectors
  atRoot : part.context.selectors = [] ∨ whole.atRoot = part.atRoot
  closed : ∀ s ∈ part.context.selectors, '&' ∉ s.toList

theorem Descent.Alike.enter (h : Alike part whole) (hpart : part.enter file true n = .ok part')
    (hwhole : whole.enter file false n = .ok whole') : Alike part' whole' := by
  obtain ⟨names, -, hpart, hwhole, hpr, hwr⟩ | ⟨hpart, hwhole, hpr, hwr⟩ :=
    enter_both hpart hwhole
  · rw [h.selectors] at hwhole
    by_cases hp : part.context.selectors = []
    · rw [hp, combineSelectors_nil] at hpart hwhole
      refine ⟨hwhole.1.trans hpart.1.symm, .inr (hwr.trans hpr.symm), ?_⟩
      rw [hpart.1]
      exact hwhole.2.resolve_left nofun
    · rw [h.atRoot.resolve_left hp, combineSelectors_keep _ _ false true hp, hpart] at hwhole
      refine ⟨(Except.ok.inj hwhole).symm, .inr (hwr.trans hpr.symm), fun x hx => ?_⟩
      obtain ⟨ps, hps, hmem⟩ := combineSelectors_nonempty names part.atRoot true hp
      obtain rfl := Except.ok.inj (hps.symm.trans hpart)
      obtain ⟨o, ho, i, -, rfl⟩ := (hmem x).1 hx
      have ho := hasParentReference_eq_false.2 (h.closed o ho)
      exact hasParentReference_eq_false.1 (nestSelector_standalone ho)
  · refine ⟨by rw [hwhole, hpart, h.selectors], ?_, hpart ▸ h.closed⟩
    rw [hpart, hwr, hpr]
    exact h.atRoot.imp_right fun heq => by rw [heq]

/-- **What two ways down through the same nodes keep**, if every step keeps it. -/
theorem Descent.foldlM_both {R : Descent → Descent → Prop} {nodes : List Node}
    (hstep : ∀ n ∈ nodes, ∀ {part whole part' whole' : Descent}, R part whole →
      part.enter file true n = .ok part' → whole.enter file false n = .ok whole' →
        R part' whole')
    (h : R part whole) (hpart : nodes.foldlM (Descent.enter file true) part = .ok part')
    (hwhole : nodes.foldlM (Descent.enter file false) whole = .ok whole') : R part' whole' := by
  induction nodes generalizing part whole with
  | nil =>
    rw [foldlM_nil, pure_eq_ok] at hpart hwhole
    exact hpart ▸ hwhole ▸ h
  | cons n nodes ih =>
    obtain ⟨hn, hnodes⟩ := forall_mem_cons.1 hstep
    rw [foldlM_cons] at hpart hwhole
    obtain ⟨p, hp, hpart⟩ := bind_eq_ok.1 hpart
    obtain ⟨w, hw, hwhole⟩ := bind_eq_ok.1 hwhole
    exact ih hnodes (hn h hp hw) hpart hwhole

end Split

/-! ## Ways down in a tree -/

namespace Node

theorem chain_cons {c : Node} {i : Nat} (hc : n.children[i]? = some c) (p : Path) :
    n.chain (i :: p) = n :: c.chain p := by
  rw [chain, hc]

theorem length_chain {m : Node} (h : n.get? q = some m) : (n.chain q).length = q.length + 1 := by
  induction q generalizing n with
  | nil => rfl
  | cons i q ih =>
    rw [get?] at h
    split at h
    · rename_i c hc
      rw [chain_cons hc, length_cons, ih h, length_cons]
    · cases h

theorem chain_append {m : Node} (h : n.get? q = some m) (r : Path) :
    n.chain (q ++ r) = n.chain q ++ (m.chain r).tail := by
  induction q generalizing n with
  | nil =>
    cases h
    cases r <;> rfl
  | cons i q ih =>
    rw [get?] at h
    split at h
    · rename_i c hc
      rw [cons_append, chain_cons hc, chain_cons hc, ih h, cons_append]
    · cases h

/-- The kinds on the way to a mixin that is extended from further back. -/
theorem map_kind_chain_extended {m : Node} {rest : Path} {i j : Nat} (hji : j < i)
    (hm : n.get? (q ++ [j]) = some m) (graft : Node → Node) (new : List Node) :
    (((n.update graft (q ++ [j])).splice new (q ++ i :: rest)).chain (q ++ [j])).map kind =
      (n.chain q).map kind ++ [(graft m).kind] := by
  induction q generalizing n with
  | nil =>
    obtain ⟨l, cs⟩ := n
    have hj : cs[j]? = some m := by
      simp only [nil_append, get?, children_mk] at hm
      split at hm
      · rw [‹cs[j]? = _›, Option.some.inj hm]
      · cases hm
    have hspliced : (((mk l cs).update graft [j]).splice new (i :: rest)).children[j]? =
        some (graft m) := by
      have hlen : j < cs.length := (List.getElem?_eq_some_iff.1 hj).1
      cases rest with
      | nil =>
        have htake : j < (take i (cs.modify j graft)).length := by
          rw [length_take, length_modify]
          omega
        simp only [splice, update, withChildren, children_mk]
        rw [append_assoc, getElem?_append_left htake, getElem?_take_of_lt hji,
          getElem?_modify_eq, hj]
        rfl
      | cons k rest =>
        simp [splice, update, withChildren, hj, hji.ne']
    rw [nil_append, nil_append, chain_cons hspliced]
    cases rest <;> rfl
  | cons k q ih =>
    obtain ⟨l, cs⟩ := n
    simp only [cons_append, get?, children_mk] at hm
    split at hm
    · rename_i c hc
      obtain ⟨a, b, hab⟩ := exists_cons_of_ne_nil (append_ne_nil_of_right_ne_nil q
        (cons_ne_nil i rest))
      have hspliced : (((mk l cs).update graft (k :: (q ++ [j]))).splice new
          (k :: (q ++ i :: rest))).children[k]? =
            some ((c.update graft (q ++ [j])).splice new (q ++ i :: rest)) := by
        rw [hab]
        simp only [splice, update, withChildren, children_mk]
        rw [getElem?_modify_eq, getElem?_modify_eq, hc]
        rfl
      rw [cons_append, cons_append, chain_cons hspliced, map_cons, ih hm,
        chain_cons hc, map_cons, cons_append, hab]
      rfl
    · cases hm

end Node

theorem foldlM_enter_append {ns : List Node} {d' : Descent}
    (h : ns.foldlM (Descent.enter file keep) d = .ok d') (ms : List Node) :
    (ns ++ ms).foldlM (Descent.enter file keep) d = ms.foldlM (Descent.enter file keep) d' := by
  rw [foldlM_append, h]
  rfl

theorem foldlM_enter_singleton (file : Option String) (keep : Bool) (n : Node) (d : Descent) :
    [n].foldlM (Descent.enter file keep) d = d.enter file keep n := by
  rw [foldlM_cons]
  exact bind_pure _

theorem foldlM_enter_congr {ns ms : List Node} {d' : Descent}
    (hkinds : ns.map kind = ms.map kind)
    (h : ns.foldlM (Descent.enter file false) d = .ok d') :
    ms.foldlM (Descent.enter file false) d = .ok d' := by
  induction ns generalizing ms d with
  | nil =>
    cases ms with
    | nil => exact h
    | cons m ms => cases hkinds
  | cons n ns ih =>
    cases ms with
    | nil => cases hkinds
    | cons m ms =>
      obtain ⟨hk, hks⟩ := cons.inj hkinds
      rw [foldlM_cons] at h ⊢
      obtain ⟨e, he, h⟩ := bind_eq_ok.1 h
      rw [Descent.enter_congr hk he]
      exact ih hks h

/-! ## Mixins that are extended -/

/-- A mixin that is extended has the new selectors and those that it had. -/
theorem nested?_extended {kind : Kind} (h : kind.isMixin = true) :
    ∃ names, (extended selectors kind).nested? = some names ∧
      ∀ s, s ∈ names ↔ s ∈ selectors ∨ ∃ old, kind.nested? = some old ∧ s ∈ old := by
  have hfold (old all : List String) (s : String) :
      s ∈ old.foldl (fun all old => if all.contains old then all else all ++ [old]) all ↔
        s ∈ all ∨ s ∈ old := by
    induction old generalizing all with
    | nil => simp
    | cons o old ih =>
      rw [foldl_cons, ih]
      split
      · grind
      · simp only [mem_append, mem_cons, not_mem_nil, or_false, or_assoc]
  obtain ⟨name, selector, dropped, rfl⟩ := Kind.isMixin_iff.1 h
  refine ⟨_, rfl, fun s => ?_⟩
  rw [hfold]
  cases selector <;> simp [Kind.nested?]

/-- A use and its mixin stand in the same block, or the use stands further inside. -/
theorem Sheet.findMixin_turn {place : Path} {name : String}
    (h : sheet.findMixin path name = .ok place) :
    ∃ q i j rest, place = q ++ [j] ∧ path = q ++ i :: rest ∧ j < i := by
  unfold Sheet.findMixin at h
  split at h
  · rename_i hfind
    cases h
    obtain ⟨q, j, i, rest, m, rfl, rfl, hji, -⟩ := findMixinExcept?_spec hfind
    exact ⟨q, i, j, rest, rfl, rfl, hji⟩
  · cases h

theorem Sheet.contextAt_eq_ok {context : Context} : sheet.contextAt path none = .ok context ↔
      ∃ d, (sheet.root.chain path).foldlM (Descent.enter sheet.file false) {} = .ok d ∧
        d.context = context :=
  map_eq_ok

theorem Sheet.contextAt_below_eq_ok {r : Path} {context : Context} :
    sheet.contextAt (q ++ r) (some q) = .ok context ↔
      ∃ d, ((sheet.root.chain (q ++ r)).drop (q.length + 1)).foldlM
        (Descent.enter sheet.file true) {} = .ok d ∧ d.context = context := by
  rw [Sheet.contextAt]
  simp only [ isPrefixOf_iff_prefix.2 (prefix_append q r), if_true]
  exact map_eq_ok

/-- What giving selectors to a mixin does to the tree. -/
theorem Sheet.extendMixin_root {sheet' : Sheet} {place : Path} {name : String} {call mixin : Node}
    {between : Context} (hcall : sheet.root.get? path = some call)
    (hmixin : sheet.root.get? place = some mixin)
    (hbetween : sheet.contextAt path (some place.dropLast) = .ok between)
    (hmedia : between.media = []) (hsupports : between.supports = [])
    (hparams : mixin.hasParams = false) (h : sheet.extendMixin path place name = .ok sheet') :
    between.selectors ≠ [] ∧ sheet'.file = sheet.file ∧
      sheet'.root = (sheet.root.update
        (fun m => m.withKind (extended between.selectors m.kind)) place).splice
          (passedRules mixin call) path := by
  unfold Sheet.extendMixin at h
  rw [hcall, hmixin] at h
  obtain ⟨context, hcontext, h⟩ := bind_eq_ok.1 h
  obtain rfl := Except.ok.inj (hbetween.symm.trans hcontext)
  rw [if_neg (by simp [hmedia, hsupports, hparams])] at h
  split at h
  · cases h
  · rename_i hne
    cases h
    exact ⟨by simpa using hne, rfl, rfl⟩

/-- The two steps and the one step down to a use, if the mixin has got the selectors `names`. -/
theorem Descent.combine_extended {part whole : Descent} {below : List Node}
    {names before : List String} {existing : Option (List String)}
    (hsplit : d.context.selectors = [] ∨ ∀ n ∈ below, n.kind.Splits)
    (hpart : below.foldlM (Descent.enter file true) {} = .ok part)
    (hne : part.context.selectors ≠ [])
    (hwhole : below.foldlM (Descent.enter file false) d = .ok whole)
    (hnames : ∀ s, s ∈ names ↔ s ∈ part.context.selectors ∨ ∃ old, existing = some old ∧ s ∈ old)
    (hbefore : ∀ old, existing = some old →
      combineSelectors d.context.selectors old d.atRoot false = .ok before) :
    ∃ selectors, combineSelectors d.context.selectors names d.atRoot false = .ok selectors ∧
      ∀ s, s ∈ selectors ↔
        s ∈ whole.context.selectors ∨ existing.isSome = true ∧ s ∈ before := by
  by_cases houter : d.context.selectors = []
  · have halike : Alike part whole :=
      foldlM_both (fun _ _ _ _ _ _ => Alike.enter) ⟨houter, .inl rfl, by simp⟩ hpart hwhole
    simp only [houter, combineSelectors_nil] at hbefore ⊢
    refine ⟨names, ⟨rfl, .inr fun s hs => ?_⟩, fun s => ?_⟩
    · obtain hs | ⟨old, hold, hs⟩ := (hnames s).1 hs
      · exact halike.closed s hs
      · exact (hbefore old hold).2.resolve_left nofun s hs
    · rw [hnames, halike.selectors]
      refine or_congr_right ?_
      cases existing with
      | none => simp
      | some old => simp [(hbefore old rfl).1]
  · have hsplits := hsplit.resolve_left houter
    have h : Split d.context.selectors d.atRoot part whole :=
      foldlM_both (fun n hn _ _ _ _ h => h.enter houter (hsplits n hn))
        (.start rfl rfl rfl rfl) hpart hwhole
    obtain ⟨selectors, hcombine, hmem⟩ := combineSelectors_nonempty names d.atRoot false houter
    refine ⟨selectors, hcombine, fun s => ?_⟩
    cases h with
    | start hpart => exact absurd hpart hne
    | inside _ hw =>
      rw [hmem, hw]
      simp only [hnames, or_and_right, and_or_left, exists_or]
      refine or_congr_right ?_
      cases existing with
      | none => simp
      | some old =>
        obtain ⟨olds, hcombine, holds⟩ := combineSelectors_nonempty old d.atRoot false houter
        obtain rfl := Except.ok.inj (hcombine.symm.trans (hbefore old rfl))
        simp [holds]

/-- **The selectors of an extended mixin are those of the uses.**  Whenever a use gives its
selectors to a mixin, every selector that holds at the use is one of the mixin afterwards, and the mixin has
no others but those that it had before.  Either there are no selectors around the mixin, or `&`
stands only at the front of the selectors between the mixin and the use and no rule between them
starts at the root again. -/
theorem extendMixin_selectors {sheet sheet' : Sheet} {path place : Path} {name : String}
    {call mixin : Node} {between outer before whole : Context}
    (hfind : sheet.findMixin path name = .ok place) (hcall : sheet.root.get? path = some call)
    (hmixin : sheet.root.get? place = some mixin) (hmixinKind : mixin.kind.isMixin = true)
    (hbetween : sheet.contextAt path (some place.dropLast) = .ok between)
    (hmedia : between.media = []) (hsupports : between.supports = [])
    (hparams : mixin.hasParams = false)
    (houter : sheet.contextAt place.dropLast none = .ok outer)
    (hsplit : outer.selectors = [] ∨
      ∀ n ∈ (sheet.root.chain path).drop place.length, n.kind.Splits)
    (hbefore : sheet.contextAt place none = .ok before)
    (hwhole : sheet.contextAt path none = .ok whole)
    (h : sheet.extendMixin path place name = .ok sheet') :
    ∃ after, sheet'.contextAt place none = .ok after ∧ ∀ s, s ∈ after.selectors ↔
      s ∈ whole.selectors ∨ mixin.kind.nested?.isSome = true ∧ s ∈ before.selectors := by
  obtain ⟨hne, hfile, hroot⟩ := Sheet.extendMixin_root hcall hmixin hbetween hmedia hsupports
    hparams h
  obtain ⟨q, i, j, rest, rfl, rfl, hji⟩ := Sheet.findMixin_turn hfind
  rw [dropLast_concat] at hbetween houter
  rw [length_append, length_singleton] at hsplit
  obtain ⟨p, hp, hj⟩ := get?_append_singleton.1 hmixin
  -- The nodes on the way to the mixin's block, and those from there to the use.
  have hchain := chain_append hp (i :: rest)
  have hmixinChain : sheet.root.chain (q ++ [j]) = sheet.root.chain q ++ [mixin] := by
    rw [chain_append hp, chain_cons hj]
    rfl
  obtain ⟨part, hpart, rfl⟩ := Sheet.contextAt_below_eq_ok.1 hbetween
  obtain ⟨d, hd, rfl⟩ := Sheet.contextAt_eq_ok.1 houter
  obtain ⟨w, hw, rfl⟩ := Sheet.contextAt_eq_ok.1 hwhole
  obtain ⟨e, he, rfl⟩ := Sheet.contextAt_eq_ok.1 hbefore
  rw [chain_append hp, ← length_chain hp, drop_left] at hpart hsplit
  rw [hchain, foldlM_enter_append hd] at hw
  rw [hmixinChain, foldlM_enter_append hd, foldlM_enter_singleton] at he
  obtain ⟨names, hnames, hmem⟩ := @nested?_extended part.context.selectors _ hmixinKind
  have hold : ∀ old, mixin.kind.nested? = some old →
      combineSelectors d.context.selectors old d.atRoot false = .ok e.context.selectors := by
    intro old hold
    obtain ⟨names, hnames, hcombine, -⟩ | ⟨hnone, -⟩ := Descent.enter_cases he
    · obtain rfl : old = names := Option.some.inj (hold.symm.trans hnames)
      exact hcombine
    · cases hold.symm.trans hnone
  obtain ⟨selectors, hcombine, hselectors⟩ :=
    Descent.combine_extended hsplit hpart hne hw hmem hold
  let after : Descent := { context := { d.context with selectors } }
  refine ⟨after.context, Sheet.contextAt_eq_ok.2 ⟨after, ?_, rfl⟩, hselectors⟩
  have hkinds : ((sheet.root.chain q) ++ [mixin.withKind
        (extended part.context.selectors mixin.kind)]).map kind =
      (sheet'.root.chain (q ++ [j])).map kind := by
    rw [hroot, map_kind_chain_extended hji hmixin, map_append]
    rfl
  rw [hfile]
  refine foldlM_enter_congr hkinds ?_
  rw [foldlM_enter_append hd, foldlM_enter_singleton, Descent.enter_eq]
  simp only [withKind, kind_mk, hnames, hcombine]
  rfl

/-- A rule `.a` with a mixin, and in it a rule `&:hover` that extends the mixin. -/
def sheetWithHover : Sheet where
  root := .make .sheet 1
    [.make (.selector [".a"] []) 1
      [(make .block 1
        [.make (.mixin "m" none 0) 1
          [(make .params 1).placed .params, (make .block 1).placed .rules],
          .make (.selector ["&:hover"] []) 1
            [(make .block 1
              [.make (.call "m" true) 1 [(make .params 1).placed .params]]).placed
                .rules]]).placed .rules]]

/-- The mixin applies to the selector that `&:hover` stands for. -/
theorem extendMixin_selectors_hover :
    ∃ sheet' after, sheetWithHover.extendMixin [0, 0, 1, 0, 0] [0, 0, 0] "m" = .ok sheet' ∧
      sheet'.contextAt [0, 0, 0] none = .ok after ∧ ∀ s, s ∈ after.selectors ↔ s = ".a:hover" := by
  have hbetween : sheetWithHover.contextAt [0, 0, 1, 0, 0] (some [0, 0]) =
      .ok { selectors := ["&:hover"] } := by decide +kernel
  have houter : sheetWithHover.contextAt [0, 0] none = .ok { selectors := [".a"] } := by
    decide +kernel
  have hwhole : sheetWithHover.contextAt [0, 0, 1, 0, 0] none =
      .ok { selectors := [".a:hover"] } := by decide +kernel
  obtain ⟨sheet', hextend⟩ :
      ∃ sheet', sheetWithHover.extendMixin [0, 0, 1, 0, 0] [0, 0, 0] "m" = .ok sheet' :=
    ⟨_, rfl⟩
  have hfront : FrontOnly "&:hover" := fun _ => ⟨":hover".toList, by decide +kernel, by decide⟩
  have hsplits : ∀ n ∈ (sheetWithHover.root.chain [0, 0, 1, 0, 0]).drop [0, 0, 0].length,
      n.kind.Splits := by
    refine forall_mem_cons.2 ⟨⟨rfl, ?_⟩, forall_mem_cons.2 ⟨⟨rfl, nofun⟩,
      forall_mem_singleton.2 ⟨rfl, nofun⟩⟩⟩
    rintro _ ⟨⟩
    exact ⟨nofun, forall_mem_singleton.2 hfront⟩
  obtain ⟨after, hafter, hmem⟩ := extendMixin_selectors (by decide +kernel) rfl rfl rfl hbetween rfl
    rfl rfl houter (.inr hsplits) houter hwhole hextend
  refine ⟨sheet', after, hextend, hafter, fun s => ?_⟩
  rw [hmem, or_iff_left fun h => nomatch h.1]
  exact mem_singleton

/-- Where the two steps go wrong: `&` further back, and rules that start at the root again.  A use
that copies the mixin has the right selectors in the same place. -/
theorem extended_selectors_misplaced :
    compile { text := ".a\x7b$m\x7bc:d;\x7d.b\x7b.c &\x7b$m;\x7d\x7d\x7d" } {} {} =
        .ok ".a .c .b\x7bc:d;\x7d" ∧
      compile { text := ".a\x7b$m\x7bc:d;\x7d.b\x7b.c &\x7b$m();\x7d\x7d\x7d" } {} {} =
        .ok ".c .a .b\x7bc:d;\x7d" ∧
      compile { text := ".a\x7b$m\x7bc:d;\x7d@root\x7b.b\x7b$m;\x7d\x7d\x7d" } {} {} =
        .ok ".a .b\x7bc:d;\x7d" ∧
      compile { text := ".a\x7b$m\x7bc:d;\x7d@root\x7b.b\x7b$m();\x7d\x7d\x7d" } {} {} =
        .ok ".b\x7bc:d;\x7d" := by
  decide +kernel

end Cascade
