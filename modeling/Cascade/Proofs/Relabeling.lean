import Cascade.Output.Css
import Cascade.Proofs.Layers

/-!
# Lines, comments and scopes do not matter

What a node is and where it stands in its parent decide what flattening does with it and what its
text is.  The line it was read from, the comments by it and the names counted in its block do not.
-/

set_option autoImplicit false

namespace Cascade

open Node List Function

/-! ## Other labels -/

namespace Node

theorem relabeled_relabeled (g h : Label → Label) (n : Node) :
    relabeled g (relabeled h n) = relabeled (fun l => g (h l)) n := by
  induction n using ind with
  | mk l cs ih =>
    rw [relabeled_mk, relabeled_mk, relabeled_mk, map_map]
    exact congrArg _ (map_congr_left ih)

theorem children_relabeled (g : Label → Label) (n : Node) :
    (n.relabeled g).children = n.children.map (relabeled g) := by
  cases n
  rw [relabeled_mk, children_mk, children_mk]

theorem relabeled_withChildren (g : Label → Label) (n : Node) (cs : List Node) :
    (n.withChildren cs).relabeled g = (n.relabeled g).withChildren (cs.map (relabeled g)) := by
  cases n
  rw [withChildren, withChildren, relabeled_mk, relabeled_mk, label_mk, label_mk]

theorem modify_relabeled {g : Label → Label} {change change' : Node → Node}
    (h : ∀ n, change' (relabeled g n) = relabeled g (change n)) (cs : List Node) (i : Nat) :
    (cs.map (relabeled g)).modify i change' = (cs.modify i change).map (relabeled g) := by
  refine ext_getElem? fun j => ?_
  rw [getElem?_map, getElem?_modify, getElem?_modify, getElem?_map]
  cases cs[j]? with
  | none => simp
  | some c => by_cases hij : i = j <;> simp [hij, h]

theorem size_relabeled (g : Label → Label) (n : Node) : (n.relabeled g).size = n.size := by
  have hall : ∀ cs : List Node, (∀ c ∈ cs, (c.relabeled g).size = c.size) →
      sizeAll (cs.map (relabeled g)) = sizeAll cs := by
    intro cs hcs
    induction cs with
    | nil => rfl
    | cons c cs ih =>
      obtain ⟨hc, hcs⟩ := forall_mem_cons.1 hcs
      rw [map_cons, sizeAll, sizeAll, hc, ih hcs]
  induction n using ind with
  | mk l cs ih => rw [relabeled_mk, size, size, hall cs ih]

theorem preorder_relabeled (g : Label → Label) (n : Node) :
    (n.relabeled g).preorder = n.preorder.map (relabeled g) := by
  induction n using ind with
  | mk l cs ih =>
    rw [relabeled_mk, preorder, preorder, preorderAll_eq_flatMap, preorderAll_eq_flatMap,
      flatMap_map, map_cons, relabeled_mk, map_flatMap]
    exact congrArg _ (flatMap_congr ih)

end Node

/-- New labels have the kinds of the old ones and stand in the same places. -/
structure KeepsPlace (g : Label → Label) : Prop where
  kind : ∀ l, (g l).kind = l.kind
  relation : ∀ l, (g l).relation = l.relation

section Relabeled

variable {g : Label → Label} (hg : KeepsPlace g)

include hg

namespace Node

theorem kind_relabeled (n : Node) : (n.relabeled g).kind = n.kind := by
  cases n
  exact hg.kind _

theorem relation_relabeled (n : Node) : (n.relabeled g).relation = n.relation := by
  cases n
  exact hg.relation _

theorem rules?_relabeled (n : Node) : (n.relabeled g).rules? = n.rules?.map (relabeled g) := by
  obtain ⟨l, cs⟩ := n
  rw [relabeled_mk, rules?, rules?, child?, child?, children_mk, children_mk, find?_map]
  simp only [comp_def, relation_relabeled hg]

theorem isKept_relabeled (n : Node) : (n.relabeled g).isKept = n.isKept := by
  have hempty : ∀ b : Node, (b.relabeled g).children.isEmpty = b.children.isEmpty := by
    rintro ⟨l, cs⟩
    simp [relabeled_mk]
  rw [isKept, isKept, isEmptyRule, isEmptyRule, kind_relabeled hg, rules?_relabeled hg]
  cases n.rules? with
  | none => rfl
  | some b => simp only [Option.map_some, hempty]

/-- Removing what is empty. -/
theorem dropEmptyAll_relabeled {cs : List Node}
    (h : ∀ c ∈ cs, (relabeled g c).dropEmpty = c.dropEmpty.relabeled g) :
    dropEmptyAll (cs.map (relabeled g)) = (dropEmptyAll cs).map (relabeled g) := by
  have hmap : (cs.map (relabeled g)).map dropEmpty = (cs.map dropEmpty).map (relabeled g) := by
    rw [map_map, map_map]
    exact map_congr_left h
  rw [dropEmptyAll_eq_filter, dropEmptyAll_eq_filter, hmap, filter_map]
  simp only [comp_def, isKept_relabeled hg]

theorem dropEmpty_relabeled (n : Node) : (n.relabeled g).dropEmpty = n.dropEmpty.relabeled g := by
  induction n using ind with
  | mk l cs ih =>
    rw [relabeled_mk, dropEmpty, dropEmpty, relabeled_mk, dropEmptyAll_relabeled hg ih]

theorem updateRules_relabeled {change change' : Node → Node}
    (hchange : ∀ b, change' (relabeled g b) = relabeled g (change b)) (n : Node) :
    (n.relabeled g).updateRules change' = (n.updateRules change).relabeled g := by
  obtain ⟨l, cs⟩ := n
  rw [relabeled_mk, updateRules, updateRules, findIdx?_map]
  simp only [comp_def, relation_relabeled hg]
  cases cs.findIdx? fun c => c.relation == some .rules with
  | none => rw [relabeled_mk]
  | some i => simp only [relabeled_mk, modify_relabeled hchange]

theorem merged?_relabeled (a b : Node) :
    (a.relabeled g).merged? (b.relabeled g) = (a.merged? b).map (relabeled g) := by
  rw [merged?, merged?, kind_relabeled hg, kind_relabeled hg, rules?_relabeled hg,
    rules?_relabeled hg]
  cases a.kind.sameRule b.kind <;> cases a.rules? <;> cases b.rules? <;> try rfl
  rename_i source
  simp only [Option.map_some]
  congr 1
  refine updateRules_relabeled hg (fun block => ?_) a
  cases block
  cases source
  simp [relabeled_mk, withChildren]

end Node

theorem mergeAfter_relabeled (previous : Node) (ns : List Node) :
    mergeAfter (previous.relabeled g) (ns.map (relabeled g)) =
      (mergeAfter previous ns).map (relabeled g) := by
  induction ns generalizing previous with
  | nil => rfl
  | cons n ns ih =>
    rw [map_cons, mergeAfter, mergeAfter, merged?_relabeled hg]
    cases previous.merged? n with
    | none => rw [Option.map_none, map_cons, ← ih]
    | some merged => exact ih merged

theorem mergeRuns_relabeled (ns : List Node) :
    mergeRuns (ns.map (relabeled g)) = (mergeRuns ns).map (relabeled g) := by
  cases ns with
  | nil => rfl
  | cons n ns => exact mergeAfter_relabeled hg n ns

/-- Merging neighbours. -/
theorem mergeWithin_relabeled (depth : Nat) (ns : List Node) :
    mergeWithin depth (ns.map (relabeled g)) =
      (mergeWithin depth ns).map (relabeled g) := by
  induction depth generalizing ns with
  | zero => exact mergeRuns_relabeled hg ns
  | succ depth ih =>
    rw [mergeWithin_succ, mergeWithin_succ, mergeRuns_relabeled hg, map_map, map_map]
    refine map_congr_left fun n _ => ?_
    simp only [comp_apply, mergeInside, kind_relabeled hg]
    split
    · refine updateRules_relabeled hg (fun block => ?_) n
      cases block
      simp [relabeled_mk, withChildren, ih]
    · rfl

/-- Values under other labels. -/
theorem IsPlain.relabeled {v : Node} (hv : IsPlain v) : IsPlain (v.relabeled g) := by
  induction hv with
  | @literal l h =>
    rw [relabeled_mk]
    exact .literal (by rwa [hg.kind])
  | @group l cs h _ ih =>
    rw [relabeled_mk]
    exact .group (by rwa [hg.kind]) (forall_mem_map.2 ih)
  | @function l lp cs name h hk hr _ ih =>
    rw [relabeled_mk, map_singleton, relabeled_mk]
    exact .function ((hg.kind l).trans h) ((hg.kind lp).trans hk) ((hg.relation lp).trans hr)
      (forall_mem_map.2 ih)

end Relabeled

/-- A lifted node with every label changed. -/
def Lifted.relabeled (g : Label → Label) (lifted : Lifted) : Lifted :=
  { lifted with node := lifted.node.relabeled g }

/-! ## Labels without lines -/

/-- New labels without lines, which keep no more of a label than it says: a new node looks the same
with them, but for its line. -/
structure Erases (g : Label → Label) : Prop extends KeepsPlace g where
  line : ∀ l, (g l).line = 0
  fresh : ∀ kind line, g { kind, line } = { kind, line := 0 }
  placed : ∀ l relation, g { l with relation } = { g l with relation }

set_option linter.unusedSectionVars false

section Erased

variable {g : Label → Label} (hg : Erases g)

include hg

namespace Node

theorem relabeled_make (kind : Kind) (line : Nat) (cs : List Node) :
    (make kind line cs).relabeled g = make kind 0 (cs.map (relabeled g)) := by
  rw [make, relabeled_mk, hg.fresh]
  rfl

theorem relabeled_withRelation (n : Node) (r : Option Relation) :
    (n.withRelation r).relabeled g = (n.relabeled g).withRelation r := by
  cases n
  rw [withRelation, withRelation, relabeled_mk, relabeled_mk, label_mk, hg.placed]
  rfl

theorem line_relabeled (n : Node) : (n.relabeled g).line = 0 := by
  cases n
  exact hg.line _

theorem errorIn_relabeled (n : Node) (file : Option String) (cause : Cause) :
    (n.relabeled g).errorIn none cause = ⟨(n.errorIn file cause).cause, ⟨none, 0⟩⟩ := by
  rw [errorIn, errorIn, line_relabeled hg]

theorem relabeled_enclosed (kind : Kind) (n : Node) :
    (n.enclosed kind).relabeled g = (n.relabeled g).enclosed kind := by
  rw [enclosed, enclosed, relabeled_make hg, map_singleton, placed, relabeled_withRelation hg,
    relabeled_make hg, map_singleton, line_relabeled hg]
  rfl

end Node

/-- The queries around a statement. -/
theorem Context.wrap_relabeled (context : Context) (n : Node) :
    context.wrap (n.relabeled g) = (context.wrap n).relabeled g := by
  simp only [Context.wrap]
  cases context.supportsQuery <;> dsimp only <;> split <;>
    simp only [relabeled_enclosed hg]

/-! ## Flattening -/

mutual

theorem Node.dissolveBlocks_relabeled : ∀ n : Node,
    (n.relabeled g).dissolveBlocks = n.dissolveBlocks.relabeled g
  | mk l cs => by
    rw [relabeled_mk, dissolveBlocks, dissolveBlocks, relabeled_mk,
      dissolveBlocksAll_relabeled cs]

theorem Node.dissolveBlocksAll_relabeled : ∀ cs : List Node,
    dissolveBlocksAll (cs.map (relabeled g)) = (dissolveBlocksAll cs).map (relabeled g)
  | [] => rfl
  | mk l ks :: cs => by
    have hself := dissolveBlocks_relabeled (mk l ks)
    rw [relabeled_mk] at hself
    rw [map_cons, relabeled_mk, dissolveBlocksAll, dissolveBlocksAll, map_append, hself,
      dissolveBlocksAll_relabeled ks, dissolveBlocksAll_relabeled cs, hg.kind, hg.relation]
    congr 1
    split
    · rw [map_map, map_map]
      exact map_congr_left fun m _ => (relabeled_withRelation hg m none).symm
    · rfl

end

theorem Descent.enter_relabeled (file : Option String) (keep : Bool) (descent : Descent)
    (n : Node) :
    descent.enter none keep (n.relabeled g) = unplaced id (descent.enter file keep n) := by
  simp only [Descent.enter, kind_relabeled hg.toKeepsPlace]
  split
  case h_1 | h_2 =>
    split
    · rfl
    · exact congrArg Except.error (n.errorIn_relabeled hg file _)
  all_goals rfl

mutual

theorem Node.containers_relabeled (file : Option String) (descent : Descent) : ∀ n : Node,
    (n.relabeled g).containers none descent =
      unplaced (map (Lifted.relabeled g)) (n.containers file descent)
  | mk l cs => by
    have henter := descent.enter_relabeled hg file false (mk l cs)
    have hlifted (context : Context) : (⟨mk (g l) (cs.map (relabeled g)), context⟩ : Lifted) =
        Lifted.relabeled g ⟨mk l cs, context⟩ := by
      rw [Lifted.relabeled, relabeled_mk]
    rw [relabeled_mk] at henter ⊢
    rw [containers, containers, hg.kind, henter]
    split
    · rfl
    · refine unplaced_bind fun descent => ?_
      dsimp only [id_eq]
      split
      · exact congrArg (fun first => Except.ok [first]) (hlifted _)
      · rw [ruleContainers_relabeled file descent cs]
        refine unplaced_bind fun inner => ?_
        exact congrArg (fun first => Except.ok (first :: _)) (hlifted _)

theorem Node.ruleContainers_relabeled (file : Option String) (descent : Descent) :
    ∀ cs : List Node, ruleContainers none descent (cs.map (relabeled g)) =
      unplaced (map (Lifted.relabeled g)) (ruleContainers file descent cs)
  | [] => rfl
  | mk l ks :: cs => by
    rw [map_cons, relabeled_mk, ruleContainers, ruleContainers, hg.relation,
      containersAll_relabeled file descent ks, ruleContainers_relabeled file descent cs]
    split <;> rfl

theorem Node.containersAll_relabeled (file : Option String) (descent : Descent) :
    ∀ cs : List Node, containersAll none descent (cs.map (relabeled g)) =
      unplaced (map (Lifted.relabeled g)) (containersAll file descent cs)
  | [] => rfl
  | c :: cs => by
    rw [map_cons, containersAll, containersAll, containers_relabeled file descent c,
      containersAll_relabeled file descent cs]
    refine unplaced_bind fun first => ?_
    refine unplaced_bind fun rest => ?_
    exact congrArg Except.ok map_append.symm

end

/-- What stands for a container. -/
theorem Lifted.rule?_relabeled (lifted : Lifted) :
    (lifted.relabeled g).rule? = lifted.rule?.map (Node.relabeled g) := by
  obtain ⟨n, context⟩ := lifted
  simp only [Lifted.rule?, Lifted.relabeled, kind_relabeled hg.toKeepsPlace,
    rules?_relabeled hg.toKeepsPlace]
  split
  · rfl
  · cases n.rules? with
    | none => rfl
    | some block =>
      simp only [Option.map_some, children_relabeled, filter_map, comp_def,
        kind_relabeled hg.toKeepsPlace, isEmpty_map, line_relabeled hg]
      split
      · rfl
      · rw [Option.map_some, relabeled_make hg, map_singleton, placed, placed,
          relabeled_withRelation hg, relabeled_make hg]

/-- What a statement becomes. -/
theorem lift_relabeled (file : Option String) (n : Node) :
    lift none (n.relabeled g) = unplaced (map (relabeled g)) (lift file n) := by
  simp only [lift, partition_eq_filter_filter, kind_relabeled hg.toKeepsPlace]
  split
  · rfl
  · split
    · rfl
    · rw [containers_relabeled hg file]
      refine unplaced_bind fun found => ?_
      refine congrArg Except.ok ?_
      rw [filter_map, filter_map, ← map_append, filterMap_map, map_filterMap]
      have hrule (lifted : Lifted) :
          (lifted.relabeled g).rule?.map (lifted.relabeled g).context.wrap =
            (lifted.rule?.map lifted.context.wrap).map (relabeled g) := by
        rw [Lifted.rule?_relabeled hg, Option.map_map, Option.map_map]
        exact congrArg (Option.map · _) (funext (lifted.context.wrap_relabeled hg))
      simp only [comp_def, hrule]
      simp only [Lifted.relabeled, kind_relabeled hg.toKeepsPlace]

/-- **A stylesheet without lines is flattened as it is with them.** -/
theorem Sheet.flatten_relabeled {sheet sheet' : Sheet} (hfile : sheet'.file = none)
    (hroot : sheet'.root = sheet.root.relabeled g) :
    sheet'.flatten = unplaced (fun flat => sheet'.withRoot (flat.root.relabeled g)) sheet.flatten := by
  have hlift : (sheet.root.dissolveBlocks.children.map (relabeled g)).mapM (lift none) = _ :=
    unplaced_mapM fun n _ => lift_relabeled hg sheet.file n
  simp only [Sheet.flatten, hfile, hroot, dissolveBlocks_relabeled hg, children_relabeled]
  refine (congrArg (· >>= _) hlift).trans ?_
  refine unplaced_bind fun lifted => ?_
  refine congrArg (fun root => Except.ok (sheet'.withRoot root)) ?_
  rw [← map_flatten, ← relabeled_withChildren,
    dropEmpty_relabeled hg.toKeepsPlace, size_relabeled, children_relabeled,
    mergeWithin_relabeled hg.toKeepsPlace]
  exact (relabeled_withChildren _ _ _).symm

/-! ## Texts -/

theorem Label.unwritable_relabeled (file : Option String) (l : Label) :
    (g l).unwritable none = ⟨(l.unwritable file).cause, ⟨none, 0⟩⟩ := by
  rw [unwritable, unwritable, hg.kind, hg.line]

namespace Node

variable (file : Option String) (layout : Layout)

mutual

theorem cssValue_relabeled : ∀ n : Node,
    (n.relabeled g).cssValue none layout = unplaced id (n.cssValue file layout)
  | mk l cs => by
    rw [relabeled_mk, cssValue, cssValue, hg.kind, Label.unwritable_relabeled hg file,
      cssValues_relabeled cs, cssArguments_relabeled cs]
    split
    · exact unplaced_bind fun _ => rfl
    · exact unplaced_bind fun _ => rfl
    · exact unplaced_bind fun _ => rfl
    · exact unplaced_bind fun _ => rfl
    · split <;> rfl

theorem cssValues_relabeled : ∀ cs : List Node,
    cssValues none layout (cs.map (relabeled g)) = unplaced id (cssValues file layout cs)
  | [] => rfl
  | c :: cs => by
    rw [map_cons, cssValues, cssValues, cssValue_relabeled c, cssValues_relabeled cs]
    refine unplaced_bind fun text => ?_
    exact unplaced_bind fun _ => rfl

theorem cssArguments_relabeled : ∀ cs : List Node,
    cssArguments none layout (cs.map (relabeled g)) = unplaced id (cssArguments file layout cs)
  | [] => rfl
  | mk l ks :: cs => by
    rw [map_cons, relabeled_mk, cssArguments, cssArguments, hg.relation,
      cssValues_relabeled ks, cssArguments_relabeled cs]
    split <;> rfl

end

mutual

theorem css_relabeled (depth : Nat) : ∀ n : Node,
    (n.relabeled g).css none layout depth = unplaced id (n.css file layout depth)
  | mk l cs => by
    rw [relabeled_mk, css, css, hg.kind, Label.unwritable_relabeled hg file,
      cssValues_relabeled hg file layout cs, cssAll_relabeled depth cs]
    split
    · exact unplaced_bind fun _ => rfl
    · rfl
    · split
      · rfl
      · rw [cssRules_relabeled (depth + 1) cs]
        exact unplaced_bind fun _ => rfl

/-- **The text of statements** has no part of their lines. -/
theorem cssAll_relabeled (depth : Nat) : ∀ cs : List Node,
    cssAll none layout depth (cs.map (relabeled g)) = unplaced id (cssAll file layout depth cs)
  | [] => rfl
  | c :: cs => by
    rw [map_cons, cssAll, cssAll, css_relabeled depth c, cssAll_relabeled depth cs]
    refine unplaced_bind fun text => ?_
    exact unplaced_bind fun _ => rfl

theorem cssRules_relabeled (depth : Nat) : ∀ cs : List Node,
    cssRules none layout depth (cs.map (relabeled g)) =
      unplaced id (cssRules file layout depth cs)
  | [] => rfl
  | mk l ks :: cs => by
    rw [map_cons, relabeled_mk, cssRules, cssRules, hg.relation, cssAll_relabeled depth ks,
      cssRules_relabeled depth cs]
    split <;> rfl

end

end Node

end Erased

/-! ## Bare trees -/

/-- A label without line, comments and scope. -/
def Label.bare (l : Label) : Label where
  kind := l.kind
  line := 0
  relation := l.relation

/-- **A tree without lines, comments and scopes.** -/
def Node.bare (n : Node) : Node :=
  n.relabeled Label.bare

theorem erases_bare : Erases Label.bare where
  kind _ := rfl
  relation _ := rfl
  line _ := rfl
  fresh _ _ := rfl
  placed _ _ := rfl

theorem keepsPlace_bare : KeepsPlace Label.bare :=
  erases_bare.toKeepsPlace

theorem Node.bare_mk (l : Label) (cs : List Node) : (mk l cs).bare = mk l.bare (cs.map bare) :=
  relabeled_mk _ l cs

/-- The text of statements depends on the bare trees. -/
theorem Node.cssAll_of_bare_eq {file : Option String} {layout : Layout} {depth : Nat}
    {ns ms : List Node} (h : ns.map bare = ms.map bare) {text : String}
    (htext : cssAll file layout depth ns = .ok text) :
    cssAll file layout depth ms = .ok text := by
  have hbare (cs : List Node) : cssAll none layout depth (cs.map bare) =
      unplaced id (cssAll file layout depth cs) :=
    cssAll_relabeled erases_bare file layout depth cs
  have hms := hbare ms
  rw [← h, hbare, htext] at hms
  cases hcss : cssAll file layout depth ms with
  | ok text' =>
    rw [hcss] at hms
    exact hms.symm
  | error e =>
    rw [hcss] at hms
    cases hms

/-- The queries around a statement. -/
theorem Context.bare_wrap {context context' : Context} (hm : context.media = context'.media)
    (hs : context.supports = context'.supports) {n m : Node} (h : n.bare = m.bare) :
    (context.wrap n).bare = (context'.wrap m).bare := by
  have hwrap (n : Node) : context.wrap n = context'.wrap n := by
    rw [Context.wrap, Context.wrap, Context.supportsQuery, Context.supportsQuery, hm, hs]
  rw [hwrap, bare, bare, ← Context.wrap_relabeled erases_bare,
    ← Context.wrap_relabeled erases_bare]
  exact congrArg _ h

/-- Only the tree changes. -/
theorem Sheet.eq_withRoot_of_flatten {sheet flat : Sheet} (h : sheet.flatten = .ok flat) :
    flat = sheet.withRoot flat.root := by
  obtain ⟨lifted, -, h⟩ := bind_eq_ok.1 h
  cases h
  rfl

/-- **Flattening depends on the bare tree.** -/
theorem Sheet.flatten_of_bare_eq {sheet sheet' flat : Sheet} (hfile : sheet'.file = sheet.file)
    (h : sheet.root.bare = sheet'.root.bare) (hflat : sheet.flatten = .ok flat) :
    ∃ flat', sheet'.flatten = .ok flat' ∧ flat'.file = flat.file ∧
      flat.root.children.map bare = flat'.root.children.map bare := by
  have hflatten (sheet : Sheet) : Sheet.flatten { root := sheet.root.bare } =
      unplaced (fun flat => { root := flat.root.bare }) sheet.flatten :=
    Sheet.flatten_relabeled erases_bare rfl rfl
  have hbare := hflatten sheet'
  rw [← h, hflatten sheet, hflat] at hbare
  cases hflat' : sheet'.flatten with
  | error e =>
    rw [hflat'] at hbare
    cases hbare
  | ok flat' =>
    rw [hflat'] at hbare
    have hroot : flat.root.bare = flat'.root.bare := congrArg Sheet.root (Except.ok.inj hbare)
    refine ⟨flat', rfl, ?_, ?_⟩
    · rw [Sheet.eq_withRoot_of_flatten hflat', Sheet.eq_withRoot_of_flatten hflat]
      exact hfile
    · have hchildren := congrArg children hroot
      rwa [bare, bare, children_relabeled, children_relabeled] at hchildren

end Cascade
