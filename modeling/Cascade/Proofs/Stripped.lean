import Cascade.Compile
import Cascade.Proofs.Places
import Cascade.Proofs.Relabeling

/-!
# Trees without lines and comments

Lines are there for the errors and comments for the reader.  No stage decides anything by them: what
a stage makes of a tree without lines and comments is what it makes of the tree itself, without
lines and comments, and if it fails, it fails for the same reason.
-/

set_option autoImplicit false

namespace Cascade

open Node List Function

variable (round : ExpansionRound) (sheet : Sheet) (n root mixin : Node) (file : Option String)
  (path : Path) (call : Node) (name : String) (place : Path)

/-! ## Trees -/

/-- A label without line and comments. -/
def Label.stripped (l : Label) : Label :=
  { l with line := 0, comments := [] }

theorem Label.kind_stripped (l : Label) : l.stripped.kind = l.kind := rfl

/-- **A tree without lines and comments.** -/
def Node.stripped (n : Node) : Node :=
  n.relabeled Label.stripped

theorem erases_stripped : Erases Label.stripped where
  kind _ := rfl
  relation _ := rfl
  line _ := rfl
  fresh _ _ := rfl
  placed _ _ := rfl

namespace Node

@[simp] theorem stripped_mk (l : Label) (cs : List Node) :
    (mk l cs).stripped = mk l.stripped (cs.map stripped) :=
  relabeled_mk _ l cs

@[simp] theorem stripped_stripped : n.stripped.stripped = n.stripped :=
  relabeled_relabeled _ _ n

@[simp] theorem kind_stripped : n.stripped.kind = n.kind :=
  kind_relabeled erases_stripped.toKeepsPlace n

@[simp] theorem relation_stripped : n.stripped.relation = n.relation :=
  relation_relabeled erases_stripped.toKeepsPlace n

@[simp] theorem label_stripped : n.stripped.label = n.label.stripped := by
  cases n
  rw [stripped_mk, label_mk, label_mk]

@[simp] theorem scope_stripped : n.stripped.scope = n.scope := by
  rw [scope, label_stripped]
  rfl

@[simp] theorem line_stripped : n.stripped.line = 0 :=
  line_relabeled erases_stripped n

@[simp] theorem children_stripped : n.stripped.children = n.children.map stripped :=
  children_relabeled _ n

@[simp] theorem stripped_make (kind : Kind) (line : Nat) (cs : List Node) :
    (make kind line cs).stripped = make kind 0 (cs.map stripped) :=
  relabeled_make erases_stripped kind line cs

@[simp] theorem stripped_withRelation (r : Option Relation) :
    (n.withRelation r).stripped = n.stripped.withRelation r :=
  relabeled_withRelation erases_stripped n r

@[simp] theorem stripped_placed (r : Relation) : (n.placed r).stripped = n.stripped.placed r :=
  stripped_withRelation n _

@[simp] theorem stripped_plain : n.plain.stripped = n.stripped.plain :=
  stripped_withRelation n _

@[simp] theorem stripped_withChildren (cs : List Node) :
    (n.withChildren cs).stripped = n.stripped.withChildren (cs.map stripped) :=
  relabeled_withChildren _ n cs

@[simp] theorem stripped_withKind (kind : Kind) :
    (n.withKind kind).stripped = n.stripped.withKind kind := by
  cases n
  rw [withKind, withKind, stripped_mk, stripped_mk]
  rfl

@[simp] theorem stripped_addComments (comments : List Comment) :
    (n.addComments comments).stripped = n.stripped := by
  cases n
  rw [addComments, stripped_mk, stripped_mk]
  rfl

@[simp] theorem child?_stripped (r : Relation) :
    n.stripped.child? r = (n.child? r).map stripped := by
  rw [child?, child?, children_stripped, find?_map]
  simp only [comp_def, relation_stripped]

@[simp] theorem rules?_stripped : n.stripped.rules? = n.rules?.map stripped :=
  child?_stripped n .rules

@[simp] theorem arguments_stripped : n.stripped.arguments = n.arguments.map stripped := by
  rw [arguments, arguments, child?_stripped]
  cases n.child? .params with
  | none => rfl
  | some ps => exact children_stripped ps

@[simp] theorem preorder_stripped : n.stripped.preorder = n.preorder.map stripped :=
  preorder_relabeled _ n

@[simp] theorem copied_stripped : n.stripped.copied = n.copied.stripped := by
  induction n using ind with
  | mk l cs ih =>
    rw [stripped_mk, copied, copied, stripped_mk, copiedAll_eq_map, copiedAll_eq_map, map_map,
      map_map]
    exact congrArg _ (map_congr_left ih)

@[simp] theorem size_stripped : n.stripped.size = n.size :=
  size_relabeled _ n

theorem errorIn_stripped (cause : Cause) :
    n.stripped.errorIn none cause = ⟨(n.errorIn file cause).cause, ⟨none, 0⟩⟩ :=
  errorIn_relabeled erases_stripped n file cause

/-! ## Places -/

@[simp] theorem get?_stripped : n.stripped.get? path = (n.get? path).map stripped := by
  induction path generalizing n with
  | nil => rfl
  | cons i path ih =>
    rw [get?, get?, children_stripped, getElem?_map]
    cases n.children[i]? with
    | none => rfl
    | some c => exact ih c

theorem update_stripped {change change' : Node → Node}
    (h : ∀ n, change' n.stripped = (change n).stripped) (n : Node) (path : Path) :
    n.stripped.update change' path = (n.update change path).stripped := by
  induction path generalizing n with
  | nil => exact h n
  | cons i path ih =>
    rw [update, update, stripped_withChildren, children_stripped]
    exact congrArg _ (modify_relabeled ih n.children i)

theorem splice_stripped (replacement : List Node) (n : Node) (path : Path) :
    n.stripped.splice (replacement.map stripped) path = (n.splice replacement path).stripped := by
  induction path generalizing n with
  | nil => rfl
  | cons i path ih =>
    cases path with
    | nil =>
      rw [splice, splice, stripped_withChildren, children_stripped, map_append,
        map_append, map_take, map_drop]
    | cons j path =>
      rw [splice, splice, stripped_withChildren, children_stripped]
      exact congrArg _ (modify_relabeled ih n.children i)

@[simp] theorem chain_stripped : n.stripped.chain path = (n.chain path).map stripped := by
  induction path generalizing n with
  | nil => rfl
  | cons i path ih =>
    rw [chain, chain, children_stripped, getElem?_map, map_cons]
    cases n.children[i]? with
    | none => rfl
    | some c => exact congrArg _ (ih c)

/-- A node with its path. -/
def strippedAt (entry : Path × Node) : Path × Node :=
  (entry.1, entry.2.stripped)

theorem placesFrom_stripped : n.stripped.placesFrom path = (n.placesFrom path).map strippedAt := by
  induction n using ind generalizing path with
  | mk l cs ih =>
    rw [stripped_mk, placesFrom, placesFrom, placesFromAll_eq_flatMap, placesFromAll_eq_flatMap,
      zipIdx_map, flatMap_map, map_cons, map_flatMap, strippedAt, stripped_mk]
    exact congrArg _ (flatMap_congr fun c hc => ih c.1 (fst_mem_of_mem_zipIdx hc) _)

theorem placesUpFrom_stripped :
    n.stripped.placesUpFrom path = (n.placesUpFrom path).map strippedAt := by
  induction n using ind generalizing path with
  | mk l cs ih =>
    rw [stripped_mk, placesUpFrom, placesUpFrom, placesUpFromAll_eq_flatMap,
      placesUpFromAll_eq_flatMap, zipIdx_map, flatMap_map, map_append, map_flatMap, map_singleton,
      strippedAt, stripped_mk]
    exact congrArg (· ++ _) (flatMap_congr fun c hc => ih c.1 (fst_mem_of_mem_zipIdx hc) _)

end Node

/-- A stylesheet without lines and comments and without the name of its file. -/
def Sheet.stripped (sheet : Sheet) : Sheet :=
  { root := sheet.root.stripped, expansions := sheet.expansions }

theorem Sheet.root_stripped : sheet.stripped.root = sheet.root.stripped := rfl

theorem Sheet.stripped_withRoot :
    (sheet.withRoot root).stripped = sheet.stripped.withRoot root.stripped := rfl

/-! ## Fields -/

namespace Fields

variable {fields : Fields} {file : Option String} (inCondition : Bool)

theorem requested?_stripped (n : Node) :
    fields.requested? inCondition n.stripped = fields.requested? inCondition n := by
  rw [requested?, requested?, arguments_stripped, head?_map, Option.map_map]
  simp only [comp_def, kind_stripped]

theorem substituteAll_stripped {cs : List Node} {inCondition : Bool}
    (h : ∀ c ∈ cs, fields.substitute none inCondition c.stripped =
      unplaced stripped (fields.substitute file inCondition c)) :
    fields.substituteAll none inCondition (cs.map stripped) =
      unplaced (map stripped) (fields.substituteAll file inCondition cs) := by
  induction cs with
  | nil => rfl
  | cons c cs ih =>
    obtain ⟨hc, hcs⟩ := forall_mem_cons.1 h
    rw [map_cons, substituteAll, substituteAll, hc]
    refine unplaced_bind fun c => ?_
    rw [ih hcs]
    exact unplaced_bind fun _ => rfl

theorem substituteParts_stripped {cs : List Node} {inCondition : Bool}
    (h : ∀ c ∈ cs, ∀ inCondition, fields.substitute none inCondition c.stripped =
      unplaced stripped (fields.substitute file inCondition c)) :
    fields.substituteParts none inCondition (cs.map stripped) =
      unplaced (map stripped) (fields.substituteParts file inCondition cs) := by
  induction cs with
  | nil => rfl
  | cons c cs ih =>
    obtain ⟨l, ks⟩ := c
    obtain ⟨hc, hcs⟩ := forall_mem_cons.1 h
    rw [map_cons]
    rw [stripped_mk] at hc ⊢
    rw [substituteParts, substituteParts, hc, hc,
      substituteAll_stripped fun c hc' => hcs c hc' inCondition, ih hcs]
    show (if l.relation = some .condition then _ else _) = _
    split <;> refine unplaced_bind fun c => ?_ <;> refine unplaced_bind fun cs => ?_ <;> rfl

theorem substitute_stripped : fields.substitute none inCondition n.stripped =
      unplaced stripped (fields.substitute file inCondition n) := by
  induction n using ind generalizing inCondition with
  | mk l cs ih =>
    have hrequested : fields.requested? inCondition (Node.mk l cs).stripped = _ :=
      requested?_stripped inCondition (.mk l cs)
    have hall := substituteAll_stripped fun c hc => ih c hc inCondition
    have hparts : fields.substituteParts none inCondition (cs.map stripped) = _ :=
      substituteParts_stripped ih
    rw [stripped_mk] at hrequested ⊢
    rw [substitute, substitute, hall, hparts, l.kind_stripped]
    split
    · simp only [hrequested]
      split
      · rfl
      · split
        · rfl
        · refine unplaced_bind fun _ => ?_
          exact congrArg Except.ok (stripped_mk { l with kind := _ } []).symm
    · refine unplaced_bind fun ds => ?_
      exact congrArg Except.ok (stripped_mk _ ds).symm
    · refine unplaced_bind fun ds => ?_
      exact congrArg Except.ok (stripped_mk { l with kind := _ } ds).symm

end Fields

theorem Sheet.substituteFields_stripped (fields : Fields) : sheet.stripped.substituteFields fields =
      unplaced Sheet.stripped (sheet.substituteFields fields) := by
  unfold Sheet.substituteFields
  rw [← unplaced_map fun root => (sheet.stripped_withRoot root).symm,
    ← Fields.substitute_stripped]
  rfl

/-! ## Scopes -/

namespace Node

theorem paramNames_stripped : n.stripped.paramNames = n.paramNames := by
  rw [paramNames, paramNames, arguments_stripped, filterMap_map]
  simp only [comp_def, kind_stripped]

theorem opening_stripped : Scope.opening n.stripped = Scope.opening n := by
  rw [Scope.opening, Scope.opening, kind_stripped, paramNames_stripped]

/-- The results of a count. -/
theorem scanScopesAll_stripped {cs : List Node}
    (h : ∀ c ∈ cs, ∀ o s : Scope, c.stripped.scanScopes o s =
      ((c.scanScopes o s).1.stripped, (c.scanScopes o s).2)) (o s : Scope) :
    scanScopesAll o s (cs.map stripped) =
      ((scanScopesAll o s cs).1.map stripped, (scanScopesAll o s cs).2) := by
  induction cs generalizing s with
  | nil => rfl
  | cons c cs ih =>
    obtain ⟨hc, hcs⟩ := forall_mem_cons.1 h
    simp only [map_cons, scanScopesAll, hc, ih hcs]

theorem scanScopes_stripped (o s : Scope) : n.stripped.scanScopes o s =
    ((n.scanScopes o s).1.stripped, (n.scanScopes o s).2) := by
  induction n using ind generalizing o s with
  | mk l cs ih =>
    have hall := scanScopesAll_stripped ih
    have hopening := opening_stripped (mk l cs)
    have hbranch : l.stripped.isBranch = l.isBranch := rfl
    rw [stripped_mk] at hopening ⊢
    simp only [scanScopes, hopening, hall, l.kind_stripped, hbranch]
    split
    · split
      · rw [stripped_mk]
        rfl
      · rw [stripped_mk]
        rfl
    · rw [stripped_mk]

end Node

theorem Sheet.scanScopes_stripped : sheet.stripped.scanScopes = sheet.scanScopes.stripped := by
  obtain ⟨⟨l, cs⟩, file, expansions⟩ := sheet
  have hall := scanScopesAll_stripped
    (fun c (_ : c ∈ cs) => c.scanScopes_stripped) {} {}
  simp only [Sheet.scanScopes, Sheet.stripped, Sheet.withRoot, stripped_mk, children_mk,
    label_mk, hall]
  rfl

/-! ## Unused definitions -/

namespace Node

theorem childPlaces_stripped (n : Node) :
    n.stripped.childPlaces path = (n.childPlaces path).map strippedAt := by
  rw [childPlaces, childPlaces, children_stripped, zipIdx_map, map_map, map_map]
  rfl

mutual

theorem statementsWithin_stripped (path : Path) :
    ∀ n : Node, n.stripped.statementsWithin path = (n.statementsWithin path).map strippedAt
  | mk l cs => by
    have hplaces := childPlaces_stripped path (mk l cs)
    rw [stripped_mk] at hplaces ⊢
    rw [statementsWithin, statementsWithin, map_append, hplaces,
      branchesWithin_stripped path 0 cs]

theorem branchesWithin_stripped (path : Path) (i : Nat) :
    ∀ cs : List Node, branchesWithin path i (cs.map stripped) =
      (branchesWithin path i cs).map strippedAt
  | [] => rfl
  | mk l ks :: cs => by
    rw [map_cons, stripped_mk, branchesWithin, branchesWithin, map_append,
      branchesWithin_stripped path (i + 1) cs, partsWithin_stripped (path ++ [i]) 0 ks,
      l.kind_stripped]
    refine congrArg (map strippedAt _ ++ ·) ?_
    split <;> rfl

theorem partsWithin_stripped (path : Path) (i : Nat) :
    ∀ cs : List Node, partsWithin path i (cs.map stripped) =
      (partsWithin path i cs).map strippedAt
  | [] => rfl
  | mk l ks :: cs => by
    have hstatements := statementsWithin_stripped (path ++ [i]) (mk l ks)
    have hbranch : l.stripped.isBranch = l.isBranch := rfl
    rw [stripped_mk] at hstatements
    rw [map_cons, stripped_mk, partsWithin, partsWithin, map_append,
      partsWithin_stripped path (i + 1) cs, partsWithin_stripped (path ++ [i]) 0 ks, hstatements,
      l.kind_stripped, hbranch]
    split
    · split <;> rfl
    · rfl

end

theorem hasPlainValue_stripped : n.stripped.hasPlainValue = n.hasPlainValue := by
  rw [hasPlainValue, hasPlainValue, child?_stripped]
  cases n.child? .initializer with
  | none => rfl
  | some value =>
    show all (preorder (stripped value)) _ = _
    rw [preorder_stripped, all_map]
    simp only [comp_def, kind_stripped]

theorem lastDefinition?_stripped (visible : Nat → Bool) (nodes : List Node) :
    lastDefinition? name visible (nodes.map stripped) = lastDefinition? name visible nodes := by
  rw [lastDefinition?, lastDefinition?, zipIdx_map, ← map_reverse, find?_map,
    Option.map_map]
  simp only [comp_def, defines, Prod.map_fst, kind_stripped, Prod.map_snd, id_eq]

theorem findMixinExcept?_stripped (gone : List Path) (name : String) (here path : Path) (n : Node) :
    n.stripped.findMixinExcept? gone name here path = n.findMixinExcept? gone name here path := by
  induction path generalizing here n with
  | nil => rfl
  | cons i path ih =>
    rw [findMixinExcept?, findMixinExcept?, children_stripped, getElem?_map, ← map_take,
      lastDefinition?_stripped]
    cases n.children[i]? with
    | none => rfl
    | some c =>
      dsimp only [Option.map_some]
      rw [ih]

end Node

namespace Removal

theorem statement_stripped (calls : List (Path × String)) (unused : NameSet) (removal : Removal)
    (entry : Path × Node) : statement root.stripped calls unused removal (strippedAt entry) =
      statement root calls unused removal entry := by
  simp only [statement, strippedAt, isCalled, findMixinExcept?_stripped,
    kind_stripped, hasPlainValue_stripped]
  rfl

theorem params_stripped (unused : NameSet) (removal : Removal) (place : Path) :
    params root.stripped unused removal place = params root unused removal place := by
  cases place with
  | nil => rfl
  | cons i place =>
    simp only [params, get?_stripped]
    cases root.get? (i :: place).dropLast with
    | none => rfl
    | some mixin =>
      simp only [Option.map_some, kind_stripped, children_stripped,
        findIdx?_map, comp_def, relation_stripped, arguments_stripped,
        trailingUnused, ← map_reverse, takeWhile_map, length_map]
      rfl

theorem block_stripped (root : Node) (calls : List (Path × String)) (removal : Removal)
    (entry : Path × Node) : block none root.stripped calls removal (strippedAt entry) =
      unplaced id (block file root calls removal entry) := by
  obtain ⟨place, n⟩ := entry
  simp only [block, strippedAt, kind_stripped, scope_stripped]
  split
  · rfl
  · split
    · exact congrArg Except.error (n.errorIn_stripped file _)
    · split
      · rfl
      · rw [statementsWithin_stripped, filter_map, foldl_map, params_stripped]
        simp only [statement_stripped]
        rfl

end Removal

theorem Sheet.unused_stripped : sheet.stripped.unused = unplaced id sheet.unused := by
  simp only [Sheet.unused, root_stripped, places, placesFrom_stripped, filterMap_map, comp_def,
    strippedAt, kind_stripped]
  exact unplaced_foldlM (f := id) (g := strippedAt)
    (Removal.block_stripped sheet.file sheet.root _) sheet.root.places {}

mutual

theorem Node.prune_stripped (removal : Removal) (path : Path) :
    ∀ n : Node, n.stripped.prune removal path = (n.prune removal path).stripped
  | mk l cs => by
    rw [stripped_mk, prune, prune, stripped_mk, pruneAll_stripped removal path 0 cs]
    rfl

theorem Node.pruneAll_stripped (removal : Removal) (path : Path) (i : Nat) :
    ∀ cs : List Node, pruneAll removal path i (cs.map stripped) =
      (pruneAll removal path i cs).map stripped
  | [] => rfl
  | c :: cs => by
    rw [map_cons, pruneAll, pruneAll, pruneAll_stripped removal path (i + 1) cs,
      prune_stripped removal (path ++ [i]) c]
    split <;> rfl

end

theorem Sheet.cleanUpWithin_stripped (rounds : Nat) (sheet : Sheet) :
    sheet.stripped.cleanUpWithin rounds = unplaced Sheet.stripped (sheet.cleanUpWithin rounds) := by
  induction rounds generalizing sheet with
  | zero => exact congrArg Except.ok sheet.scanScopes_stripped
  | succ rounds ih =>
    rw [Sheet.cleanUpWithin, Sheet.cleanUpWithin, Sheet.scanScopes_stripped,
      Sheet.unused_stripped]
    refine unplaced_bind fun removal => ?_
    rw [id_eq]
    split
    · rfl
    · rw [← ih, Sheet.stripped_withRoot, ← prune_stripped]
      rfl

theorem Sheet.cleanUp_stripped :
    sheet.stripped.cleanUp = unplaced Sheet.stripped sheet.cleanUp := by
  rw [Sheet.cleanUp, Sheet.cleanUp, ← Sheet.cleanUpWithin_stripped]
  exact congrArg (Sheet.cleanUpWithin · _) (size_stripped _)

/-! ## Mixins -/

namespace Node

mutual

@[simp] theorem renamed_stripped (r : Renaming) :
    ∀ n : Node, n.stripped.renamed r = (n.renamed r).stripped
  | mk l cs => by
    rw [stripped_mk, renamed, renamed, stripped_mk, renamedAll_stripped r cs]
    rfl

theorem renamedAll_stripped (r : Renaming) :
    ∀ cs : List Node, renamedAll r (cs.map stripped) = (renamedAll r cs).map stripped
  | [] => rfl
  | c :: cs => by
    rw [map_cons, renamedAll, renamedAll, renamed_stripped r c, renamedAll_stripped r cs,
      map_cons]

end

theorem localNames_stripped (body : Node) :
    mixin.stripped.localNames body.stripped = mixin.localNames body := by
  rw [localNames, localNames, paramNames_stripped, preorder_stripped, filterMap_map]
  simp only [comp_def, kind_stripped]

mutual

theorem fillContent_stripped (statements : List Node) : ∀ n : Node,
    n.stripped.fillContent (statements.map stripped) = (n.fillContent statements).stripped
  | mk l cs => by
    rw [stripped_mk, fillContent, fillContent, stripped_mk, fillContentAll_stripped statements cs]

theorem fillContentAll_stripped (statements : List Node) : ∀ cs : List Node,
    fillContentAll (statements.map stripped) (cs.map stripped) =
      (fillContentAll statements cs).map stripped
  | [] => rfl
  | mk l ks :: cs => by
    have hfill := fillContent_stripped statements (mk l ks)
    rw [stripped_mk] at hfill
    rw [map_cons, stripped_mk, fillContentAll, fillContentAll, map_append,
      fillContentAll_stripped statements cs, hfill, l.kind_stripped]
    refine congrArg (· ++ map stripped _) ?_
    split <;> rfl

end

theorem passedStatements_stripped :
    call.stripped.passedStatements = call.passedStatements.map stripped := by
  rw [passedStatements, passedStatements, rules?_stripped]
  cases call.rules? with
  | none => rfl
  | some content =>
    show map _ content.stripped.children = _
    rw [children_stripped, map_map, map_map]
    simp only [comp_def, copied_stripped, stripped_plain]

theorem paramDeclaration_stripped (r : Renaming) (line : Nat) (name : String)
    (default argument : Option Node) :
    paramDeclaration r 0 name (default.map stripped) (argument.map stripped) =
      (paramDeclaration r line name default argument).stripped := by
  cases argument with
  | some argument => simp [paramDeclaration]
  | none => cases default <;> simp [paramDeclaration]

theorem paramDeclarations_stripped (r : Renaming) (mixin call : Node) :
    paramDeclarations r mixin.stripped call.stripped =
      (paramDeclarations r mixin call).map stripped := by
  have hparams {entry : Node → Option (String × Option Node)}
      (h : ∀ p, entry p.stripped = (entry p).map fun e => (e.1, e.2.map stripped)) :
      mixin.stripped.arguments.filterMap entry =
        (mixin.arguments.filterMap entry).map fun e => (e.1, e.2.map stripped) := by
    rw [arguments_stripped, filterMap_map, map_filterMap]
    exact filterMap_congr fun p _ => h p
  simp only [paramDeclarations]
  refine (congrArg (fun ps => map _ (zipIdx ps)) (hparams fun p => ?_)).trans ?_
  · simp only [kind_stripped, child?_stripped]
    split <;> rfl
  rw [zipIdx_map, map_map, map_map]
  refine map_congr_left ?_
  rintro ⟨⟨name, default⟩, i⟩ -
  simp only [comp_apply, Prod.map_fst, Prod.map_snd, id_eq, line_stripped,
    arguments_stripped, getElem?_map]
  exact paramDeclaration_stripped r call.line name default _

theorem expansion_stripped (mark : String) (mixin call : Node) :
    expansion mark mixin.stripped call.stripped = (expansion mark mixin call).stripped := by
  have hblock (body : Node) :
      let r : Renaming := { mark, locals := mixin.stripped.localNames body.stripped }
      ((body.stripped.renamed r).withChildren
        (paramDeclarations r mixin.stripped call.stripped ++ (body.stripped.renamed r).children)
        |>.fillContent call.stripped.passedStatements).withRelation call.stripped.relation =
      let r : Renaming := { mark, locals := mixin.localNames body }
      (((body.renamed r).withChildren
        (paramDeclarations r mixin call ++ (body.renamed r).children)
        |>.fillContent call.passedStatements).withRelation call.relation).stripped := by
    dsimp only
    rw [localNames_stripped, renamed_stripped, paramDeclarations_stripped, children_stripped,
      ← map_append, ← stripped_withChildren, passedStatements_stripped, fillContent_stripped,
      relation_stripped, stripped_withRelation]
  rw [expansion, expansion, rules?_stripped]
  cases mixin.rules? with
  | none =>
    have hmake : make .block call.stripped.line = (make .block call.line).stripped := by
      rw [line_stripped, stripped_make, map_nil]
    dsimp only [Option.map_none]
    rw [hmake]
    exact hblock _
  | some body =>
    dsimp only [Option.map_some]
    rw [copied_stripped]
    exact hblock _

theorem argumentLimit_stripped : mixin.stripped.argumentLimit = mixin.argumentLimit := by
  rw [argumentLimit, argumentLimit, paramNames_stripped, kind_stripped]

theorem isInsideMixin_stripped : root.stripped.isInsideMixin path = root.isInsideMixin path := by
  rw [isInsideMixin, isInsideMixin, chain_stripped, ← map_dropLast, any_map]
  simp only [comp_def, kind_stripped]

theorem callPlaces_stripped : root.stripped.callPlaces = root.callPlaces := by
  rw [callPlaces, callPlaces, placesUp, placesUp, placesUpFrom_stripped, filterMap_map]
  simp only [comp_def, strippedAt, kind_stripped]

end Node

namespace Sheet

theorem findMixin_stripped :
    sheet.stripped.findMixin path name = unplaced id (sheet.findMixin path name) := by
  have hline : sheet.root.stripped.lineAt path = 0 := by
    rw [lineAt, get?_stripped]
    cases sheet.root.get? path <;> simp
  rw [findMixin, findMixin, findMixin?, findMixin?, root_stripped, findMixinExcept?_stripped, hline]
  cases sheet.root.findMixinExcept? [] name [] path <;> rfl

theorem expandCall_stripped : sheet.stripped.expandCall path place =
      unplaced Sheet.stripped (sheet.expandCall path place) := by
  rw [expandCall, expandCall, root_stripped, get?_stripped, get?_stripped]
  cases sheet.root.get? path with
  | none => rfl
  | some call =>
    cases sheet.root.get? place with
    | none => rfl
    | some mixin =>
      simp only [Option.map_some, argumentLimit_stripped, arguments_stripped,
        length_map, mixinName, kind_stripped]
      split
      · exact congrArg Except.error (call.errorIn_stripped sheet.file _)
      · rw [expansion_stripped]
        refine congrArg (fun root => Except.ok ({ root, expansions := _ } : Sheet)) ?_
        refine update_stripped (fun _ => ?_) sheet.root path
        rfl

end Sheet

/-- What stands at a place is of the same kind. -/
theorem Sheet.kindAt_stripped :
    (sheet.stripped.root.get? path).map kind = (sheet.root.get? path).map kind := by
  rw [root_stripped, get?_stripped, Option.map_map]
  simp only [comp_def, kind_stripped]

theorem ExpansionRound.visit_stripped :
    round.visit sheet.stripped path = unplaced Sheet.stripped (round.visit sheet path) := by
  have hselects (extend : Bool) : round.selects sheet.stripped.root path extend =
      round.selects sheet.root path extend := by
    cases round <;> simp only [selects, sheet.root_stripped, isInsideMixin_stripped]
  rw [ExpansionRound.visit, ExpansionRound.visit, sheet.kindAt_stripped]
  split
  · rw [hselects]
    split
    · rw [Sheet.findMixin_stripped]
      exact unplaced_bind fun place => Sheet.expandCall_stripped sheet path place
    · rfl
  · rfl

theorem Sheet.expandRound_stripped :
    sheet.stripped.expandRound round = unplaced Sheet.stripped (sheet.expandRound round) := by
  rw [Sheet.expandRound, Sheet.expandRound, root_stripped, callPlaces_stripped]
  have hfold := unplaced_foldlM (g := id) round.visit_stripped sheet.root.callPlaces sheet
  rwa [map_id] at hfold

theorem Sheet.expandMixins_stripped :
    sheet.stripped.expandMixins = unplaced Sheet.stripped sheet.expandMixins := by
  rw [Sheet.expandMixins, Sheet.expandMixins, Sheet.expandRound_stripped]
  exact unplaced_bind (Sheet.expandRound_stripped .rules)

/-! ## Extending uses -/

theorem contextOf_stripped (keep : Bool) (chain : List Node) :
    contextOf none keep (chain.map stripped) = unplaced id (contextOf file keep chain) := by
  have hfold := unplaced_foldlM (f := id)
    (Descent.enter_relabeled erases_stripped file keep) chain {}
  rw [contextOf, contextOf]
  refine (congrArg _ hfold).trans (unplaced_map fun descent => ?_)
  rfl

theorem Sheet.contextAt_stripped (stop : Option Path) :
    sheet.stripped.contextAt path stop = unplaced id (sheet.contextAt path stop) := by
  cases stop with
  | none =>
    rw [Sheet.contextAt, Sheet.contextAt, root_stripped, chain_stripped]
    exact contextOf_stripped sheet.file false _
  | some stop =>
    rw [Sheet.contextAt, Sheet.contextAt]
    simp only [root_stripped, chain_stripped]
    rw [← map_drop, ← apply_ite (map Node.stripped)]
    exact contextOf_stripped sheet.file true _

namespace Node

mutual

theorem contentWraps_stripped (around : List Label) : ∀ n : Node,
    n.stripped.contentWraps (around.map Label.stripped) =
      (n.contentWraps around).map (map Label.stripped)
  | mk l cs => by
    have haround : (if isWrapping l.kind then around.map Label.stripped ++ [l.stripped]
        else around.map Label.stripped) =
        (if isWrapping l.kind then around ++ [l] else around).map Label.stripped := by
      split <;> simp
    rw [stripped_mk, contentWraps, contentWraps, l.kind_stripped]
    split
    · rfl
    · rw [haround, contentWrapsAll_stripped]

theorem contentWrapsAll_stripped (around : List Label) : ∀ cs : List Node,
    contentWrapsAll (around.map Label.stripped) (cs.map stripped) =
      (contentWrapsAll around cs).map (map Label.stripped)
  | [] => rfl
  | c :: cs => by
    rw [map_cons, contentWrapsAll, contentWrapsAll, map_append,
      contentWraps_stripped around c, contentWrapsAll_stripped around cs]

end

theorem wrapIn_stripped (statements : List Node) (labels : List Label) :
    wrapIn (statements.map stripped) (labels.map Label.stripped) =
      (wrapIn statements labels).map stripped := by
  induction labels with
  | nil => rfl
  | cons l labels ih =>
    rw [map_cons, wrapIn, wrapIn, ih, map_singleton, stripped_mk, map_singleton,
      stripped_placed, stripped_make]
    rfl

theorem passedRules_stripped :
    mixin.stripped.passedRules call.stripped = (mixin.passedRules call).map stripped := by
  rw [passedRules, passedRules, rules?_stripped, rules?_stripped]
  cases call.rules? with
  | none => rfl
  | some content =>
    cases mixin.rules? with
    | none => rfl
    | some body =>
      have hwraps := contentWrapsAll_stripped [] body.children
      have hcopied : content.stripped.children.map copied =
          (content.children.map copied).map stripped := by
        rw [children_stripped, map_map, map_map]
        simp only [comp_def, copied_stripped]
      simp only [Option.map_some, children_stripped, map_nil] at hwraps hcopied ⊢
      rw [hwraps, hcopied, flatMap_map, map_flatMap]
      refine flatMap_congr fun around _ => ?_
      rw [wrapIn_stripped, map_map, map_map]
      simp only [comp_def, stripped_plain]

theorem hasParams_stripped : mixin.stripped.hasParams = mixin.hasParams := by
  rw [hasParams, hasParams, arguments_stripped, kind_stripped, isEmpty_map]

mutual

theorem dropContent_stripped (shared : Bool) : ∀ n : Node,
    n.stripped.dropContent shared = (n.dropContent shared).stripped
  | mk l cs => by
    rw [stripped_mk, dropContent, dropContent, stripped_mk, dropContentAll_stripped]
    rfl

theorem dropContentAll_stripped (shared : Bool) : ∀ cs : List Node,
    dropContentAll shared (cs.map stripped) = (dropContentAll shared cs).map stripped
  | [] => rfl
  | mk l ks :: cs => by
    have hdrop := dropContent_stripped shared (mk l ks)
    rw [stripped_mk] at hdrop
    rw [map_cons, stripped_mk, dropContentAll, dropContentAll, hdrop,
      dropContentAll_stripped shared cs]
    show (if shared && l.kind.isContent then _ else _) = _
    split <;> rfl

end

theorem extendPlaces_stripped : root.stripped.extendPlaces = root.extendPlaces := by
  rw [extendPlaces, extendPlaces, places, places, placesFrom_stripped, filterMap_map]
  simp only [comp_def, strippedAt, kind_stripped]

end Node

namespace Sheet

theorem extendMixin_stripped (name : String) : sheet.stripped.extendMixin path place name =
      unplaced Sheet.stripped (sheet.extendMixin path place name) := by
  rw [extendMixin, extendMixin, root_stripped, get?_stripped, get?_stripped]
  cases sheet.root.get? path with
  | none => rfl
  | some call =>
    cases sheet.root.get? place with
    | none => rfl
    | some mixin =>
      simp only [Option.map_some, hasParams_stripped]
      rw [contextAt_stripped]
      refine unplaced_bind fun context => ?_
      rw [id_eq]
      split
      · exact sheet.expandCall_stripped path place
      · split
        · exact congrArg Except.error (call.errorIn_stripped sheet.file _)
        · refine congrArg (fun root => Except.ok (sheet.stripped.withRoot root)) ?_
          rw [passedRules_stripped]
          refine Eq.trans (congrArg (splice _ path) ?_) (splice_stripped _ _ path)
          refine update_stripped (fun n => ?_) _ _
          rw [stripped_withKind, kind_stripped]

theorem extendAt_stripped :
    sheet.stripped.extendAt path = unplaced Sheet.stripped (sheet.extendAt path) := by
  rw [extendAt, extendAt, sheet.kindAt_stripped]
  split
  · rw [root_stripped, isInsideMixin_stripped]
    split
    · rfl
    · rw [findMixin_stripped]
      exact unplaced_bind fun place => sheet.extendMixin_stripped path place _
  · rfl

theorem processExtends_stripped :
    sheet.stripped.processExtends = unplaced Sheet.stripped sheet.processExtends := by
  have hfold := unplaced_foldlM (g := id) extendAt_stripped sheet.root.extendPlaces.reverse sheet
  rw [map_id] at hfold
  rw [processExtends, processExtends, root_stripped, extendPlaces_stripped, hfold]
  refine unplaced_bind fun extended => ?_
  exact congrArg (fun root => Except.ok (extended.stripped.withRoot root))
    (dropContent_stripped false extended.root)

end Sheet

end Cascade
