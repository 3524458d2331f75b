import Cascade.Proofs.Stripped

/-!
# Reducing and writing trees without lines and comments

The stages after the mixins decide nothing by lines and comments either: the bindings, the values
and the rules they give, and the text that is written, are those of the tree without lines and
comments.
-/

set_option autoImplicit false

namespace Cascade

open Node List

variable (sheet : Sheet) (bindings : Bindings) (commands : CommandHost) (name : String) (line : Nat)
  (value : Node)

/-- What surrounds a stylesheet without the name of its file. -/
def Surroundings.stripped (s : Surroundings) : Surroundings :=
  { commands := s.commands }

/-! ## Values -/

mutual

theorem Node.valueText_stripped : ∀ n : Node, n.stripped.valueText = n.valueText
  | mk l cs => by
    rw [stripped_mk, valueText, valueText, l.kind_stripped, valueTexts_stripped cs,
      argumentTexts_stripped cs]

theorem Node.valueTexts_stripped : ∀ cs : List Node, valueTexts (cs.map stripped) = valueTexts cs
  | [] => rfl
  | c :: cs => by
    rw [map_cons, valueTexts, valueTexts, valueText_stripped c, valueTexts_stripped cs]

theorem Node.argumentTexts_stripped :
    ∀ cs : List Node, argumentTexts (cs.map stripped) = argumentTexts cs
  | [] => rfl
  | mk l ks :: cs => by
    have hrelation : l.stripped.relation = l.relation := rfl
    rw [map_cons, stripped_mk, argumentTexts, argumentTexts, hrelation,
      valueTexts_stripped ks, argumentTexts_stripped cs]

end

namespace Value

@[simp] theorem ofNode_stripped (n : Node) : ofNode n.stripped = ofNode n := by
  induction n using ind with
  | mk l cs ih =>
    have htext := valueText_stripped (.mk l cs)
    have hall : ofNodes (cs.map stripped) = ofNodes cs := by
      rw [ofNodes_eq_map, ofNodes_eq_map, map_map]
      exact map_congr_left ih
    rw [stripped_mk] at htext ⊢
    rw [ofNode, ofNode, l.kind_stripped, hall, htext]

mutual

theorem stripped_toNode (line : Nat) : ∀ v : Value, (v.toNode line).stripped = v.toNode 0
  | number _ _ | string _ _ | identifier _ | boolean _ | null | text _ => stripped_make _ _ _
  | list vs | comma vs => by rw [toNode, toNode, stripped_make, stripped_toNodes line vs]

theorem stripped_toNodes (line : Nat) :
    ∀ vs : List Value, (toNodes line vs).map stripped = toNodes 0 vs
  | [] => rfl
  | v :: vs => by
    rw [toNodes, toNodes, map_cons, stripped_toNode line v, stripped_toNodes line vs]

end

end Value

/-! ## Bindings -/

namespace Bindings

/-- Bindings to trees without lines and comments. -/
def stripped (bindings : Bindings) : Bindings :=
  bindings.map fun entry => (entry.1, entry.2.stripped)

theorem find?_stripped :
    NameTable.find? name bindings.stripped = (NameTable.find? name bindings).map Node.stripped := by
  induction bindings with
  | nil => rfl
  | cons entry bindings ih =>
    obtain ⟨other, value⟩ := entry
    by_cases h : (name == other) = true
    · simp [stripped, NameTable.find?, lookup_cons, h]
    · simpa [stripped, NameTable.find?, lookup_cons, h] using ih

theorem contains_stripped :
    NameTable.contains name bindings.stripped = NameTable.contains name bindings := by
  rw [NameTable.contains, NameTable.contains, find?_stripped, Option.isSome_map]

theorem insert_stripped : NameTable.insert name value.stripped bindings.stripped =
      stripped (NameTable.insert name value bindings) := by
  induction bindings with
  | nil => rfl
  | cons entry bindings ih =>
    obtain ⟨other, old⟩ := entry
    show NameTable.insert name _ ((other, old.stripped) :: stripped bindings) = _
    rw [NameTable.insert, NameTable.insert, ih]
    split
    · rfl
    · split <;> rfl

theorem erase_stripped :
    NameTable.erase name bindings.stripped = stripped (NameTable.erase name bindings) := by
  rw [NameTable.erase, NameTable.erase, stripped, stripped, filter_map]
  rfl

theorem entering_stripped (scope : Scope) (outer : Bindings) :
    entering scope outer.stripped = (entering scope outer).stripped := by
  rw [entering, entering]
  induction scope.modified generalizing outer with
  | nil => rfl
  | cons name names ih => rw [foldl_cons, foldl_cons, erase_stripped, ih]

end Bindings

/-! ## Computations on bindings -/

/-- **A computation on bindings beside another one, which gets no lines and comments.**  It gives
what the first one gives, seen through `f`. -/
def Mirrors {α β : Type} (f : α → β) (m : Evaluation α) (m' : Evaluation β) : Prop :=
  ∀ bindings : Bindings, m' bindings.stripped =
    unplaced (fun result => (f result.1, Bindings.stripped result.2)) (m bindings)

namespace Mirrors

variable {α α' β β' : Type} {s : Surroundings} {f : α → α'} {g : β → β'} {m : Evaluation α}
  {m' : Evaluation α'}

theorem pure {a : α} {b : α'} (h : b = f a) : Mirrors f (Pure.pure a) (Pure.pure b) :=
  fun bindings => congrArg (fun b => Except.ok (b, bindings.stripped)) h

theorem bind {k : α → Evaluation β} {k' : α' → Evaluation β'} (hm : Mirrors f m m')
    (hk : ∀ a, Mirrors g (k a) (k' (f a))) : Mirrors g (m >>= k) (m' >>= k') := by
  intro bindings
  show (m' bindings.stripped >>= fun result => k' result.1 result.2) = _
  rw [hm bindings]
  exact unplaced_bind fun result => hk result.1 result.2

theorem map {k : α → β} {k' : α' → β'} (hm : Mirrors f m m') (h : ∀ a, k' (f a) = g (k a)) :
    Mirrors g (k <$> m) (k' <$> m') := by
  intro bindings
  show (m' bindings.stripped >>= fun result => Pure.pure (k' result.1, result.2)) = _
  rw [hm bindings]
  refine unplaced_bind fun result => ?_
  exact congrArg (fun b => Except.ok (b, Bindings.stripped result.2)) (h result.1)

theorem bind_get {k : Bindings → Evaluation β} {k' : Bindings → Evaluation β'}
    (hk : ∀ bindings, Mirrors g (k bindings) (k' bindings.stripped)) :
    Mirrors g (get >>= k) (get >>= k') :=
  fun bindings => hk bindings bindings

theorem ite {c : Prop} [Decidable c] {n : Evaluation α} {n' : Evaluation α'}
    (hm : Mirrors f m m') (hn : Mirrors f n n') :
    Mirrors f (if c then m else n) (if c then m' else n') := by
  split
  · exact hm
  · exact hn

theorem fail (error : EvalError) :
    Mirrors f (Evaluation.fail s line error) (Evaluation.fail s.stripped 0 error) :=
  fun _ => rfl

theorem ofResult {x : Except EvalError α} {x' : Except EvalError α'} (h : x' = x.map f) :
    Mirrors f (Evaluation.ofResult s line x) (Evaluation.ofResult s.stripped 0 x') := by
  subst h
  cases x with
  | ok a => exact pure rfl
  | error e => exact fail line e

theorem ofValue (x : Except EvalError α) :
    Mirrors id (Evaluation.ofResult s line x) (Evaluation.ofResult s.stripped 0 x) :=
  ofResult line (congrFun Except.map_id x).symm

theorem bindName :
    Mirrors id (Evaluation.bindName name value) (Evaluation.bindName name value.stripped) :=
  fun bindings => congrArg (fun b => Except.ok ((), b)) (bindings.insert_stripped name value)

theorem unbindName : Mirrors id (Evaluation.unbindName name) (Evaluation.unbindName name) :=
  fun bindings => congrArg (fun b => Except.ok ((), b)) (bindings.erase_stripped name)

theorem within (hm : Mirrors f m m') (bindings : Bindings) :
    Mirrors f (Evaluation.within bindings m) (Evaluation.within bindings.stripped m') := by
  intro outer
  show (m' bindings.stripped >>= fun result => Pure.pure (result.1, outer.stripped)) = _
  rw [hm bindings]
  exact unplaced_bind fun _ => rfl

end Mirrors

/-! ## Expressions -/

theorem assigned_stripped (operator : Option AssignOp) (line : Nat) (current : Option Node)
    (value : Node) : assigned name operator 0 (current.map stripped) value.stripped =
      (assigned name operator line current value).map stripped := by
  cases operator with
  | none => cases current <;> rfl
  | some operator =>
    cases current with
    | none => cases operator <;> rfl
    | some current =>
      cases operator <;> simp only [assigned, Option.map_some, Value.ofNode_stripped] <;> split
      all_goals first | rfl | exact congrArg Except.ok (Value.stripped_toNode line _).symm

theorem commandResult_stripped (value : CommandValue) (type : ResultType) :
    commandResult name 0 value type =
      (commandResult name line value type).map stripped := by
  cases type with
  | px | number =>
    simp only [commandResult]
    split
    · exact congrArg Except.ok (stripped_make _ line []).symm
    · rfl
  | url => simp [commandResult, Except.map]
  | other => exact congrArg Except.ok (stripped_make _ line []).symm

theorem runCommand_stripped (arguments : List Node) :
    runCommand commands name 0 (arguments.map stripped) =
      (runCommand commands name line arguments).map stripped := by
  have hvalues : ((arguments.map stripped).mapM fun argument => argument.kind.commandValue?) =
      arguments.mapM fun argument => argument.kind.commandValue? := by
    rw [mapM_map]
    simp only [Function.comp_def, kind_stripped]
  simp only [runCommand, hvalues]
  split
  · rfl
  · split
    · rfl
    · rfl
    · exact commandResult_stripped name line _ _

theorem isUnset_stripped (kind : Kind) :
    isUnset bindings.stripped kind = isUnset bindings kind := by
  cases kind <;> simp only [isUnset, Bindings.contains_stripped]

namespace Node

variable {s : Surroundings}

mutual

/-- **Expressions are evaluated without a look at lines and comments.** -/
theorem evaluate_mirrors : ∀ n : Node,
    Mirrors stripped (n.evaluate s) (n.stripped.evaluate s.stripped)
  | mk ⟨kind, line, span, relation, comments, scope⟩ children => by
    have hall := evaluateAll_mirrors children
    have hargs := evaluateArguments_mirrors children
    have hinit := evaluateInitializer_mirrors line children
    rw [stripped_mk]
    unfold evaluate
    cases kind with
    | reference name =>
      refine .bind_get fun bindings => ?_
      rw [Bindings.find?_stripped]
      cases NameTable.find? name bindings with
      | none => exact .fail line _
      | some value => exact .pure (by rw [stripped_withRelation, copied_stripped]; rfl)
    | binary op =>
      match children with
      | [left, right] =>
        have hleft := (evaluate_mirrors left).map (g := id) Value.ofNode_stripped
        have hright := (evaluate_mirrors right).map (g := id) Value.ofNode_stripped
        refine .bind_get fun bindings => ?_
        rw [isUnset_stripped, kind_stripped]
        refine .ite (.bind (.pure (f := id) rfl) fun value => ?_) (hleft.bind fun value => ?_)
        all_goals
          refine hright.bind fun right => (Mirrors.ofValue line _).bind fun result => .pure ?_
          rw [stripped_withRelation, Value.stripped_toNode]
          rfl
      | [] | [_] | _ :: _ :: _ :: _ => exact .pure (by simp)
    | unary op =>
      match children with
      | [] => exact .pure (stripped_mk _ _).symm
      | operand :: rest =>
        have hoperand := (evaluate_mirrors operand).map (g := id) Value.ofNode_stripped
        refine hoperand.bind fun value => ?_
        refine (Mirrors.ofValue line _).bind fun result => .pure ?_
        rw [stripped_withRelation, Value.stripped_toNode]
        rfl
    | assign name op =>
      refine hinit.bind fun value => .bind_get fun bindings => ?_
      rw [Bindings.find?_stripped]
      refine (Mirrors.ofResult line (assigned_stripped name op line _ value)).bind fun value => ?_
      refine (Mirrors.bindName name value).bind fun _ => ?_
      exact .pure (by rw [stripped_withRelation, copied_stripped]; rfl)
    | command name =>
      refine hargs.bind fun cs => .ite (.pure ?_) ?_
      · rw [stripped_mk]
        rfl
      · have harguments :=
          arguments_stripped (mk ⟨.command name, line, span, relation, comments, scope⟩ cs)
        rw [stripped_mk] at harguments
        rw [harguments]
        refine (Mirrors.ofResult line (runCommand_stripped _ name line _)).bind fun result => ?_
        exact .pure (by rw [stripped_withRelation]; rfl)
    | function name => exact hargs.bind fun cs => .pure (stripped_mk _ cs).symm
    | list | comma | slash => exact hall.bind fun cs => .pure (stripped_mk _ cs).symm
    | _ => exact .pure (stripped_mk _ _).symm

theorem evaluateAll_mirrors : ∀ cs : List Node,
    Mirrors (map stripped) (evaluateAll s cs) (evaluateAll s.stripped (cs.map stripped))
  | [] => .pure rfl
  | c :: cs =>
    (evaluate_mirrors c).bind fun _ => (evaluateAll_mirrors cs).bind fun _ => .pure rfl

theorem evaluateArguments_mirrors : ∀ cs : List Node,
    Mirrors (map stripped) (evaluateArguments s cs) (evaluateArguments s.stripped (cs.map stripped))
  | [] => .pure rfl
  | mk l ks :: cs => by
    have hall := evaluateAll_mirrors ks
    have hrest := evaluateArguments_mirrors cs
    rw [map_cons, stripped_mk]
    unfold evaluateArguments
    refine .ite (hall.bind fun ks => .pure ?_) (hrest.bind fun rest => .pure ?_)
    · rw [map_cons, stripped_mk]
    · rw [map_cons, stripped_mk]

theorem evaluateInitializer_mirrors (line : Nat) : ∀ cs : List Node,
    Mirrors stripped (evaluateInitializer s line cs)
      (evaluateInitializer s.stripped 0 (cs.map stripped))
  | [] => .pure (stripped_make .null line []).symm
  | mk l ks :: cs => by
    have hvalue := evaluate_mirrors (mk l ks)
    have hrest := evaluateInitializer_mirrors line cs
    rw [stripped_mk] at hvalue
    rw [map_cons, stripped_mk]
    unfold evaluateInitializer
    exact .ite hvalue hrest

end

end Node

/-! ## Statements -/

theorem replacements_stripped (names : List String) :
    replacements bindings.stripped names = replacements bindings names := by
  rw [replacements, replacements]
  congr 1
  funext name
  rw [Bindings.find?_stripped]
  cases NameTable.find? name bindings with
  | none => rfl
  | some value =>
    exact congrArg (fun v : Value => Except.ok (name, v.render)) (Value.ofNode_stripped value)

namespace Label

variable {s : Surroundings}

theorem interpolate_mirrors (l : Label) :
    Mirrors stripped (l.interpolate s) (l.stripped.interpolate s.stripped) := by
  refine .bind_get fun bindings => ?_
  have hsame : interpolated bindings.stripped l.stripped.kind = interpolated bindings l.kind := by
    rw [interpolated, interpolated, replacements_stripped]
    rfl
  rw [hsame]
  exact (Mirrors.ofValue l.line _).bind fun kind => .pure rfl

theorem enter_mirrors (l : Label) {m m' : Evaluation (List Node)}
    (hm : Mirrors (map Node.stripped) m m') :
    Mirrors Node.stripped (l.enter s m) (l.stripped.enter s.stripped m') := by
  obtain ⟨kind, line, span, relation, comments, scope⟩ := l
  cases scope with
  | none => exact fun _ => rfl
  | some scope =>
    refine .bind_get fun bindings => ?_
    rw [Bindings.entering_stripped]
    exact (hm.within _).bind fun cs => .pure (stripped_mk _ cs).symm

end Label

namespace Node

variable {s : Surroundings}

theorem conditionHolds_mirrors (cs : List Node) :
    Mirrors id (conditionHolds s cs) (conditionHolds s.stripped (cs.map stripped)) := by
  induction cs with
  | nil => exact .pure rfl
  | cons c cs ih =>
    obtain ⟨l, ks⟩ := c
    have hvalue := evaluate_mirrors (s := s) (mk l ks)
    rw [stripped_mk] at hvalue
    rw [map_cons, stripped_mk]
    unfold conditionHolds
    refine .ite (hvalue.bind fun value => .pure ?_) ih
    rw [Value.ofNode_stripped]
    rfl

mutual

/-- **Statements are evaluated without a look at lines and comments.** -/
theorem execute_mirrors : ∀ n : Node,
    Mirrors (map stripped) (n.execute s) (n.stripped.execute s.stripped)
  | mk l cs => by
    have hall := executeAll_mirrors cs
    have hrules := executeRules_mirrors cs
    have hbranch (r : Relation) := executeBranch_mirrors r cs
    have hchild := child?_stripped (mk l cs) .initializer
    have htreatment : l.stripped.kind.treatment = l.kind.treatment := rfl
    have hkeep : [mk l.stripped (cs.map stripped)] = [mk l cs].map stripped := by
      rw [map_singleton, stripped_mk]
    rw [stripped_mk] at hchild ⊢
    unfold execute
    rw [htreatment]
    cases l.kind.treatment with
    | branch => exact (conditionHolds_mirrors cs).bind fun holds => hbranch _
    | declare name =>
      dsimp only
      rw [hchild]
      cases (mk l cs).child? .initializer with
      | none => exact (Mirrors.unbindName name).bind fun _ => .pure rfl
      | some value =>
        exact (evaluate_mirrors value).bind fun value =>
          (Mirrors.bindName name value).bind fun _ => .pure rfl
    | assign name op =>
      refine (evaluateInitializer_mirrors l.line cs).bind fun value => .bind_get fun bindings => ?_
      rw [Bindings.find?_stripped]
      refine (Mirrors.ofResult l.line (assigned_stripped name op l.line _ value)).bind
        fun value => ?_
      exact (Mirrors.bindName name value).bind fun _ => .pure rfl
    | values =>
      refine l.interpolate_mirrors.bind fun l => (evaluateAll_mirrors cs).bind fun cs => .pure ?_
      rw [map_singleton, stripped_mk]
    | rules =>
      refine l.interpolate_mirrors.bind fun l => hrules.bind fun cs => .pure ?_
      rw [map_singleton, stripped_mk]
    | block => exact (l.enter_mirrors hall).bind fun block => .pure rfl
    | arguments =>
      refine (evaluateArguments_mirrors cs).bind fun cs => .pure ?_
      rw [map_singleton, stripped_mk]
    | keep => exact .pure hkeep

theorem executeAll_mirrors : ∀ cs : List Node,
    Mirrors (map stripped) (executeAll s cs) (executeAll s.stripped (cs.map stripped))
  | [] => .pure rfl
  | c :: cs =>
    (execute_mirrors c).bind fun _ => (executeAll_mirrors cs).bind fun _ =>
      .pure map_append.symm

theorem executeRules_mirrors : ∀ cs : List Node,
    Mirrors (map stripped) (executeRules s cs) (executeRules s.stripped (cs.map stripped))
  | [] => .pure rfl
  | mk l ks :: cs => by
    have hblock := l.enter_mirrors (s := s) (executeAll_mirrors ks)
    have hrest := executeRules_mirrors cs
    rw [map_cons, stripped_mk]
    unfold executeRules
    refine .ite (hblock.bind fun block => .pure rfl) (hrest.bind fun rest => .pure ?_)
    rw [map_cons, stripped_mk]

theorem executeBranch_mirrors (r : Relation) : ∀ cs : List Node,
    Mirrors (map stripped) (executeBranch s r cs) (executeBranch s.stripped r (cs.map stripped))
  | [] => .pure rfl
  | mk l ks :: cs => by
    have hself := execute_mirrors (mk l ks)
    have hall := executeAll_mirrors ks
    rw [stripped_mk] at hself
    rw [map_cons, stripped_mk]
    unfold executeBranch
    rw [l.kind_stripped]
    refine .ite ?_ (executeBranch_mirrors r cs)
    split
    · exact hself
    · exact hall

end

end Node

theorem Sheet.execute_stripped :
    sheet.stripped.execute commands = unplaced Sheet.stripped (sheet.execute commands) := by
  have hall := executeAll_mirrors (s := { file := sheet.file, commands }) sheet.root.children
  have hrun := sheet.root.label.enter_mirrors (s := { file := sheet.file, commands }) hall []
  rw [Sheet.execute, Sheet.execute]
  show ((sheet.root.stripped.label.enter { commands }
    (executeAll { commands } sheet.root.stripped.children)) [] >>= _) = _
  rw [label_stripped, children_stripped]
  refine (congrArg (· >>= _) hrun).trans ?_
  exact unplaced_bind fun _ => rfl

/-! ## Stylesheets -/

theorem Sheet.flatten_stripped :
    sheet.stripped.flatten = unplaced Sheet.stripped sheet.flatten := by
  have hflatten : sheet.stripped.flatten =
      unplaced (fun flat => sheet.stripped.withRoot flat.root.stripped) sheet.flatten :=
    Sheet.flatten_relabeled erases_stripped rfl rfl
  rw [hflatten]
  cases hflat : sheet.flatten with
  | error e => rfl
  | ok flat =>
    rw [Sheet.eq_withRoot_of_flatten hflat]
    rfl

/-- **Reducing takes no notice of lines and comments.** -/
theorem Sheet.reduce_stripped (profile : Profile) :
    sheet.stripped.reduce profile = unplaced Sheet.stripped (sheet.reduce profile) := by
  rw [Sheet.reduce, Sheet.reduce, Sheet.substituteFields_stripped]
  refine unplaced_bind fun sheet => ?_
  rw [Sheet.cleanUp_stripped]
  refine unplaced_bind fun sheet => ?_
  rw [Sheet.expandMixins_stripped]
  refine unplaced_bind fun sheet => ?_
  rw [Sheet.processExtends_stripped]
  refine unplaced_bind fun sheet => ?_
  rw [Sheet.cleanUp_stripped]
  refine unplaced_bind fun sheet => ?_
  rw [Sheet.execute_stripped]
  exact unplaced_bind Sheet.flatten_stripped

theorem Sheet.css_stripped (layout : Layout) :
    sheet.stripped.css layout = unplaced id (sheet.css layout) := by
  rw [Sheet.css, Sheet.css, Sheet.stripped, children_stripped]
  exact cssAll_relabeled erases_stripped sheet.file layout 0 _

/-! ## Trees that agree -/

/-- **Trees that agree up to lines and comments have the same text**, or fail for the same
reason. -/
theorem Sheet.outcome_eq_of_stripped_eq {sheet sheet' : Sheet} (h : sheet.stripped = sheet'.stripped)
    (profile : Profile) (layout : Layout) :
    unplaced id (sheet.reduce profile >>= fun sheet => sheet.css layout) =
      unplaced id (sheet'.reduce profile >>= fun sheet => sheet.css layout) := by
  have hstripped (sheet : Sheet) :
      (sheet.stripped.reduce profile >>= fun sheet => sheet.css layout) =
        unplaced id (sheet.reduce profile >>= fun sheet => sheet.css layout) := by
    rw [Sheet.reduce_stripped]
    exact unplaced_bind fun sheet => sheet.css_stripped layout
  rw [← hstripped, ← hstripped, h]

end Cascade
