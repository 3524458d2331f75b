import Cascade.Evaluation.Statement
import Cascade.Proofs.Interpolations

/-!
# What a run looks up

Evaluation reads variables in four ways: a variable in an expression, a compound assignment, a
default for a variable that may be unset, and a variable written into a text.  This file lists the
variables that a run looks up, in order, each with the binding it finds there.

Two facts make the list useful.  A run depends on the bindings it starts with only through what it
looks up; and as long as nothing sets a variable, every look at it finds the binding that the run
started with.  Both follow by one induction over the tree, for which `Tracked` is the invariant.
-/

set_option autoImplicit false

namespace Cascade

open Node List

variable {name : String} {R W : String → Prop} {kind : Kind} (s : Surroundings) (label : Label)

/-! ## Tables -/

namespace NameTable

variable {α : Type}

theorem find?_cons (key name : String) (value : α) (table : NameTable α) :
    find? name ((key, value) :: table) = if name = key then some value else find? name table := by
  rw [find?, lookup_cons]
  by_cases h : name = key
  · simp [h]
  · simp [h, find?, beq_eq_false_iff_ne.2 h]

theorem find?_insert (name key : String) (value : α) (table : NameTable α) :
    find? name (insert key value table) = if name = key then some value else find? name table := by
  induction table with
  | nil => rw [insert, find?_cons]
  | cons entry rest ih =>
    obtain ⟨other, old⟩ := entry
    rw [insert]
    split
    · rename_i h
      simp only [find?_cons, h]
      split <;> rfl
    · split
      · rw [find?_cons]
      · rename_i hne _
        rw [find?_cons, find?_cons, ih]
        by_cases h : name = key
        · simp [h, hne]
        · simp [h]

theorem mem_insert {value : α} {table : NameTable α} {entry : String × α}
    (h : entry ∈ insert name value table) : entry = (name, value) ∨ entry ∈ table := by
  induction table with
  | nil => exact .inl (mem_singleton.1 h)
  | cons other rest ih =>
    rw [insert] at h
    grind

/-- The names of a table are in increasing order. -/
abbrev Ordered (table : NameTable α) : Prop :=
  table.Pairwise fun entry later => entry.1 < later.1

theorem Ordered.insert {value : α} {table : NameTable α} (h : table.Ordered) :
    Ordered (insert name value table) := by
  induction table with
  | nil => exact pairwise_singleton _ _
  | cons other rest ih =>
    obtain ⟨hother, hrest⟩ := pairwise_cons.1 h
    have hinsert : ∀ e ∈ NameTable.insert name value rest, e = (name, value) ∨ e ∈ rest :=
      fun e => mem_insert
    rw [NameTable.insert]
    split <;> [skip; split] <;> rw [Ordered, pairwise_cons] <;> grind [String.lt_trans]

theorem find?_filter (name : String) (p : String → Bool) (table : NameTable α) :
    find? name (table.filter fun entry => p entry.1) =
      if p name = true then find? name table else none := by
  induction table with
  | nil => simp [find?]
  | cons entry rest ih => grind [find?_cons]

theorem find?_erase (name key : String) (table : NameTable α) :
    find? name (erase key table) = if name = key then none else find? name table := by
  rw [erase, find?_filter name (· != key)]
  by_cases h : name = key <;> simp [h]

end NameTable

/-! ## The lookups of a run -/

/-- A variable that is looked up, and the binding that is found. -/
abbrev Lookup := String × Option Node

/-- What is looked up after a computation, if it succeeds. -/
def Evaluation.followed {α : Type} (m : Evaluation α) (next : α → Bindings → List Lookup)
    (bindings : Bindings) : List Lookup :=
  match m bindings with
  | .ok (a, bindings) => next a bindings
  | .error _ => []

/-- What an assignment looks up once its value is there: the old value, if it counts. -/
def assignLookups (name : String) (operator : Option AssignOp) (bindings : Bindings) :
    List Lookup :=
  match operator with
  | none => []
  | some _ => [(name, bindings.find? name)]

/-- What is looked up for the texts of a label. -/
def Label.lookups (label : Label) (bindings : Bindings) : List Lookup :=
  label.kind.dynamic.map fun name => (name, bindings.find? name)

/-- What is looked up in a block, which starts with bindings of its own. -/
def Label.enterLookups (label : Label) (statements : Bindings → List Lookup)
    (bindings : Bindings) : List Lookup :=
  match label.scope with
  | none => []
  | some scope => statements (Bindings.entering scope bindings)

namespace Node

mutual

/-- **What is looked up to evaluate an expression.** -/
def valueLookups (s : Surroundings) : Node → Bindings → List Lookup
  | mk label children =>
    match label.kind, children with
    | .reference name, _ => fun bindings => [(name, bindings.find? name)]
    | .binary operator, [left, right] => fun bindings =>
      valueLookups s left bindings ++
        -- A variable that is not bound is looked up as well, but not evaluated.
        if operator == .default && isUnset bindings left.kind then valueLookups s right bindings
        else (evaluate s left).followed (fun _ => valueLookups s right) bindings
    | .unary _, operand :: _ => valueLookups s operand
    | .assign name operator, children => fun bindings =>
      initializerLookups s children bindings ++
        (evaluateInitializer s label.line children).followed
          (fun _ => assignLookups name operator) bindings
    | .command _, children => argumentLookups s children
    | .function _, children => argumentLookups s children
    | .list, children => valueLookupsAll s children
    | .comma, children => valueLookupsAll s children
    | .slash, children => valueLookupsAll s children
    | _, _ => fun _ => []

/-- What is looked up to evaluate several expressions. -/
def valueLookupsAll (s : Surroundings) : List Node → Bindings → List Lookup
  | [] => fun _ => []
  | node :: rest => fun bindings =>
    valueLookups s node bindings ++
      (evaluate s node).followed (fun _ => valueLookupsAll s rest) bindings

/-- What is looked up to evaluate the arguments of a function or a command. -/
def argumentLookups (s : Surroundings) : List Node → Bindings → List Lookup
  | [] => fun _ => []
  | mk label children :: rest =>
    if label.relation = some .params then valueLookupsAll s children else argumentLookups s rest

/-- What is looked up to evaluate an initializer. -/
def initializerLookups (s : Surroundings) : List Node → Bindings → List Lookup
  | [] => fun _ => []
  | mk label children :: rest =>
    if label.relation = some .initializer then valueLookups s (mk label children)
    else initializerLookups s rest

end

mutual

/-- **What is looked up to evaluate a statement.** -/
def lookups (s : Surroundings) : Node → Bindings → List Lookup
  | mk label children =>
    match label.kind.treatment with
    | .branch => fun bindings =>
      conditionLookups s children bindings ++
        (conditionHolds s children).followed
          (fun holds => branchLookups s (if holds then .thenPart else .elsePart) children) bindings
    | .declare _ =>
      match (mk label children).child? .initializer with
      | some value => valueLookups s value
      | none => fun _ => []
    | .assign name operator => fun bindings =>
      initializerLookups s children bindings ++
        (evaluateInitializer s label.line children).followed
          (fun _ => assignLookups name operator) bindings
    | .values => fun bindings =>
      label.lookups bindings ++
        (label.interpolate s).followed (fun _ => valueLookupsAll s children) bindings
    | .rules => fun bindings =>
      label.lookups bindings ++
        (label.interpolate s).followed (fun _ => ruleLookups s children) bindings
    | .block => label.enterLookups (lookupsAll s children)
    | .arguments => argumentLookups s children
    | .keep => fun _ => []

/-- What is looked up to evaluate several statements. -/
def lookupsAll (s : Surroundings) : List Node → Bindings → List Lookup
  | [] => fun _ => []
  | node :: rest => fun bindings =>
    lookups s node bindings ++ (execute s node).followed (fun _ => lookupsAll s rest) bindings

/-- What is looked up in the block of a rule. -/
def ruleLookups (s : Surroundings) : List Node → Bindings → List Lookup
  | [] => fun _ => []
  | mk label children :: rest =>
    if label.relation = some .rules then label.enterLookups (lookupsAll s children)
    else ruleLookups s rest

/-- What is looked up in the condition of a conditional. -/
def conditionLookups (s : Surroundings) : List Node → Bindings → List Lookup
  | [] => fun _ => []
  | mk label children :: rest =>
    if label.relation = some .condition then valueLookups s (mk label children)
    else conditionLookups s rest

/-- What is looked up in a branch of a conditional. -/
def branchLookups (s : Surroundings) (relation : Relation) : List Node → Bindings → List Lookup
  | [] => fun _ => []
  | mk label children :: rest =>
    if label.relation = some relation then
      match label.kind with
      | .conditional => lookups s (mk label children)
      | _ => lookupsAll s children
    else branchLookups s relation rest

end

end Node

/-! ## Computations with known lookups -/

/-- Two states of the bindings that may differ in the variables in `X`. -/
def AgreeExcept (X : String → Prop) (a b : Bindings) : Prop :=
  ∀ name, ¬ X name → a.find? name = b.find? name

/-- Two outcomes that are the same but for the bindings of variables in `X`. -/
inductive SameExcept {α : Type} (X : String → Prop) :
    Except Error (α × Bindings) → Except Error (α × Bindings) → Prop where
  | ok {value : α} {a b : Bindings} (h : AgreeExcept X a b) :
      SameExcept X (.ok (value, a)) (.ok (value, b))
  | error (e : Error) : SameExcept X (.error e) (.error e)

/-- No variable in `X` is looked up. -/
def Unread (X : String → Prop) (log : List Lookup) : Prop :=
  ∀ lookup ∈ log, ¬ X lookup.1

theorem Unread.append {X : String → Prop} {log log' : List Lookup} :
    Unread X (log ++ log') ↔ Unread X log ∧ Unread X log' := by
  simp only [Unread, mem_append, or_imp, forall_and]

/-- **A computation whose lookups are known**, and that reads only variables in `R` and sets only
variables in `W`. -/
structure Tracked {α : Type} (R W : String → Prop) (m : Evaluation α)
    (log : Bindings → List Lookup) : Prop where
  reads : ∀ {b lookup}, lookup ∈ log b → R lookup.1
  /-- A variable that is not set keeps its binding. -/
  keeps : ∀ {x}, ¬ W x → ∀ {b a b'}, m b = .ok (a, b') → b'.find? x = b.find? x
  /-- Until then every look at it finds that binding. -/
  sees : ∀ {x}, ¬ W x → ∀ {b found}, (x, found) ∈ log b → found = b.find? x
  /-- Variables that are not looked up do not matter. -/
  blind : ∀ {X b b'}, AgreeExcept X b b' → Unread X (log b) →
    SameExcept X (m b) (m b') ∧ log b = log b'

namespace Tracked

variable {α β : Type} {m : Evaluation α} {f : α → Evaluation β} {log : Bindings → List Lookup}

/-- A computation that neither reads nor sets anything. -/
theorem pure (a : α) : Tracked R W (Pure.pure a : Evaluation α) fun _ => [] where
  reads := nofun
  keeps := by
    rintro x _ b _ _ ⟨⟩
    rfl
  sees := nofun
  blind h _ := ⟨.ok h, rfl⟩

theorem error (e : Error) : Tracked R W (throw e : Evaluation α) fun _ => [] where
  reads := nofun
  keeps := nofun
  sees := nofun
  blind _ _ := ⟨.error e, rfl⟩

theorem bind {next : α → Bindings → List Lookup} (hm : Tracked R W m log)
    (hf : ∀ a, Tracked R W (f a) (next a)) :
    Tracked R W (m >>= f) fun b => log b ++ m.followed next b where
  reads := by
    intro b lookup h
    rcases mem_append.1 h with h | h
    · exact hm.reads h
    · rw [Evaluation.followed] at h
      split at h
      · exact (hf _).reads h
      · cases h
  keeps := by
    intro x hx b a b' h
    obtain ⟨⟨c, b₁⟩, hc, h⟩ := bind_eq_ok.1 h
    rw [(hf c).keeps hx h, hm.keeps hx hc]
  sees := by
    intro x hx b found h
    rcases mem_append.1 h with h | h
    · exact hm.sees hx h
    · rw [Evaluation.followed] at h
      split at h
      · rename_i c b₁ hc
        rw [(hf c).sees hx h, hm.keeps hx hc]
      · simp at h
  blind := by
    intro X b b' hb hlog
    obtain ⟨hlog, hafter⟩ := Unread.append.1 hlog
    obtain ⟨hsame, heq⟩ := hm.blind hb hlog
    simp only [Evaluation.followed, heq] at hafter ⊢
    change SameExcept X (m b >>= fun p => f p.1 p.2) (m b' >>= fun p => f p.1 p.2) ∧ _
    generalize m b = r at hsame hafter
    generalize m b' = r' at hsame
    cases hsame with
    | ok hagree =>
      obtain ⟨hsame, heq⟩ := (hf _).blind hagree hafter
      exact ⟨hsame, congrArg _ heq⟩
    | error e => exact ⟨.error e, rfl⟩

/-- What comes after a computation that looks nothing up. -/
theorem andThen (hm : Tracked R W m log) (hf : ∀ a, Tracked R W (f a) fun _ => []) :
    Tracked R W (m >>= f) log := by
  have h := hm.bind hf
  have hnone (b : Bindings) : m.followed (fun _ _ => []) b = [] := by
    rw [Evaluation.followed]
    split <;> rfl
  simpa only [hnone, append_nil] using h

theorem map (hm : Tracked R W m log) (f : α → β) : Tracked R W (f <$> m) log := by
  rw [← bind_pure_comp]
  exact hm.andThen fun a => .pure (f a)

/-- A look at one variable. -/
theorem lookup (hR : R name) {f : Option Node → Evaluation α}
    {next : Option Node → Bindings → List Lookup} (hf : ∀ found, Tracked R W (f found) (next found)) :
    Tracked R W (fun b : Bindings => f (b.find? name) b)
      fun b => (name, b.find? name) :: next (b.find? name) b where
  reads := by
    intro b lookup h
    rcases mem_cons.1 h with rfl | h
    · exact hR
    · exact (hf _).reads h
  keeps hx _ _ _ h := (hf _).keeps hx h
  sees := by
    intro x hx b found h
    rcases mem_cons.1 h with h | h
    · cases h
      rfl
    · exact (hf _).sees hx h
  blind := by
    intro X b b' hb hlog
    obtain ⟨hname, hlog⟩ := forall_mem_cons.1 hlog
    rw [← hb name hname]
    obtain ⟨hsame, heq⟩ := (hf _).blind hb hlog
    exact ⟨hsame, congrArg _ heq⟩

/-- A change of the bindings of one variable. -/
theorem modify (hW : W name) {change : Bindings → Bindings}
    (hother : ∀ b x, x ≠ name → (change b).find? x = b.find? x)
    (hsame : ∀ b b', (change b).find? name = (change b').find? name) :
    Tracked R W (modify change : Evaluation PUnit) fun _ => [] where
  reads := nofun
  keeps := by
    rintro x hx b _ _ ⟨⟩
    exact hother b x fun h => hx (h ▸ hW)
  sees := nofun
  blind := by
    intro X b b' hb _
    refine ⟨.ok fun y hy => ?_, rfl⟩
    by_cases h : y = name
    · rw [h]
      exact hsame b b'
    · rw [hother b y h, hother b' y h]
      exact hb y hy

theorem bindName (hW : W name) (value : Node) :
    Tracked R W (Evaluation.bindName name value) fun _ => [] :=
  .modify hW (fun b x hx => by rw [NameTable.find?_insert, if_neg hx])
    fun b b' => by rw [NameTable.find?_insert, NameTable.find?_insert]; simp

theorem unbindName (hW : W name) : Tracked R W (Evaluation.unbindName name) fun _ => [] :=
  .modify hW (fun b x hx => by rw [NameTable.find?_erase, if_neg hx])
    fun b b' => by rw [NameTable.find?_erase, NameTable.find?_erase]; simp

theorem ofResult (line : Nat) (result : Except EvalError α) :
    Tracked R W (Evaluation.ofResult s line result) fun _ => [] := by
  cases result with
  | ok a => exact .pure a
  | error e => exact .error _

/-- A new value for a variable, which may depend on the old one. -/
theorem assigned (s : Surroundings) {name : String} {operator : Option AssignOp}
    (hR : ∀ x ∈ (Kind.assign name operator).reads, R x) (hW : W name) (line : Nat) (value : Node)
    {f : Node → Evaluation α} (hf : ∀ n, Tracked R W (f n) fun _ => []) :
    Tracked R W (do
        let value ← Evaluation.ofResult s line
          (assigned name operator line ((← get).find? name) value)
        Evaluation.bindName name value
        f value)
      (assignLookups name operator) := by
  have hset (result : Except EvalError Node) : Tracked R W (do
      let value ← Evaluation.ofResult s line result
      Evaluation.bindName name value
      f value) fun _ => [] :=
    (Tracked.ofResult s line result).andThen fun value => (Tracked.bindName hW value).andThen
      fun _ => hf value
  cases operator with
  | none => exact hset (.ok value)
  | some op =>
    exact .lookup (hR name mem_cons_self) fun found => hset (Cascade.assigned name (some op) line found value)

end Tracked

/-! ## Texts and blocks -/

theorem replacements_congr {b b' : Bindings} {names : List String}
    (h : ∀ name ∈ names, b.find? name = b'.find? name) :
    replacements b names = replacements b' names := by
  induction names with
  | nil => rfl
  | cons name names ih =>
    have ih := ih fun other hother => h other (mem_cons_of_mem _ hother)
    simp only [replacements, mapM_cons] at ih ⊢
    rw [h name mem_cons_self, ih]

/-- A label whose kind was worked out, or the failure to do so. -/
def Label.written (s : Surroundings) (label : Label) (result : Except EvalError Kind) :
    Evaluation Label := do
  let kind ← Evaluation.ofResult s label.line result
  pure { label with kind }

theorem Label.interpolate_apply (b : Bindings) :
    label.interpolate s b = label.written s (interpolated b label.kind) b := rfl

theorem Label.written_tracked (result : Except EvalError Kind) :
    Tracked R W (label.written s result) fun _ => [] :=
  (Tracked.ofResult s label.line result).andThen fun _ => .pure _

theorem Kind.mem_reads_of_dynamic {x : String} (h : x ∈ kind.dynamic) : x ∈ kind.reads := by
  cases kind <;> first | exact h | cases h

theorem Label.interpolate_tracked {label : Label} (hR : ∀ x ∈ label.kind.reads, R x) :
    Tracked R W (label.interpolate s) label.lookups where
  reads := by
    intro b lookup h
    obtain ⟨x, hx, rfl⟩ := mem_map.1 h
    exact hR x (Kind.mem_reads_of_dynamic hx)
  keeps := by
    intro x hx b a b' h
    have hwritten : Tracked R W _ _ := label.written_tracked s (interpolated b label.kind)
    exact hwritten.keeps hx h
  sees := by
    intro x _ b found h
    obtain ⟨name, -, h⟩ := mem_map.1 h
    cases h
    rfl
  blind := by
    intro X b b' hb hlog
    have hsame : ∀ name ∈ label.kind.dynamic, b.find? name = b'.find? name := fun name hname =>
      hb name (hlog (name, b.find? name) (mem_map_of_mem hname))
    have hkind : interpolated b label.kind = interpolated b' label.kind := by
      rw [interpolated, interpolated, replacements_congr hsame]
    refine ⟨?_, map_congr_left fun name hname => by rw [hsame name hname]⟩
    rw [Label.interpolate_apply, Label.interpolate_apply, hkind]
    have hwritten : Tracked R W _ _ := label.written_tracked s (interpolated b' label.kind)
    exact (hwritten.blind hb (by simp [Unread])).1

theorem Bindings.find?_entering (scope : Scope) (b : Bindings) (x : String) :
    (Bindings.entering scope b).find? x = if x ∈ scope.modified then none else b.find? x := by
  rw [Bindings.entering]
  generalize scope.modified = names
  induction names generalizing b with
  | nil => simp
  | cons name names ih =>
    rw [foldl_cons, ih, NameTable.find?_erase]
    by_cases hx : x ∈ names
    · simp [hx]
    · by_cases hname : x = name <;> simp [hx, hname]

theorem Label.enter_apply {label : Label} {scope : Scope} (hscope : label.scope = some scope)
    (statements : Evaluation (List Node)) (b : Bindings) : label.enter s statements b =
      (statements (Bindings.entering scope b)).map fun r => (.mk label r.1, b) := by
  unfold Label.enter
  rw [hscope]
  change ((statements (Bindings.entering scope b) >>= fun r => pure (r.1, b)) >>= fun r =>
    pure (Node.mk label r.1, r.2)) = _
  cases statements (Bindings.entering scope b) <;> rfl

/-- A block that takes only variables in `W` away when it is entered. -/
def Label.ResetsOnly (W : String → Prop) (label : Label) : Prop :=
  ∀ scope, label.scope = some scope → ∀ x ∈ scope.modified, W x

/-- What happens in a block ends with it, and it looks up what its statements look up. -/
theorem Label.enter_tracked {statements : Evaluation (List Node)} {log : Bindings → List Lookup}
    (h : Tracked R W statements log) (hW : label.ResetsOnly W) :
    Tracked R W (label.enter s statements) (label.enterLookups log) := by
  cases hscope : label.scope with
  | none =>
    have hlog : label.enterLookups log = fun _ => [] := by
      funext b
      rw [Label.enterLookups, hscope]
    rw [hlog, Label.enter, hscope]
    exact .error _
  | some scope =>
    have hlog : label.enterLookups log = fun b => log (Bindings.entering scope b) := by
      funext b
      rw [Label.enterLookups, hscope]
    rw [hlog]
    refine ⟨h.reads, ?_, ?_, ?_⟩
    · intro x _ b a b' hrun
      rw [Label.enter_apply s hscope] at hrun
      obtain ⟨_, _, hrun⟩ := map_eq_ok.1 hrun
      cases hrun
      rfl
    · intro x hx b found hfound
      rw [h.sees hx hfound, Bindings.find?_entering, if_neg fun hmem => hx (hW scope hscope x hmem)]
    · intro X b b' hb hlog
      have hin : AgreeExcept X (Bindings.entering scope b) (Bindings.entering scope b') := by
        intro y hy
        rw [Bindings.find?_entering, Bindings.find?_entering, hb y hy]
      obtain ⟨hsame, heq⟩ := h.blind hin hlog
      refine ⟨?_, heq⟩
      rw [Label.enter_apply s hscope, Label.enter_apply s hscope]
      generalize statements (Bindings.entering scope b) = r at hsame
      generalize statements (Bindings.entering scope b') = r' at hsame
      cases hsame with
      | ok _ => exact .ok hb
      | error e => exact .error e

/-! ## Expressions -/

/-- The variables that a node of a kind sets. -/
def Kind.settings : Kind → List String
  | .declaration name => [name]
  | .assign name _ => [name]
  | _ => []

theorem Kind.mem_settings
    (h : kind.treatment = .declare name ∨ ∃ op, kind.treatment = .assign name op) :
    name ∈ kind.settings := by
  unfold Kind.treatment at h
  split at h <;> simp_all [Kind.settings]

theorem Kind.eq_block_of_treatment (h : kind.treatment = .block) : kind = .block := by
  unfold Kind.treatment at h
  split at h <;> simp_all

theorem Kind.eq_assign_of_treatment {operator : Option AssignOp}
    (h : kind.treatment = .assign name operator) : kind = .assign name operator := by
  unfold Kind.treatment at h
  split at h <;> simp_all

/-- A tree that sets only variables in `W`: its declarations and assignments are of them, and so is
what its blocks take away when they are entered. -/
def Node.SetsOnly (W : String → Prop) (n : Node) : Prop :=
  ∀ m ∈ n.preorder, (∀ x ∈ m.kind.settings, W x) ∧ (m.kind = .block → m.label.ResetsOnly W) ∧
    (m.kind.treatment = .rules →
      ∀ c ∈ m.children, c.relation = some .rules → c.label.ResetsOnly W)

/-- A tree that reads only variables in `R`. -/
def Node.ReadsOnly (R : String → Prop) (n : Node) : Prop :=
  ∀ m ∈ n.preorder, ∀ x ∈ m.kind.reads, R x

/-- A tree that reads only variables in `R` and sets only variables in `W`. -/
structure Node.Uses (R W : String → Prop) (n : Node) : Prop where
  readsOnly : n.ReadsOnly R
  setsOnly : n.SetsOnly W

section Tracked

variable {s : Surroundings} {l : Label} {cs : List Node}

section

variable (h : (Node.mk l cs).SetsOnly W)

include h

theorem Node.SetsOnly.settings : ∀ x ∈ l.kind.settings, W x :=
  (h _ (self_mem_preorder _)).1

theorem Node.SetsOnly.block (hk : l.kind.treatment = .block) : l.ResetsOnly W :=
  (h _ (self_mem_preorder _)).2.1 (Kind.eq_block_of_treatment hk)

theorem Node.SetsOnly.rules (hk : l.kind.treatment = .rules) :
    ∀ c ∈ cs, c.relation = some .rules → c.label.ResetsOnly W :=
  (h _ (self_mem_preorder _)).2.2 hk

theorem Node.SetsOnly.child {c : Node} (hc : c ∈ cs) : c.SetsOnly W :=
  fun m hm => h m (mem_preorder_of_mem hc hm)

end

theorem Node.ReadsOnly.self (h : (Node.mk l cs).ReadsOnly R) : ∀ x ∈ l.kind.reads, R x :=
  h _ (self_mem_preorder _)

theorem Node.Uses.child (h : (Node.mk l cs).Uses R W) {c : Node} (hc : c ∈ cs) : c.Uses R W :=
  ⟨fun m hm => h.readsOnly m (mem_preorder_of_mem hc hm), h.setsOnly.child hc⟩

open Node

theorem evaluate_reference {n : Node} (hkind : n.kind = .reference name) (b : Bindings) :
    n.evaluate s b =
      match b.find? name with
      | some value => .ok (value.copied.withRelation n.relation, b)
      | none => .error ⟨.eval (.undefinedVariable name), ⟨s.file, n.line⟩⟩ := by
  obtain ⟨⟨kind, line, span, relation, comments, scope⟩, children⟩ := n
  cases hkind
  unfold evaluate
  change (match b.find? name with
    | some value => pure (value.copied.withRelation relation)
    | none => Evaluation.fail s line (.undefinedVariable name) : Evaluation Node) b = _
  cases b.find? name <;> rfl

theorem valueLookups_reference {n : Node} (hkind : n.kind = .reference name) (b : Bindings) :
    n.valueLookups s b = [(name, b.find? name)] := by
  obtain ⟨⟨kind, line, span, relation, comments, scope⟩, children⟩ := n
  cases hkind
  unfold valueLookups
  rfl

/-- An operator looks up what its operands look up.  The default operator does not evaluate a
variable that is unset, but looks it up all the same. -/
theorem evaluate_binary_tracked {left right : Node}
    (hleft : Tracked R W (left.evaluate s) (left.valueLookups s))
    (hright : Tracked R W (right.evaluate s) (right.valueLookups s)) {op : BinaryOp}
    (hkind : l.kind = .binary op) :
    Tracked R W ((mk l [left, right]).evaluate s) ((mk l [left, right]).valueLookups s) := by
  have hparts : l = { l with kind := .binary op } := by rw [← hkind]
  let after (value : Value) : Evaluation Node := do
    let rightValue ← Value.ofNode <$> right.evaluate s
    let result ← Evaluation.ofResult s l.line
      ((Value.binary op value rightValue).mapError EvalError.operation)
    pure ((result.toNode l.line).withRelation l.relation)
  have hafter (value : Value) : Tracked R W (after value) (right.valueLookups s) :=
    (hright.map Value.ofNode).andThen fun _ =>
      (Tracked.ofResult s l.line _).andThen fun _ => .pure _
  have hrun (b : Bindings) : (mk l [left, right]).evaluate s b =
      if op == .default && isUnset b left.kind then after .null b
      else (left.evaluate s >>= fun value => after (Value.ofNode value)) b := by
    rw [hparts]
    conv_lhs => unfold evaluate
    change (if op == .default && isUnset b left.kind then pure Value.null >>= after
      else (Value.ofNode <$> left.evaluate s) >>= after) b = _
    rw [bind_map_left]
    split <;> rfl
  have hlog (b : Bindings) : (mk l [left, right]).valueLookups s b =
      left.valueLookups s b ++
        if op == .default && isUnset b left.kind then right.valueLookups s b
        else (left.evaluate s).followed (fun _ => right.valueLookups s) b := by
    rw [hparts]
    conv_lhs => unfold valueLookups
  by_cases hd : op = .default ∧ ∃ name, left.kind = .reference name
  · obtain ⟨rfl, name, hname⟩ := hd
    let f (found : Option Node) : Evaluation Node :=
      after (match found with
        | some value => Value.ofNode (value.copied.withRelation left.relation)
        | none => .null)
    have hmem : (name, NameTable.find? name []) ∈ left.valueLookups s [] := by
      rw [valueLookups_reference hname]
      exact mem_cons_self
    have hf := Tracked.lookup (hleft.reads hmem) fun found => (hafter _ : Tracked R W (f found) _)
    have hrun : (mk l [left, right]).evaluate s = fun b : Bindings => f (b.find? name) b := by
      funext b
      rw [hrun, hname]
      cases hfound : b.find? name with
      | none => simp [isUnset, NameTable.contains, hfound, f]
      | some value =>
        have hset : isUnset b (.reference name) = false := by
          simp [isUnset, NameTable.contains, hfound]
        rw [hset]
        change (left.evaluate s b >>= fun r => after (Value.ofNode r.1) r.2) = _
        rw [evaluate_reference hname, hfound]
        rfl
    have hlog : (mk l [left, right]).valueLookups s = fun b =>
        (name, b.find? name) :: right.valueLookups s b := by
      funext b
      rw [hlog, hname, valueLookups_reference hname]
      cases hfound : b.find? name with
      | none => simp [isUnset, NameTable.contains, hfound]
      | some value =>
        rw [Evaluation.followed, evaluate_reference hname, hfound]
        simp [isUnset, NameTable.contains, hfound]
    rw [hrun, hlog]
    exact hf
  · have hset (b : Bindings) : (op == .default && isUnset b left.kind) = false := by
      rw [Bool.and_eq_false_iff, beq_eq_false_iff_ne]
      by_cases hop : op = .default
      · refine .inr ?_
        unfold isUnset
        split
        · exact absurd ⟨hop, _, ‹_›⟩ hd
        · rfl
      · exact .inl hop
    have hrun : (mk l [left, right]).evaluate s =
        left.evaluate s >>= fun value => after (Value.ofNode value) := by
      funext b
      rw [hrun, hset]
      rfl
    have hlog : (mk l [left, right]).valueLookups s = fun b =>
        left.valueLookups s b ++ (left.evaluate s).followed (fun _ => right.valueLookups s) b := by
      funext b
      rw [hlog, hset]
      rfl
    rw [hrun, hlog]
    exact hleft.bind fun value => hafter (Value.ofNode value)

mutual

/-- **Expressions look up what is listed and set what they assign.** -/
theorem evaluate_tracked : ∀ n : Node, n.Uses R W → Tracked R W (n.evaluate s) (n.valueLookups s)
  | .mk ⟨kind, line, span, relation, comments, scope⟩ children, h => by
    have hall := evaluateAll_tracked children fun c => h.child
    have hargs := evaluateArguments_tracked children fun c => h.child
    have hinit := evaluateInitializer_tracked line children fun c => h.child
    cases kind with
    | reference name =>
      have hfound (found : Option Node) : Tracked R W (match found with
          | some value => pure (value.copied.withRelation relation)
          | none => Evaluation.fail s line (.undefinedVariable name) : Evaluation Node)
          fun _ => [] := by
        cases found with
        | none => exact .error _
        | some value => exact .pure _
      unfold evaluate
      exact .lookup (h.readsOnly.self name mem_cons_self) hfound
    | binary op =>
      match children, h with
      | [left, right], h =>
        have hleft := evaluate_tracked left (h.child (by simp))
        have hright := evaluate_tracked right (h.child (by simp))
        exact evaluate_binary_tracked hleft hright rfl
      | [], _ | [_], _ | _ :: _ :: _ :: _, _ => unfold evaluate; exact .pure _
    | unary op =>
      match children, h with
      | [], _ => unfold evaluate; exact .pure _
      | operand :: rest, h =>
        have hoperand := evaluate_tracked operand (h.child mem_cons_self)
        unfold evaluate
        exact (hoperand.map Value.ofNode).andThen fun _ =>
          (Tracked.ofResult s line _).andThen fun _ => .pure _
    | assign name op =>
      have hW : W name := h.setsOnly.settings name (by simp [Kind.settings])
      unfold evaluate
      exact hinit.bind fun value => .assigned s h.readsOnly.self hW line value fun _ => .pure _
    | command name =>
      unfold evaluate
      refine hargs.andThen fun cs => ?_
      split
      · exact .pure _
      · exact (Tracked.ofResult s line _).andThen fun _ => .pure _
    | function name =>
      unfold evaluate
      exact hargs.andThen fun _ => .pure _
    | list | comma | slash =>
      unfold evaluate
      exact hall.andThen fun _ => .pure _
    | _ =>
      unfold evaluate
      exact .pure _

theorem evaluateAll_tracked : ∀ ns : List Node, (∀ n ∈ ns, n.Uses R W) →
    Tracked R W (evaluateAll s ns) (valueLookupsAll s ns)
  | [], _ => .pure []
  | n :: ns, h => by
    obtain ⟨hn, hns⟩ := forall_mem_cons.1 h
    have hrest := evaluateAll_tracked ns hns
    exact (evaluate_tracked n hn).bind fun _ => hrest.andThen fun _ => .pure _

theorem evaluateArguments_tracked : ∀ ns : List Node, (∀ n ∈ ns, n.Uses R W) →
    Tracked R W (evaluateArguments s ns) (argumentLookups s ns)
  | [], _ => .pure []
  | .mk label children :: ns, h => by
    obtain ⟨hn, hns⟩ := forall_mem_cons.1 h
    have hall := evaluateAll_tracked children fun c => hn.child
    have hrest := evaluateArguments_tracked ns hns
    unfold evaluateArguments argumentLookups
    split
    · exact hall.andThen fun _ => .pure _
    · exact hrest.andThen fun _ => .pure _

theorem evaluateInitializer_tracked (line : Nat) : ∀ ns : List Node, (∀ n ∈ ns, n.Uses R W) →
    Tracked R W (evaluateInitializer s line ns) (initializerLookups s ns)
  | [], _ => .pure _
  | .mk label children :: ns, h => by
    obtain ⟨hn, hns⟩ := forall_mem_cons.1 h
    have hvalue := evaluate_tracked (.mk label children) hn
    have hrest := evaluateInitializer_tracked line ns hns
    unfold evaluateInitializer initializerLookups
    split
    · exact hvalue
    · exact hrest

end

mutual

/-- **Statements look up what is listed and set what they declare and assign.** -/
theorem execute_tracked : ∀ n : Node, n.Uses R W → Tracked R W (n.execute s) (n.lookups s)
  | .mk label children, h => by
    have hvalues := evaluateAll_tracked (s := s) children fun c => h.child
    have hargs := evaluateArguments_tracked (s := s) children fun c => h.child
    have hinit := evaluateInitializer_tracked (s := s) label.line children fun c => h.child
    have hall := executeAll_tracked children fun c => h.child
    have hrules hk := executeRules_tracked children (fun c => h.child) (h.setsOnly.rules hk)
    have hcondition := conditionHolds_tracked children fun c => h.child
    have hbranch relation := executeBranch_tracked relation children fun c => h.child
    have hlabel := label.interpolate_tracked (W := W) s h.readsOnly.self
    unfold execute lookups
    cases htreat : label.kind.treatment with
    | branch => exact hcondition.bind fun holds => hbranch _
    | declare name =>
      have hW : W name := h.setsOnly.settings name (Kind.mem_settings (.inl htreat))
      match hvalue : (mk label children).child? .initializer with
      | none => exact (Tracked.unbindName hW).andThen fun _ => .pure _
      | some value =>
        have hvalue := evaluate_tracked (s := s) value (h.child (mem_of_find?_eq_some hvalue))
        exact hvalue.andThen fun v => (Tracked.bindName hW v).andThen fun _ => .pure _
    | assign name operator =>
      have hW : W name := h.setsOnly.settings name (Kind.mem_settings (.inr ⟨operator, htreat⟩))
      have hR := Kind.eq_assign_of_treatment htreat ▸ h.readsOnly.self
      exact hinit.bind fun value => .assigned s hR hW label.line value fun _ => .pure _
    | values => exact hlabel.bind fun _ => hvalues.andThen fun _ => .pure _
    | rules => exact hlabel.bind fun _ => (hrules htreat).andThen fun _ => .pure _
    | block => exact (label.enter_tracked s hall (h.setsOnly.block htreat)).andThen fun _ => .pure _
    | arguments => exact hargs.andThen fun _ => .pure _
    | keep => exact .pure _

theorem executeAll_tracked : ∀ ns : List Node, (∀ n ∈ ns, n.Uses R W) →
    Tracked R W (executeAll s ns) (lookupsAll s ns)
  | [], _ => .pure []
  | n :: ns, h => by
    obtain ⟨hn, hns⟩ := forall_mem_cons.1 h
    have hrest := executeAll_tracked ns hns
    exact (execute_tracked n hn).bind fun _ => hrest.andThen fun _ => .pure _

theorem executeRules_tracked : ∀ ns : List Node, (∀ n ∈ ns, n.Uses R W) →
    (∀ n ∈ ns, n.relation = some .rules → n.label.ResetsOnly W) →
    Tracked R W (executeRules s ns) (ruleLookups s ns)
  | [], _, _ => .pure []
  | .mk label children :: ns, h, hreset => by
    obtain ⟨hn, hns⟩ := forall_mem_cons.1 h
    obtain ⟨hlabel, hlabels⟩ := forall_mem_cons.1 hreset
    have hall := executeAll_tracked children fun c => hn.child
    have hrest := executeRules_tracked ns hns hlabels
    unfold executeRules ruleLookups
    split
    · exact (label.enter_tracked s hall (hlabel ‹_›)).andThen fun _ => .pure _
    · exact hrest.andThen fun _ => .pure _

theorem conditionHolds_tracked : ∀ ns : List Node, (∀ n ∈ ns, n.Uses R W) →
    Tracked R W (conditionHolds s ns) (conditionLookups s ns)
  | [], _ => .pure false
  | .mk label children :: ns, h => by
    obtain ⟨hn, hns⟩ := forall_mem_cons.1 h
    have hvalue := evaluate_tracked (s := s) (.mk label children) hn
    have hrest := conditionHolds_tracked ns hns
    unfold conditionHolds conditionLookups
    split
    · exact hvalue.andThen fun _ => .pure _
    · exact hrest

theorem executeBranch_tracked (relation : Relation) : ∀ ns : List Node,
    (∀ n ∈ ns, n.Uses R W) → Tracked R W (executeBranch s relation ns) (branchLookups s relation ns)
  | [], _ => .pure []
  | .mk label children :: ns, h => by
    obtain ⟨hn, hns⟩ := forall_mem_cons.1 h
    have hself := execute_tracked (.mk label children) hn
    have hall := executeAll_tracked children fun c => hn.child
    have hrest := executeBranch_tracked relation ns hns
    unfold executeBranch branchLookups
    split
    · cases label.kind with
      | conditional => exact hself
      | _ => exact hall
    · exact hrest

end

end Tracked

end Cascade
