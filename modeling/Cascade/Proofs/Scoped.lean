import Cascade.Proofs.InclusionGrammar
import Cascade.Proofs.Removal

/-!
# Every block has its scope

Two stages look up the record of what a block does with names: the removal of what is unused, and
evaluation.  A block without such a record is an error of its own, which speaks of the compiler and
not of the stylesheet.  Here it is shown that nobody ever sees it.

The removal counts names anew in every round, so it only meets blocks with a record.  Expanding and
extending mixins makes blocks without one, but the second removal ends with a round that counts all
of them, and evaluation enters no block that was not there at that time: of a conditional it takes
statements out of a branch, with the blocks they have.
-/

set_option autoImplicit false

namespace Cascade

open Node List

variable {cs : List Node} {sheet : Sheet} {sharing : Prop} {P : Cause → Prop}

/-! ## Failing computations -/

section FailsOnly

variable {α β : Type}

/-- The computation fails with no other causes than the given ones, if at all. -/
def FailsOnly (P : Cause → Prop) (x : Except Error α) : Prop :=
  ∀ e, x = .error e → P e.cause

theorem FailsOnly.ok (a : α) : FailsOnly P (.ok a) := by
  rintro e ⟨⟩

theorem FailsOnly.error {e : Error} (h : P e.cause) :
    FailsOnly P (.error e : Except Error α) := by
  rintro _ ⟨⟩
  exact h

theorem FailsOnly.bind {x : Except Error α} {f : α → Except Error β} (hx : FailsOnly P x)
    (hf : ∀ a, x = .ok a → FailsOnly P (f a)) : FailsOnly P (x >>= f) := by
  cases x with
  | error e => exact .error (hx e rfl)
  | ok a => exact hf a rfl

theorem FailsOnly.map {x : Except Error α} {f : α → β} (hx : FailsOnly P x) :
    FailsOnly P (x.map f) := by
  cases x with
  | error e => exact .error (hx e rfl)
  | ok a => exact .ok _

theorem FailsOnly.mapM {f : α → Except Error β} {xs : List α}
    (h : ∀ x ∈ xs, FailsOnly P (f x)) : FailsOnly P (xs.mapM f) := by
  induction xs with
  | nil => exact .ok _
  | cons x xs ih =>
    obtain ⟨hx, hxs⟩ := forall_mem_cons.1 h
    rw [mapM_cons]
    exact hx.bind fun _ _ => (ih hxs).bind fun _ _ => .ok _

theorem FailsOnly.foldlM {step : β → α → Except Error β} {xs : List α}
    (h : ∀ b x, FailsOnly P (step b x)) (b : β) : FailsOnly P (xs.foldlM step b) := by
  induction xs generalizing b with
  | nil => exact .ok _
  | cons x xs ih =>
    rw [foldlM_cons]
    exact (h b x).bind fun c _ => ih c

end FailsOnly

/-! ## The stages before and after evaluation -/

theorem Node.containersAll_failsOnly {file : Option String} {descent : Descent}
    (h : ∀ c ∈ cs, FailsOnly P (c.containers file descent)) :
    FailsOnly P (containersAll file descent cs) := by
  induction cs with
  | nil => exact .ok _
  | cons c cs ih =>
    obtain ⟨hc, hcs⟩ := forall_mem_cons.1 h
    rw [containersAll]
    exact hc.bind fun _ _ => (ih hcs).bind fun _ _ => .ok _

section Stages

variable (hresolve : ∀ error, P (.resolve error)) (heval : ∀ error, P (.eval error))

include heval in
/-- Putting fields into a tree fails with errors of evaluation only. -/
theorem Fields.substitute_failsOnly {fields : Fields} {file : Option String} (n : Node) :
    ∀ inCondition, FailsOnly P (fields.substitute file inCondition n) := by
  induction n using Node.ind with
  | mk l cs ih =>
    have hall : ∀ ds : List Node, (∀ d ∈ ds, d ∈ cs) → ∀ inCondition,
        FailsOnly P (Fields.substituteAll fields file inCondition ds) := by
      intro ds hds inCondition
      induction ds with
      | nil => exact .ok _
      | cons d ds ihds =>
        obtain ⟨hd, hds⟩ := forall_mem_cons.1 hds
        rw [Fields.substituteAll]
        exact (ih d hd inCondition).bind fun _ _ => (ihds hds).bind fun _ _ => .ok _
    have hparts : ∀ ds : List Node, (∀ d ∈ ds, d ∈ cs) → ∀ inCondition,
        FailsOnly P (Fields.substituteParts fields file inCondition ds) := by
      intro ds hds inCondition
      induction ds with
      | nil => exact .ok _
      | cons d ds ihds =>
        obtain ⟨ld, ks⟩ := d
        obtain ⟨hd, hds⟩ := forall_mem_cons.1 hds
        rw [Fields.substituteParts]
        split
        · exact (ih _ hd true).bind fun _ _ => (hall ds hds inCondition).bind fun _ _ => .ok _
        · exact (ih _ hd inCondition).bind fun _ _ => (ihds hds).bind fun _ _ => .ok _
    intro inCondition
    rw [Fields.substitute]
    split
    · dsimp only
      split
      · exact .error (heval _)
      · split
        · exact .error (heval _)
        · exact (hall cs (fun _ h => h) inCondition).bind fun _ _ => .ok _
    · exact (hparts cs (fun _ h => h) inCondition).bind fun _ _ => .ok _
    · exact (hall cs (fun _ h => h) inCondition).bind fun _ _ => .ok _

include hresolve

theorem Sheet.findMixin_failsOnly (sheet : Sheet) (path : Path) (name : String) :
    FailsOnly P (sheet.findMixin path name) := by
  unfold Sheet.findMixin
  split
  · exact .ok _
  · exact .error (hresolve _)

theorem Sheet.expandCall_failsOnly (sheet : Sheet) (path place : Path) :
    FailsOnly P (sheet.expandCall path place) := by
  unfold Sheet.expandCall
  split
  · split
    · exact .error (hresolve _)
    · exact .ok _
  · exact .ok _

theorem Sheet.expandMixins_failsOnly (sheet : Sheet) : FailsOnly P sheet.expandMixins := by
  have hround (round : ExpansionRound) (sheet : Sheet) : FailsOnly P (sheet.expandRound round) := by
    refine .foldlM (fun sheet path => ?_) sheet
    unfold ExpansionRound.visit
    split
    · split
      · exact (sheet.findMixin_failsOnly hresolve path _).bind fun place _ =>
          sheet.expandCall_failsOnly hresolve path place
      · exact .ok _
    · exact .ok _
  exact (hround .definitions sheet).bind fun sheet _ => hround .rules sheet

theorem Descent.enter_failsOnly (file : Option String) (keep : Bool) (descent : Descent)
    (n : Node) : FailsOnly P (descent.enter file keep n) := by
  unfold Descent.enter
  dsimp only
  split
  case h_1 | h_2 =>
    split
    · exact .ok _
    · exact .error (hresolve _)
  all_goals exact .ok _

theorem Sheet.contextAt_failsOnly (sheet : Sheet) (path : Path) (stop : Option Path) :
    FailsOnly P (sheet.contextAt path stop) := by
  have hcontext (keep : Bool) (chain : List Node) :
      FailsOnly P (contextOf sheet.file keep chain) :=
    (FailsOnly.foldlM (Descent.enter_failsOnly hresolve sheet.file keep) _).map
  unfold Sheet.contextAt
  split
  · exact hcontext _ _
  · exact hcontext _ _

theorem Sheet.processExtends_failsOnly (sheet : Sheet) : FailsOnly P sheet.processExtends := by
  refine (FailsOnly.foldlM (fun sheet path => ?_) sheet).bind fun _ _ => .ok _
  unfold Sheet.extendAt
  split
  · split
    · exact .ok _
    · refine (sheet.findMixin_failsOnly hresolve path _).bind fun place _ => ?_
      unfold Sheet.extendMixin
      split
      · refine (sheet.contextAt_failsOnly hresolve path _).bind fun context _ => ?_
        split
        · exact sheet.expandCall_failsOnly hresolve path place
        · split
          · exact .error (hresolve _)
          · exact .ok _
      · exact .ok _
  · exact .ok _

namespace Node

/-- The containers of a tree and those of its children. -/
theorem containers_failsOnly (file : Option String) (n : Node) : ∀ descent,
    FailsOnly P (n.containers file descent) ∧
      FailsOnly P (containersAll file descent n.children) := by
  induction n using Node.ind with
  | mk l cs ih =>
    have hall (descent : Descent) : FailsOnly P (containersAll file descent cs) :=
      containersAll_failsOnly fun c hc => (ih c hc descent).1
    have hrules (descent : Descent) (ds : List Node) (hds : ∀ d ∈ ds, d ∈ cs) :
        FailsOnly P (ruleContainers file descent ds) := by
      induction ds with
      | nil => exact .ok _
      | cons d ds ihds =>
        obtain ⟨ld, ks⟩ := d
        obtain ⟨hd, hds⟩ := forall_mem_cons.1 hds
        rw [ruleContainers]
        split
        · exact (ih _ hd descent).2
        · exact ihds hds
    refine fun descent => ⟨?_, hall descent⟩
    rw [containers]
    split
    · exact .ok _
    · refine (Descent.enter_failsOnly hresolve file false descent _).bind fun descent _ => ?_
      split
      · exact .ok _
      · exact (hrules descent cs fun _ h => h).bind fun _ _ => .ok _

end Node

theorem Sheet.flatten_failsOnly (sheet : Sheet) : FailsOnly P sheet.flatten := by
  refine (FailsOnly.mapM fun statement _ => ?_).bind fun _ _ => .ok _
  unfold lift
  split
  · exact .ok _
  · split
    · exact .ok _
    · exact ((statement.containers_failsOnly hresolve sheet.file {}).1).bind fun _ _ => .ok _

end Stages

/-! ## Reduction -/

/-- Evaluation right after the count fails with errors of evaluation only. -/
theorem IsSheet.execute_failsOnly (hs : IsSheet sharing sheet.root)
    (heval : ∀ error, P (.eval error)) (commands : CommandHost) :
    FailsOnly P (sheet.scanScopes.execute commands) := by
  have hscanned : IsSheet sharing sheet.scanScopes.root := hs.edited sheet.scanScopes_edited
  have hmeets : Meets True False sheet.scanScopes.root := by
    refine ⟨fun _ => trivial, fun m hm hk hnone => ?_⟩
    obtain ⟨scope, hscope, -⟩ := Sheet.scope_of_scanScopes hs m hm
      (by rw [Kind.eq_block hk]; rfl)
    rw [hnone] at hscope
    cases hscope
  intro e he
  obtain he | ⟨_, -, he⟩ := bind_eq_error.1 he
  · obtain ⟨error, hcause⟩ | ⟨h, -⟩ :=
      (hscanned.enter_leaves hmeets nofun _).error [] e (fun _ h => by cases h) he
    · rw [hcause]
      exact heval error
    · exact h.elim
  · cases he

/-- Reduction fails with the errors of mixins, selectors and evaluation only. -/
theorem IsSheet.reduce_failsOnly (hs : IsSheet True sheet.root)
    (hresolve : ∀ error, P (.resolve error)) (heval : ∀ error, P (.eval error))
    (profile : Profile) : FailsOnly P (sheet.reduce profile) := by
  unfold Sheet.reduce
  refine (FailsOnly.map (Fields.substitute_failsOnly heval _ _)).bind fun filled hfilled => ?_
  obtain ⟨rest, hrest, hsrest, -⟩ := Sheet.exists_cleanUp (hs.substituteFields hfilled)
  rw [hrest]
  have hscanned : IsSheet True rest.scanScopes.root := hsrest.edited rest.scanScopes_edited
  refine (Sheet.expandMixins_failsOnly hresolve _).bind fun expanded hexpanded => ?_
  have hsexpanded : IsSheet True expanded.root := hscanned.expandMixins hexpanded
  refine (Sheet.processExtends_failsOnly hresolve _).bind fun extended hextended => ?_
  obtain ⟨last, hlast, hslast, -⟩ :=
    Sheet.exists_cleanUp (hsexpanded.processExtends hextended)
  rw [hlast]
  exact (hslast.execute_failsOnly heval _).bind fun _ _ => Sheet.flatten_failsOnly hresolve _

/-- **The error of a block without scope is never seen.**  No reduction of a parsed stylesheet ends
with it, be its inclusions resolved or not, and whatever the profile is. -/
theorem missingScope_unreachable {source : Source} {sheet : Sheet}
    (h : Sheet.parse source = .ok sheet) (profile : Profile) :
    (∀ location, sheet.reduce profile ≠ .error ⟨.scope .missingScope, location⟩) ∧
      ∀ library resolved, sheet.resolveInclusions library = .ok resolved →
        ∀ location, resolved.reduce profile ≠ .error ⟨.scope .missingScope, location⟩ := by
  have hs : IsSheet True sheet.root := by
    obtain ⟨root, hroot, rfl⟩ := map_eq_ok.1 h
    exact parse_isSheet hroot
  have hreduce (sheet : Sheet) (hs : IsSheet True sheet.root) :
      FailsOnly (· ≠ .scope .missingScope) (sheet.reduce profile) :=
    hs.reduce_failsOnly (by simp) (by simp) profile
  refine ⟨fun location he => hreduce sheet hs _ he rfl, fun library resolved hresolved => ?_⟩
  exact fun location he => hreduce resolved (hs.resolveInclusions hresolved) _ he rfl

/-- Statements are passed through an extended mixin into new blocks, among them an inclusion. -/
def passedInclusion : Source where
  text := "$m\x7bn\x7b@content;\x7d\x7da\x7b$m<\x7bb\x7bc:$x;\x7d@include \"p\";\x7d\x7d"

/-- The stylesheet for it, with a rule in a branch. -/
def branchLibrary : Library :=
  .ofTable [("p", "@if 1\x7bd\x7b$y=2;e:$x;\x7d\x7d")] "not found"

/-- The reduction fails, but for a variable that nobody has set. -/
theorem missingScope_unreachable_included :
    ∃ sheet resolved, Sheet.parse passedInclusion = .ok sheet ∧
      sheet.resolveInclusions branchLibrary = .ok resolved ∧
      (resolved.reduce {}).map Sheet.file =
        .error ⟨.eval (.undefinedVariable "x"), ⟨none, 1⟩⟩ ∧
      (∀ location, sheet.reduce {} ≠ .error ⟨.scope .missingScope, location⟩) ∧
      ∀ location, resolved.reduce {} ≠ .error ⟨.scope .missingScope, location⟩ := by
  have hrun : (do
      let sheet ← Sheet.parse passedInclusion
      let resolved ← sheet.resolveInclusions branchLibrary
      pure ((resolved.reduce {}).map Sheet.file)) =
      .ok (.error ⟨.eval (.undefinedVariable "x"), ⟨none, 1⟩⟩) := by
    decide +kernel
  obtain ⟨sheet, hp, hrun⟩ := bind_eq_ok.1 hrun
  obtain ⟨resolved, hresolved, hrun⟩ := bind_eq_ok.1 hrun
  obtain ⟨hsheet, hincluded⟩ := missingScope_unreachable hp {}
  exact ⟨sheet, resolved, hp, hresolved, pure_eq_ok.1 hrun, hsheet,
    hincluded branchLibrary resolved hresolved⟩

end Cascade
