import Cascade.Proofs.Removal

/-!
# Removing what nobody uses

Names are counted to find out which definitions nobody uses.  This file compares a compilation with
one that counts names but removes nothing.  Without mixins the two give the same; with mixins they
need not, since names are counted before the bodies of mixins stand where they are used.
-/

set_option autoImplicit false

namespace Cascade

open Node List

variable {sheet sheet' : Sheet}

/-- Reduces a stylesheet to plain rules without removing anything before. -/
def Sheet.reduceWhole (sheet : Sheet) (profile : Profile) : Except Error Sheet := do
  let sheet ← sheet.substituteFields profile.fields
  let sheet ← sheet.scanScopes.expandMixins
  let sheet ← sheet.processExtends
  let sheet ← sheet.scanScopes.execute profile.commands
  sheet.flatten

/-- Compiles a stylesheet without removing anything before. -/
def compileWhole (source : Source) (profile : Profile) (layout : Layout) :
    Except Error String := do
  let sheet ← Sheet.parse source
  let sheet ← sheet.reduceWhole profile
  sheet.css layout

/-! ## Uses of mixins that are not there -/

section WithoutMixins

variable {sheet : Sheet} (h : ∀ m ∈ sheet.root.preorder, m.kind.isMixin = false)
include h

theorem Sheet.get?_ne_mixin {path : Path} {m : Node} (hm : sheet.root.get? path = some m)
    {name : String} {selector : Option (List String)} {dropped : Nat} :
    m.kind ≠ .mixin name selector dropped := by
  intro hk
  have hmixin := h m (mem_preorder.2 ⟨path, hm⟩)
  rw [hk] at hmixin
  cases hmixin

theorem Sheet.isInsideMixin_eq_false (path : Path) : sheet.root.isInsideMixin path = false :=
  any_eq_false.2 fun m hm => Bool.eq_false_iff.1
    (h m (mem_preorder_of_mem_chain (dropLast_subset _ hm)))

/-- Where no mixin is defined, an expansion that succeeds has found no copying use. -/
theorem Sheet.expandMixins_cases (hexpand : sheet.expandMixins = .ok sheet') :
    sheet' = sheet ∧ ∀ m ∈ sheet.root.preorder, ∀ name, m.kind ≠ .call name false := by
  have hstep : ∀ (round : ExpansionRound) (path : Path) (sheet' : Sheet),
      round.visit sheet path = .ok sheet' →
      sheet' = sheet ∧ ∀ call name extend, sheet.root.get? path = some call →
        call.kind = .call name extend → round.selects sheet.root path extend = false := by
    intro round path sheet' hvisit
    obtain hskip | ⟨_, _, _, _, _, _, _, _, -, -, -, -, hm, hk, -⟩ :=
      ExpansionRound.visit_cases hvisit
    · exact hskip
    · exact absurd hk (Sheet.get?_ne_mixin h hm)
  have hconstant := fun round path sheet' hvisit => (hstep round path sheet' hvisit).1
  obtain ⟨sheet₁, hdefinitions, hrules⟩ := bind_eq_ok.1 hexpand
  obtain ⟨rfl, -⟩ := foldlM_eq_ok_of_constant (hconstant .definitions) hdefinitions
  obtain ⟨rfl, hvisit⟩ := foldlM_eq_ok_of_constant (hconstant .rules) hrules
  refine ⟨rfl, fun m hm name hk => ?_⟩
  obtain ⟨path, hpath⟩ := mem_preorder.1 hm
  have hplace : path ∈ sheet'.root.callPlaces := mem_filterMap.2
    ⟨(path, m), mem_placesUpFrom.2 ⟨path, rfl, hpath⟩, by simp only [hk]⟩
  have hselects := (hstep .rules path _ (hvisit path hplace)).2 m name false hpath hk
  simp [ExpansionRound.selects, Sheet.isInsideMixin_eq_false h] at hselects

/-- Nor is there an extending use, if extending succeeds. -/
theorem Sheet.processExtends_cases (hextend : sheet.processExtends = .ok sheet') :
    ∀ m ∈ sheet.root.preorder, ∀ name, m.kind ≠ .call name true := by
  have hstep : ∀ (path : Path) (sheet' : Sheet), sheet.extendAt path = .ok sheet' →
      sheet' = sheet ∧ ∀ call name, sheet.root.get? path = some call →
        call.kind ≠ .call name true := by
    intro path sheet' hvisit
    obtain ⟨heq, hinside⟩ | ⟨_, _, _, _, _, _, -, -, -, -, hm, hk, -⟩ := Sheet.extendAt_cases hvisit
    · refine ⟨heq, fun call name hcall hk => ?_⟩
      have hin := hinside call name hcall hk
      rw [Sheet.isInsideMixin_eq_false h] at hin
      cases hin
    · exact absurd hk (Sheet.get?_ne_mixin h hm)
  obtain ⟨sheet₁, hloop, -⟩ := bind_eq_ok.1 hextend
  obtain ⟨rfl, hvisit⟩ := foldlM_eq_ok_of_constant (fun path s hs => (hstep path s hs).1) hloop
  intro m hm name hk
  obtain ⟨path, hpath⟩ := mem_preorder.1 hm
  have hplace : path ∈ sheet₁.root.extendPlaces := mem_filterMap.2
    ⟨(path, m), mem_placesFrom.2 ⟨path, rfl, hpath⟩, by simp only [hk]⟩
  exact (hstep path _ (hvisit path (mem_reverse.2 hplace))).2 m name hpath hk

end WithoutMixins

/-- **Where no mixin is defined, none is used**, if the uses of mixins can be expanded and extended
at all.  So the stylesheet stays as it is. -/
theorem Sheet.unmixed_of_processExtends {expanded extended : Sheet}
    (h : sheet.root.FormsIn (·.isMixin = false))
    (hexpand : sheet.scanScopes.expandMixins = .ok expanded)
    (hextend : expanded.processExtends = .ok extended) :
    extended = sheet.scanScopes ∧ sheet.root.Unmixed := by
  have hmixin : ∀ m ∈ sheet.scanScopes.root.preorder, m.kind.isMixin = false := fun m hm =>
    m.kind.isMixin_form ▸ sheet.scanScopes_trimmed.formsIn h rfl m hm
  obtain ⟨rfl, hcopies⟩ := Sheet.expandMixins_cases hmixin hexpand
  have hextends := Sheet.processExtends_cases hmixin hextend
  have hu : sheet.scanScopes.root.Unmixed := by
    refine fun m hm => Kind.isUnmixed_form.2 ⟨hmixin m hm, fun hcall => ?_⟩
    obtain ⟨name, extend, hk⟩ := Kind.of_form hcall
    cases extend with
    | false => exact hcopies m hm name hk
    | true => exact hextends m hm name hk
  rw [Sheet.processExtends_eq hu.form_ne_call hu.isMixin] at hextend
  cases hextend
  refine ⟨rfl, fun m hm => ?_⟩
  obtain ⟨k, hk, heq⟩ := exists_kind_of_bare_eq sheet.bare_scanScopes.symm hm
  exact heq ▸ hu k hk

/-! ## Output -/

/-- What is evaluated to the same is compiled to the same. -/
theorem Sheet.EvaluatesAs.css {evaluated flat : Sheet} (h : sheet.EvaluatesAs sheet')
    {commands : CommandHost} {layout : Layout} {css : String}
    (hevaluated : sheet.execute commands = .ok evaluated) (hflat : evaluated.flatten = .ok flat)
    (hcss : flat.css layout = .ok css) :
    ∃ evaluated' flat', sheet'.execute commands = .ok evaluated' ∧
      evaluated'.flatten = .ok flat' ∧ flat'.css layout = .ok css := by
  obtain ⟨evaluated', hevaluated', hfile, hbare⟩ := h commands evaluated hevaluated
  obtain ⟨flat', hflat', hfile', hbare'⟩ := Sheet.flatten_of_bare_eq hfile hbare hflat
  refine ⟨evaluated', flat', hevaluated', hflat', ?_⟩
  rw [Sheet.css, hfile']
  exact cssAll_of_bare_eq hbare' hcss

/-- Both times unused variables are removed from a stylesheet without mixins, with nothing to expand
or extend between. -/
theorem Sheet.exists_cleanUp_cleanUp {sharing : Prop} (hs : IsSheet sharing sheet.root)
    (hu : sheet.root.Unmixed) :
    ∃ once twice : Sheet, sheet.cleanUp = .ok once ∧ once.expandMixins = .ok once ∧
      once.processExtends = .ok once ∧ once.cleanUp = .ok twice ∧
      sheet.scanScopes.EvaluatesAs twice := by
  obtain ⟨rest, hrest, hs₁, hsame⟩ := Sheet.exists_cleanUp hs
  obtain ⟨hu₁, hsame₁⟩ := hsame hu
  have hcounted : rest.scanScopes.root.Unmixed := rest.scanScopes_trimmed.formsIn hu₁ rfl
  obtain ⟨rest', hrest', -, hsame'⟩ := Sheet.exists_cleanUp (hs₁.edited rest.scanScopes_edited)
  have hsame₂ := (hsame' hcounted).2
  rw [Sheet.scanScopes_scanScopes hu₁] at hsame₂
  exact ⟨_, _, hrest, Sheet.expandMixins_eq hcounted.form_ne_call,
    Sheet.processExtends_eq hcounted.form_ne_call hcounted.isMixin, hrest', hsame₁.trans hsame₂⟩

/-- A mixin is defined somewhere in the stylesheet. -/
def Source.definesMixin (source : Source) : Bool :=
  match Sheet.parse source with
  | .ok sheet => sheet.root.preorder.any (·.kind.isMixin)
  | .error _ => false

theorem Source.formsIn_of_definesMixin {source : Source} (h : source.definesMixin = false)
    (hp : Sheet.parse source = .ok sheet) : sheet.root.FormsIn (·.isMixin = false) := by
  rw [Source.definesMixin, hp] at h
  intro m hm
  rw [Kind.isMixin_form]
  exact Bool.eq_false_iff.2 (any_eq_false.1 h m hm)

/-- **Without mixins the removal cannot be seen.**  What is compiled without removing anything is
compiled to the same text when unused variables are removed. -/
theorem removal_keeps_output {source : Source} {profile : Profile} {layout : Layout} {css : String}
    (h : source.definesMixin = false) (hwhole : compileWhole source profile layout = .ok css) :
    compile source profile layout = .ok css := by
  obtain ⟨sheet, hp, hwhole⟩ := bind_eq_ok.1 hwhole
  obtain ⟨flat, hreduce, hcss⟩ := bind_eq_ok.1 hwhole
  obtain ⟨filled, hfilled, hreduce⟩ := bind_eq_ok.1 hreduce
  obtain ⟨expanded, hexpand, hreduce⟩ := bind_eq_ok.1 hreduce
  obtain ⟨extended, hextend, hreduce⟩ := bind_eq_ok.1 hreduce
  obtain ⟨evaluated, hevaluated, hflat⟩ := bind_eq_ok.1 hreduce
  have hs : IsSheet True filled.root := (Sheet.parse_isSheet hp).substituteFields hfilled
  have hmixins := (Source.formsIn_of_definesMixin h hp).substituteFields rfl hfilled
  -- Nothing is expanded and nothing extended, so what is evaluated is the stylesheet itself.
  obtain ⟨rfl, hu⟩ := Sheet.unmixed_of_processExtends hmixins hexpand hextend
  rw [Sheet.scanScopes_scanScopes hu] at hevaluated
  obtain ⟨once, twice, honce, hexpand', hextend', htwice, hsame⟩ :=
    Sheet.exists_cleanUp_cleanUp hs hu
  obtain ⟨evaluated', flat', hevaluated', hflat', hcss'⟩ := hsame.css hevaluated hflat hcss
  have hreduce' : sheet.reduce profile = .ok flat' := by
    simp only [Sheet.reduce, hfilled, honce, hexpand', hextend', htwice, hevaluated', hflat', bind,
      Except.bind]
  simp only [compile, hp, hreduce', hcss', bind, Except.bind]

/-- A variable that hides another one and is read in a branch, and one that nobody reads. -/
theorem removal_keeps_output_branch :
    Source.definesMixin { text := "$x=r;a\x7b$x=b;$y=$x;@if true\x7bc:$x;\x7d\x7d" } = false ∧
      compileWhole { text := "$x=r;a\x7b$x=b;$y=$x;@if true\x7bc:$x;\x7d\x7d" } {} {} =
        .ok "a\x7bc:b;\x7d" ∧
      compile { text := "$x=r;a\x7b$x=b;$y=$x;@if true\x7bc:$x;\x7d\x7d" } {} {} =
        .ok "a\x7bc:b;\x7d" := by
  have hmixin : Source.definesMixin
      { text := "$x=r;a\x7b$x=b;$y=$x;@if true\x7bc:$x;\x7d\x7d" } = false := by
    decide +kernel
  have hwhole : compileWhole { text := "$x=r;a\x7b$x=b;$y=$x;@if true\x7bc:$x;\x7d\x7d" } {} {} =
      .ok "a\x7bc:b;\x7d" := by
    decide +kernel
  exact ⟨hmixin, hwhole, removal_keeps_output hmixin hwhole⟩

/-- Where the removal can be seen.  A variable that only the mixins used in its block read is taken
for unused.  So is one that is read in a block with a mixin of the same name. -/
theorem removal_changes_output :
    (compileWhole { text := "$x=r;$m\x7bc:$x;\x7da\x7b$x=b;$m();\x7d" } {} {} =
        .ok "a\x7bc:b;\x7d" ∧
      compile { text := "$x=r;$m\x7bc:$x;\x7da\x7b$x=b;$m();\x7d" } {} {} =
        .ok "a\x7bc:r;\x7d") ∧
      compileWhole { text := "$x=r;a\x7b$x\x7bd:e;\x7dc:$x;\x7d" } {} {} = .ok "a\x7bc:r;\x7d" ∧
      compile { text := "$x=r;a\x7b$x\x7bd:e;\x7dc:$x;\x7d" } {} {} =
        .error ⟨.eval (.undefinedVariable "x"), ⟨none, 1⟩⟩ := by
  decide +kernel

end Cascade
