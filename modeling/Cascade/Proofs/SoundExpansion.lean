import Cascade.Document.Fields
import Cascade.Document.Mixins
import Cascade.Proofs.Cleaning

/-!
# Expanding a document keeps it sound

Fields, inclusions and mixins put new nodes into a document, and the arguments of a use are moved
into its expansion.  What is moved is never above the place that it is moved to: new nodes are above
nothing old, and the arguments of a use are below it.
-/

set_option autoImplicit false

namespace Cascade

open Document Editing List

variable {d : Document} {call : Key} (mixin : Key) (fields : Fields) (r : Renaming) (key : Key)

/-! ## Kinds -/

theorem safe_updateKind {change : Kind → Kind} (h : change .sheet = .sheet) (key : Key) :
    Safe (edit (·.updateKind key change)) := by
  refine .edit (fun d hd => hd.relabel fun _ => ?_) (fun d => by simp [updateKind])
    fun _ _ => trivial
  show change (d.kindAt root) = .sheet
  rw [hd.root_kind, h]

/-! ## Fields -/

theorem safe_patchCondition (condition : Key) : Safe (patchCondition fields condition) :=
  .look_bind fun _ => .forM fun key => safe_updateKind rfl key

theorem Keeps.inlineField {command : Key} (hd : d.Sound) (h : d.kindAt command ≠ .sheet) :
    Keeps d (inlineField fields command) fun _ _ => True := by
  refine .look_bind ?_
  split
  · exact .failAt hd
  · split
    · exact .failAt hd
    · have htake := hd.toLinked.takeChildren command root
      refine .make_bind htake.size_eq.ge (.edit ?_ (by simp [updateKind]) trivial)
      exact (hd.takeChildren command).relabel fun heq => absurd heq (hd.ne_root_of_kindAt h)

theorem safe_substituteFieldsAt : Safe (substituteFieldsAt fields key) := by
  intro d hd
  refine .look_bind ?_
  split
  · refine .look_bind ?_
    split
    · exact safe_patchCondition fields _ d hd
    · exact .pure hd trivial
  · rename_i hkind
    exact .inlineField fields hd (by rw [hkind]; exact nofun)
  · exact .pure hd trivial

theorem safe_substituteFields : Safe (substituteFields fields) :=
  .look_bind fun _ => .forM fun key => safe_substituteFieldsAt fields key

/-! ## Inclusions -/

/-- New nodes in the place of an old one. -/
theorem Keeps.splice {d₁ : Document} {old : Key} {new : List Key} (hd : d.Sound) (hd₁ : d₁.Sound)
    (hnew : Fresh d₁ d new) (hold : old < d₁.cells.size) :
    Keeps d (Editing.edit (·.splice old new)) fun _ d' =>
      Rearranges d d' new ((d.parent? old).getD root) := by
  have hsplice := hd.toLinked.splice old hnew.nodup fun x hx =>
    ⟨hnew.lt_size x hx, hnew.not_above hd₁.toLinked hold hx⟩
  refine .edit (hsplice.sound hd fun hroot => hnew.ne_root hd₁ hroot rfl)
    hsplice.size_eq.ge hsplice

theorem safe_includeAt {fetch : String → Key → Editing (List Node)}
    (h : ∀ path key, Safe (fetch path key)) (key : Key) : Safe (includeAt fetch key) := by
  intro d hd
  refine .look_bind ?_
  split
  · rename_i path hkind
    have hkey : key < d.cells.size := lt_size_of_kindAt (by rw [hkind]; exact nofun)
    refine (h path key d hd).bind fun statements d₁ hd₁ hsize _ => ?_
    refine (Keeps.mapM_fresh (fun key => [key])
      (fun tree d hd => (Keeps.planted hd (hd.toLinked.copyFrom
        ((linked_empty none).plant tree).linked _ root)).weaken fun _ _ _ _ h => h.fresh)
      statements hd₁).bind fun keys d₂ hd₂ _ hkeys => ?_
    rw [flatMap_singleton'] at hkeys
    exact (Keeps.splice hd₂ hd₁ hkeys (hkey.trans_le hsize)).forget
  · exact .pure hd trivial

theorem safe_fetchStatements (library : Library) (chain : List String)
    (resolve : Option (Editing Unit)) (path : String) (key : Key) :
    Safe (fetchStatements library chain resolve path key) := by
  rw [fetchStatements.eq_def]
  split
  · exact .failAt key _
  · split
    · exact .failAt key _
    · exact .failAt key _
    · exact (Safe.ofExcept _).bind fun _ => (Safe.ofExcept _).bind fun _ => .pure _

theorem safe_resolveInclusions (library : Library) : Safe (resolveInclusions library) := by
  have hall : ∀ depth chain, Safe (resolveWithin library depth chain) := by
    intro depth chain
    cases depth with
    | zero =>
      exact .look_bind fun _ => .forM
        (safe_includeAt (safe_fetchStatements library chain none))
    | succ depth =>
      exact .look_bind fun _ => .forM (safe_includeAt fun path key =>
        safe_fetchStatements library chain _ path key)
  exact hall _ _

/-! ## Finding mixins -/

theorem Keeps.findMixin (call : Key) (name : String) (hd : d.Sound) :
    Keeps d (findMixin call name) fun mixin d' => d.findMixin? call name = some mixin ∧ d' = d := by
  refine .look_bind ?_
  split
  · exact .pure hd ⟨‹_›, rfl⟩
  · exact .failAt hd

/-! ## Copying uses -/

/-- `k` is below `key`, and another node. -/
def Document.Inside (d : Document) (key k : Key) : Prop :=
  k ≠ key ∧ d.Above key k

theorem Document.Linked.not_inside {key k : Key} (hd : d.Linked) (h : d.Above k key) :
    ¬ d.Inside key k := by
  rintro ⟨hne, hbelow⟩
  cases hbelow with
  | self => exact hne rfl
  | step hp hbelow => exact hd.not_above_of_parent? hp (h.trans hbelow)

/-- The arguments of a use are below it. -/
theorem Document.Sound.argument {a : Key} (hd : d.Sound) (ha : a ∈ d.argumentKeys call) :
    d.Movable a ∧ d.Inside call a := by
  rw [argumentKeys] at ha
  cases hparams : d.child? call .params with
  | none =>
    rw [hparams] at ha
    cases ha
  | some params =>
    rw [hparams] at ha
    have hparent : d.parent? params = some call :=
      hd.mem_childKeys.1 (mem_of_find?_eq_some hparams)
    have ha' : d.parent? a = some params := hd.mem_childKeys.1 ha
    refine ⟨hd.movable_of_parent? ha', fun heq => ?_, .step ha' (.parent hparent)⟩
    exact hd.not_above_of_parent? ha' (heq ▸ .parent hparent)

/-- Below a new node all nodes are new. -/
theorem Keeps.renameBelow {d₀ : Document} {key : Key} (hd : d.Sound) (hd₀ : d₀.Linked)
    (h : Extends d₀ d) (hkey : d₀.cells.size ≤ key) :
    Keeps d (renameBelow r key) fun _ d' => Extends d₀ d' ∧ d'.parent? = d.parent? := by
  have hkeys : ∀ k ∈ d.preorder key, d₀.cells.size ≤ k := fun k hk => not_lt.1 fun hlt =>
    h.not_above hd₀ hlt hkey (hd.mem_preorder.1 hk)
  refine .look_bind ((Keeps.forM (fun keys d' => (∀ k ∈ keys, d₀.cells.size ≤ k) ∧
    Extends d₀ d' ∧ d'.parent? = d.parent?) (fun k rest d' hd' hinv => ?_) _ hd
    ⟨hkeys, h, rfl⟩).weaken fun _ _ _ _ hinv => hinv.2)
  obtain ⟨hkeys, hext, hparent⟩ := hinv
  rw [forall_mem_cons] at hkeys
  refine .edit (hd'.relabel fun _ => ?_) (by simp [updateKind])
    ⟨hkeys.2, hext.relabel hkeys.1 _, funext fun k => (parent?_relabel d' _ _ k).trans (hparent ▸ rfl)⟩
  show r.renameKind (d'.kindAt root) = .sheet
  rw [hd'.root_kind]
  rfl

theorem Keeps.nextMark (hd : d.Sound) :
    Keeps d (make (·.nextMark)) fun _ d' => Extends d d' where
  sound := ⟨hd.toLinked.of_eq (fun _ => rfl) fun _ => rfl, hd.root_lt, hd.root_kind, hd.root_parent⟩
  size_le := le_rfl
  post _ _ := ⟨le_rfl, fun _ _ => rfl, fun _ _ _ => .inl⟩

theorem Keeps.bodyCopy (line : Nat) (hd : d.Sound) :
    Keeps d (bodyCopy mixin line) fun expansion d' => ∃ tree, Planted d d' expansion tree := by
  refine .look_bind ?_
  split
  · exact (Keeps.deepClone _ hd).weaken fun _ _ _ _ h => ⟨_, h⟩
  · exact (Keeps.push _ hd).weaken fun _ _ _ _ h => ⟨_, h⟩

/-- What holds while a use is being expanded.  The expansion is not yet in its place, and of the nodes
of `d₀`, where it did not exist, only those inside the use have got new parents. -/
structure Expanding (d₀ d : Document) (call expansion : Key) : Prop
    extends Preserves d₀.cells.size (d₀.Inside call) d₀ d where
  expansion_lt : expansion < d.cells.size
  parent?_expansion : d.parent? expansion = none

section Expanding

variable {d₀ : Document} {call expansion : Key}

variable (h : Expanding d₀ d call expansion)

include h

/-- More nodes do not matter. -/
theorem Expanding.grow {d' : Document} (h' : Extends d d') : Expanding d₀ d' call expansion where
  toPreserves := h.toPreserves.trans (h'.mono h.size_le fun _ _ => False.elim)
  expansion_lt := h.expansion_lt.trans_le h'.size_le
  parent?_expansion := h'.parent?_eq_none h.expansion_lt h.parent?_expansion

/-- New nodes may be moved other than the expansion, and what is inside the use below new nodes. -/
theorem Expanding.rearranges {d' : Document} {moved : List Key} {target : Key}
    (h' : Rearranges d d' moved target) (hexpansion : expansion ∉ moved)
    (hmoved : ∀ x ∈ moved, d₀.cells.size ≤ x ∨ d₀.cells.size ≤ target ∧ d₀.Inside call x) :
    Expanding d₀ d' call expansion where
  toPreserves := h.toPreserves.trans (h'.preserves hmoved)
  expansion_lt := h'.size_eq ▸ h.expansion_lt
  parent?_expansion := h'.moves.parent?_eq_none hexpansion h.parent?_expansion

omit h in
theorem Keeps.paramValue (default argument : Option Key) (hd : d.Sound) :
    Keeps d (paramValue r default argument) fun value d' =>
      Extends d d' ∧ ∀ v ∈ value, v ∈ argument ∨ d.cells.size ≤ v ∧ v < d'.cells.size := by
  rw [Editing.paramValue.eq_def]
  split
  · exact .pure hd ⟨.refl d, fun v hv => .inl hv⟩
  · refine (Keeps.deepClone _ hd).bind fun value d₁ hd₁ _ hvalue => ?_
    have hnew : d.cells.size ≤ value := hvalue.key_eq.ge
    refine (Keeps.renameBelow r hd₁ hd.toLinked hvalue.toExtends hnew).bind
      fun _ d₂ hd₂ hsize hrename => .pure hd₂ ⟨hrename.1, fun v hv => .inr ?_⟩
    cases hv
    exact ⟨hnew, hvalue.key_lt.trans_le hsize⟩
  · exact .pure hd ⟨.refl d, nofun⟩

theorem Keeps.initializeWith {declaration : Key} {value : Option Key} (hd : d.Sound)
    (hdeclaration : declaration < d.cells.size) (hnew : d₀.cells.size ≤ declaration)
    (htop : d.parent? declaration = none)
    (hvalue : ∀ v ∈ value, d.Movable v ∧ v ≠ declaration ∧ v ≠ expansion ∧
      (d₀.cells.size ≤ v ∨ d₀.Inside call v)) :
    Keeps d (initializeWith declaration value) fun _ d' => Expanding d₀ d' call expansion := by
  rw [Editing.initializeWith.eq_def]
  split
  · rename_i v
    obtain ⟨hmove, hne, hexpansion, hv⟩ := hvalue v rfl
    refine (Keeps.appendAs hd hmove hdeclaration fun h => hne (h.eq_of_parent?_eq_none htop)).weaken
      fun _ d' _ _ ⟨hplaced, _⟩ => h.rearranges hplaced (by simpa using Ne.symm hexpansion) ?_
    exact forall_mem_singleton.2 (hv.imp_right fun hv => ⟨hnew, hv⟩)
  · exact .pure hd h

/-- The declaration of a parameter at the head of the expansion, with its argument. -/
theorem Keeps.declareParam (line : Nat) (name : String) (default argument : Option Key)
    (hd : d.Sound) (hnew : d₀.cells.size ≤ expansion)
    (hargument : ∀ a ∈ argument, d₀.Movable a ∧ d₀.Inside call a) :
    Keeps d (declareParam r line expansion name default argument) fun _ d' =>
      Expanding d₀ d' call expansion := by
  refine (Keeps.push _ hd).bind fun declaration d₁ hd₁ hsize₁ hdeclaration => ?_
  refine (Keeps.paramValue r default argument hd₁).bind fun value d₂ hd₂ hsize₂ ⟨hext, hvalue⟩ => ?_
  have h₂ := h.grow (hdeclaration.toExtends.trans hext)
  have hlt₂ : declaration < d₂.cells.size := hdeclaration.key_lt.trans_le hsize₂
  have htop₂ : d₂.parent? declaration = none :=
    hext.parent?_eq_none hdeclaration.key_lt hdeclaration.parent?_key
  have hexpansion : expansion < declaration := hdeclaration.key_eq ▸ h.expansion_lt
  have hnew' : d₀.cells.size ≤ declaration := hnew.trans hexpansion.le
  have hvalue' : ∀ v ∈ value, d₂.Movable v ∧ v ≠ declaration ∧ v ≠ expansion ∧
      (d₀.cells.size ≤ v ∨ d₀.Inside call v) := by
    intro v hv
    rcases hvalue v hv with hv | ⟨hv, hlt⟩
    · obtain ⟨hmove, hinside⟩ := hargument v hv
      have hlt : v < expansion := hmove.lt_size.trans_le hnew
      exact ⟨hmove.mono h₂.size_le, (hlt.trans hexpansion).ne, hlt.ne,
        .inr hinside⟩
    · have hlt' : declaration < v := hdeclaration.key_lt.trans_le hv
      refine ⟨⟨hlt, ?_⟩, hlt'.ne', (hexpansion.trans hlt').ne',
        .inl (hnew'.trans hlt'.le)⟩
      rintro rfl
      exact Nat.not_lt_zero _ hlt'
  refine (Keeps.initializeWith h₂ hd₂ hlt₂ hnew' htop₂ hvalue').bind fun _ d₃ hd₃ hsize₃ h₃ => ?_
  -- the expansion has no parent, so the new declaration is not above it
  have hinsert := hd₃.toLinked.insert 0 (hlt₂.trans_le hsize₃) h₃.expansion_lt
    fun habove => hexpansion.ne' (habove.eq_of_parent?_eq_none h₃.parent?_expansion)
  have hroot : declaration ≠ root := fun heq => Nat.not_lt_zero _ (heq ▸ hexpansion)
  exact .edit (hinsert.sound hd₃ (by simpa using Ne.symm hroot))
    hinsert.size_eq.ge (h₃.rearranges hinsert
      (by simpa using hexpansion.ne) (forall_mem_singleton.2 (.inl hnew')))

/-- Copies of the passed statements in the place of a mark. -/
theorem Keeps.fillContent (content : Option Key) {marker : Key} (hd : d.Sound)
    (hmarker : marker < d.cells.size) :
    Keeps d (fillContent content marker) fun _ d' => Expanding d₀ d' call expansion := by
  rw [Editing.fillContent.eq_def]
  split
  · refine .look_bind ((Keeps.deepClones _ hd).bind fun copies d₁ hd₁ _ hcopies => ?_)
    refine (Keeps.splice hd₁ hd hcopies hmarker).weaken fun _ d' _ _ hsplice => ?_
    refine (h.grow hcopies.toPreserves).rearranges hsplice (fun hmem => ?_) fun x hx => .inl ?_
    · exact not_lt.2 (hcopies.size_le_key _ hmem) h.expansion_lt
    · exact h.size_le.trans (hcopies.size_le_key x hx)
  · have hremove := hd.toLinked.remove marker root
    exact .edit (hd.remove marker) hremove.size_eq.ge
      (h.rearranges hremove (by simp) (by simp))

end Expanding

/-- **A use replaced by the body of a mixin.** -/
theorem Keeps.expandCall (hd : d.Sound) (hcall : call < d.cells.size) :
    Keeps d (expandCall call mixin) fun _ d' =>
      Preserves d.cells.size (d.Inside call) d d' := by
  refine .look_bind (.look_bind (.look_bind (.ite (fun _ => .look_bind (.failAt hd)) fun _ => ?_)))
  refine .look_bind ((Keeps.bodyCopy mixin _ hd).bind fun expansion d₁ hd₁ _ ⟨_, hcopy⟩ => ?_)
  refine (Keeps.nextMark hd₁).bind fun mark d₂ hd₂ hsize₂ hmark => .look_bind ?_
  have hnew : d.cells.size ≤ expansion := hcopy.key_eq.ge
  refine (Keeps.renameBelow _ hd₂ hd.toLinked (hcopy.toExtends.trans hmark) hnew).bind
    fun _ d₃ hd₃ hsize₃ ⟨hrename, hparent⟩ => ?_
  have h₃ : Expanding d d₃ call expansion := by
    refine ⟨hrename.mono le_rfl fun _ _ => False.elim, ?_, ?_⟩
    · exact hcopy.key_lt.trans_le (hsize₂.trans hsize₃)
    · rw [hparent]
      exact hmark.parent?_eq_none hcopy.key_lt hcopy.parent?_key
  refine (Keeps.forM (fun _ d' => Expanding d d' call expansion) ?_ _ hd₃ h₃).bind
    fun _ d₄ hd₄ _ h₄ => ?_
  · rintro ⟨⟨name, default⟩, i⟩ rest d' hd' h'
    exact Keeps.declareParam _ h' _ name default _ hd' hnew fun a ha =>
      hd.argument (mem_of_getElem? ha)
  refine .look_bind (.look_bind ?_)
  refine (Keeps.forM (fun markers d' => Expanding d d' call expansion ∧
      ∀ marker ∈ markers, marker < d'.cells.size) ?_ _ hd₄ ⟨h₄, ?_⟩).bind
    fun _ d₅ hd₅ _ ⟨h₅, _⟩ => ?_
  · intro marker rest d' hd' ⟨h', hmarkers⟩
    rw [forall_mem_cons] at hmarkers
    exact (Keeps.fillContent h' _ hd' hmarkers.1).weaken fun _ d'' _ hsize h'' =>
      ⟨h'', fun marker hmarker => (hmarkers.2 marker hmarker).trans_le hsize⟩
  · intro marker hmarker
    have hcontent := (mem_filter.1 hmarker).2
    refine lt_size_of_kindAt fun hkind => ?_
    rw [hkind] at hcontent
    cases hcontent
  · have hreplace := hd₅.toLinked.replace call h₅.expansion_lt fun habove => by
      have habove := h₅.above hd.toLinked hcall (fun _ => hd.not_inside) habove
      exact not_lt.2 hnew (hd.lt_size_of_above habove hcall)
    refine .edit (hreplace.sound hd₅ ?_) hreplace.size_eq.ge
      (h₅.toPreserves.trans (hreplace.preserves (forall_mem_singleton.2 (.inl hnew))))
    rw [mem_singleton]
    rintro rfl
    exact not_lt.2 hnew hd.root_lt

theorem safe_expandMixins : Safe expandMixins := by
  have hat : ∀ round key, Safe (expandAt round key) := by
    intro round key d hd
    refine .look_bind ?_
    split
    · rename_i name extend hkind
      have hkey : key < d.cells.size := lt_size_of_kindAt (by rw [hkind]; exact nofun)
      refine .look_bind (.ite (fun _ => ?_) fun _ => .pure hd trivial)
      refine (Keeps.findMixin key name hd).bind fun mixin d' hd' hsize _ => ?_
      exact (Keeps.expandCall mixin hd' (hkey.trans_le hsize)).forget
    · exact .pure hd trivial
  have hround : ∀ round, Safe (expandRound round) := fun round =>
    .look_bind fun _ => .forM (hat round)
  exact (hround .definitions).bind fun _ => hround .rules

/-! ## Extending uses -/

/-- Rules that are built anew around copies are new. -/
theorem Keeps.rulesAround (body content marker : Key) (hd : d.Sound) :
    Keeps d (rulesAround body content marker) fun rules d' => Fresh d d' rules := by
  refine .look_bind (.look_bind ((Keeps.deepClones _ hd).bind fun copies d₁ hd₁ _ hcopies => ?_))
  refine Keeps.foldlM (fun _ statements d' => Fresh d d' statements) ?_ _ hd₁ hcopies
  intro rule rest statements d' hd' hfresh
  refine .look_bind ((Keeps.enclose _ hd' fun key hkey => hfresh.movable hd hkey).bind
    fun rule d'' hd'' _ ⟨hrule, hlt, hframe⟩ => .pure hd'' ?_)
  refine ⟨hfresh.toPreserves.trans (hframe.mono hfresh.size_le fun k hk hmem => ?_),
    nodup_singleton rule, forall_mem_singleton.2 (hrule ▸ hfresh.size_le),
    forall_mem_singleton.2 hlt⟩
  exact not_lt.2 (hfresh.size_le_key k hmem) hk

theorem Keeps.passedRules (call : Key) (hd : d.Sound) :
    Keeps d (passedRules mixin call) fun rules d' => Fresh d d' rules := by
  refine .look_bind (.look_bind ?_)
  split
  · refine .look_bind ((Keeps.mapM_fresh id
      (fun marker d hd => Keeps.rulesAround _ _ marker hd) _ hd).bind fun rules d' hd' _ h => ?_)
    rw [flatMap_id] at h
    exact .pure hd' h
  · exact .pure hd (.nil (.refl d))

/-- The passed statements take the place of a use. -/
theorem Keeps.giveWay (hd : d.Sound) (hcall : call < d.cells.size) : Keeps d (do
      let replacement ← Editing.passedRules mixin call
      if replacement.isEmpty then Editing.edit (·.remove call)
      else Editing.edit (·.splice call replacement))
      fun _ d' => Extends d d' := by
  refine (Keeps.passedRules mixin call hd).bind fun rules d₁ hd₁ _ hrules =>
    .ite (fun _ => ?_) fun _ => ?_
  · have hremove := hd₁.toLinked.remove call root
    exact .edit (hd₁.remove call) hremove.size_eq.ge
      (hrules.toPreserves.trans (hremove.preserves (by simp)))
  · exact (Keeps.splice hd₁ hd hrules hcall).weaken fun _ d' _ _ hsplice =>
      hrules.toPreserves.trans (hsplice.preserves fun x hx => .inl (hrules.size_le_key x hx))

/-- The selectors that a use leaves with a mixin, unless the body of the mixin is copied. -/
def Document.sharedSelectors? (d : Document) (call mixin : Key) : Option (List String) :=
  match d.contextAt call (d.parent? mixin) with
  | .ok context =>
    if !context.media.isEmpty || !context.supports.isEmpty || (d.view mixin).hasParams then none
    else some context.selectors
  | .error _ => none

/-- The mixin with which a use leaves its selectors, and these selectors. -/
def Document.share? (d : Document) (key : Key) : Option (Key × List String) :=
  match d.kindAt key with
  | .call name true =>
    if d.isAttached key && !d.isInsideMixin key then
      match d.findMixin? key name with
      | some mixin => (d.sharedSelectors? key mixin).map fun selectors => (mixin, selectors)
      | none => none
    else none
  | _ => none

/-- The document after selectors have been left with a mixin. -/
def Document.afterShare (d : Document) : Option (Key × List String) → Document
  | some (mixin, selectors) => d.updateKind mixin (Node.extended selectors)
  | none => d

theorem Keeps.extendMixin (name : String) (hd : d.Sound) (hcall : call < d.cells.size) :
    Keeps d (extendMixin call mixin name) fun _ d' =>
      Preserves d.cells.size (d.Inside call) (d.afterShare
        ((d.sharedSelectors? call mixin).map fun selectors => (mixin, selectors))) d' := by
  refine .look_bind ((Keeps.ofExcept hd).bind fun context d' _ _ ⟨hcontext, heq⟩ => ?_)
  obtain rfl : d = d' := heq.symm
  rw [sharedSelectors?, hcontext]
  refine .look_bind (.ite (fun hcopy => ?_) fun hcopy => .ite (fun _ => .failAt hd) fun _ => ?_)
  · simp only [hcopy, if_true]
    exact Keeps.expandCall mixin hd hcall
  · simp only [hcopy]
    have hsize : (d.updateKind mixin (Node.extended context.selectors)).cells.size = d.cells.size :=
      size_relabel ..
    have hd₁ : (d.updateKind mixin (Node.extended context.selectors)).Sound :=
      (safe_updateKind rfl mixin d hd).sound
    refine .edit_bind hsize.ge ((Keeps.giveWay mixin hd₁ ?_).weaken
      fun _ d' _ _ h => h.mono hsize.ge fun _ _ => False.elim)
    exact hcall.trans_le hsize.ge

/-- **One extending use**: its selectors go to the mixin, or a copy of the body to the place of the
use. -/
theorem Keeps.extendAt (hd : d.Sound) : Keeps d (extendAt key) fun _ d' =>
      Preserves d.cells.size (d.Inside key) (d.afterShare (d.share? key)) d' := by
  refine .look_bind ?_
  split
  · rename_i name hkind
    have hkey : key < d.cells.size := lt_size_of_kindAt (by rw [hkind]; exact nofun)
    simp only [share?, hkind]
    refine .look_bind (.ite (fun hopen => ?_) fun hopen => ?_)
    · rw [if_pos hopen]
      refine (Keeps.findMixin key name hd).bind fun mixin d' _ _ ⟨hfound, heq⟩ => ?_
      obtain rfl : d = d' := heq.symm
      rw [hfound]
      exact Keeps.extendMixin mixin name hd hkey
    · rw [if_neg hopen]
      exact .pure hd (.refl d)
  · rename_i hkind
    have hnone : d.share? key = none := by
      unfold share?
      split
      · exact (hkind _ ‹_›).elim
      · rfl
    rw [hnone]
    exact .pure hd (.refl d)

theorem safe_processExtends : Safe processExtends := by
  refine .look_bind fun keys => (Leads.forM fun key d hd => (Keeps.extendAt key hd).forget).bind fun _ => .look_bind fun markers => ?_
  exact .forM fun marker => Safe.remove marker

end Cascade
