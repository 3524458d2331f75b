import Cascade.Proofs.Emission

/-!
# Stylesheets with nothing left to do

In a stylesheet of finished statements there are no fields to put in, no names to count, no mixins
to expand and no values to compute.  The stages before flattening leave such a stylesheet as it is,
except that its blocks get scopes, in which no name occurs.
-/

set_option autoImplicit false

namespace Cascade

open Node List

variable {sheet : Sheet} {cs : List Node} {n root : Node}

/-- All nodes of a tree are inert. -/
def Inert (n : Node) : Prop :=
  ∀ m ∈ n.preorder, m.kind.isInert = true

theorem Inert.kind (h : Inert n) : n.kind.isInert = true :=
  h n n.self_mem_preorder

theorem Inert.child {l : Label} (h : Inert (.mk l cs)) : ∀ c ∈ cs, Inert c :=
  fun _ hc m hm => h m (mem_preorder_of_mem hc hm)

theorem Kind.dynamic_of_isInert {kind : Kind} (h : kind.isInert = true) : kind.dynamic = [] := by
  revert h
  cases kind <;> simp [isInert, dynamic]

/-! ## Fields -/

section Fields

variable {fields : Fields} {file : Option String}

theorem Fields.substituteAll_eq (h : ∀ c ∈ cs, fields.substitute file false c = .ok c) :
    fields.substituteAll file false cs = .ok cs := by
  induction cs with
  | nil => rfl
  | cons c cs ih =>
    obtain ⟨hc, hcs⟩ := forall_mem_cons.1 h
    rw [Fields.substituteAll, hc, ih hcs]
    rfl

/-- There are no fields to put in. -/
theorem Fields.substitute_inert (hn : Inert n) : fields.substitute file false n = .ok n := by
  induction n using ind with
  | mk l cs ih =>
    have hcs := Fields.substituteAll_eq fun c hc => ih c hc (hn.child c hc)
    have hk := hn.kind
    rw [kind_mk] at hk
    obtain ⟨kind, line, span, relation, comments, scope⟩ := l
    rw [Fields.substitute]
    cases kind with
    | declaration | assign | mixin | param | call | content | conditional | inclusion | directive
    | reference | command | binary | unary | root | sheet => cases hk
    | _ =>
      dsimp only
      rw [hcs]
      rfl

end Fields

/-! ## Scopes -/

/-- A label with an empty scope, if it is that of a block. -/
def Label.opened (l : Label) : Label :=
  if l.kind.isBlock then { l with scope := some {} } else l

/-- A tree whose blocks have empty scopes. -/
def Node.opened (n : Node) : Node :=
  n.relabeled Label.opened

theorem Node.opened_mk (l : Label) (cs : List Node) :
    (mk l cs).opened = mk l.opened (cs.map opened) :=
  relabeled_mk _ l cs

theorem keepsPlace_opened : KeepsPlace Label.opened := by
  constructor <;> intro l <;> unfold Label.opened <;> split <;> rfl

theorem Node.bare_opened (n : Node) : n.opened.bare = n.bare := by
  rw [bare, opened, relabeled_relabeled]
  congr 1
  funext l
  unfold Label.opened
  split <;> rfl

theorem Inert.opened (h : Inert n) : Inert n.opened := by
  intro m hm
  rw [Node.opened, Node.preorder_relabeled] at hm
  obtain ⟨k, hk, rfl⟩ := mem_map.1 hm
  rw [kind_relabeled keepsPlace_opened]
  exact h k hk

theorem Node.scanScopesAll_eq {scope : Scope}
    (h : ∀ c ∈ cs, ∀ scope, c.scanScopes {} scope = (c.opened, scope)) :
    scanScopesAll {} scope cs = (cs.map opened, scope) := by
  induction cs with
  | nil => rfl
  | cons c cs ih =>
    obtain ⟨hc, hcs⟩ := forall_mem_cons.1 h
    simp only [scanScopesAll, hc, ih hcs, map_cons]

/-- There are no names to count. -/
theorem Node.scanScopes_inert (hn : Inert n) (scope : Scope) :
    n.scanScopes {} scope = (n.opened, scope) := by
  induction n using ind generalizing scope with
  | mk l cs ih =>
    have hcs : ∀ scope, scanScopesAll {} scope cs = (cs.map opened, scope) := fun scope =>
      scanScopesAll_eq fun c hc scope => ih c hc (hn.child c hc) scope
    have hk := hn.kind
    have hd := Kind.dynamic_of_isInert hk
    obtain ⟨kind, line, span, relation, comments, scope'⟩ := l
    rw [kind_mk] at hk hd
    rw [opened_mk, scanScopes]
    cases kind with
    | declaration | assign | mixin | param | call | content | conditional | inclusion | directive
    | reference | command | binary | unary | root | sheet => cases hk
    | block =>
      simp only [hcs]
      split <;> rfl
    | _ =>
      simp only [Scope.opening, Scope.record, hd, kind_mk, foldl_nil, hcs]
      rfl

/-! ## Stylesheets -/

/-- A stylesheet of inert trees. -/
structure IsInertSheet (root : Node) : Prop where
  kind : root.kind = .sheet
  child : ∀ c ∈ root.children, Inert c

theorem IsInertSheet.mem_preorder (h : IsInertSheet root) :
    ∀ m ∈ root.preorder, m.kind = .sheet ∨ m.kind.isInert = true := by
  obtain ⟨l, cs⟩ := root
  exact forall_mem_preorder.2 ⟨.inl h.kind, fun c hc m hm => .inr (h.child c hc m hm)⟩

/-- A stylesheet whose blocks have empty scopes. -/
def Sheet.opened (sheet : Sheet) : Sheet :=
  sheet.withRoot (.mk { sheet.root.label with scope := some {} } (sheet.root.children.map Node.opened))

section

variable (h : IsInertSheet sheet.root)

include h

theorem IsInertSheet.opened : IsInertSheet sheet.opened.root :=
  ⟨h.kind, forall_mem_map.2 fun c hc => (h.child c hc).opened⟩

omit h in
theorem Sheet.opened_opened (sheet : Sheet) : sheet.opened.opened = sheet.opened := by
  have hlabel : ∀ l : Label, l.opened.opened = l.opened := by
    intro l
    unfold Label.opened
    split <;> simp_all
  have hnode : Node.opened ∘ Node.opened = Node.opened := by
    funext n
    rw [Function.comp_apply, Node.opened, Node.opened, Node.relabeled_relabeled]
    simp only [hlabel]
  simp only [Sheet.opened, withRoot, Node.label_mk, Node.children_mk, map_map, hnode]

theorem Sheet.scanScopes_inert : sheet.scanScopes = sheet.opened := by
  unfold Sheet.scanScopes
  rw [Node.scanScopesAll_eq fun c hc => Node.scanScopes_inert (h.child c hc)]
  rfl

theorem Sheet.substituteFields_inert {fields : Fields} :
    sheet.substituteFields fields = .ok sheet := by
  obtain ⟨⟨⟨kind, line, span, relation, comments, scope⟩, cs⟩, file, expansions⟩ := sheet
  obtain rfl : kind = .sheet := h.kind
  have hcs : fields.substituteAll file false cs = .ok cs :=
    Fields.substituteAll_eq fun c hc => Fields.substitute_inert (h.child c hc)
  rw [Sheet.substituteFields, Fields.substitute]
  dsimp only
  rw [hcs]
  rfl

/-- The blocks of the stylesheet have empty scopes. -/
theorem Sheet.scope_of_mem_opened :
    ∀ m ∈ sheet.opened.root.preorder, m.kind.isBlockLike = true → m.scope = some {} := by
  intro m hm hk
  obtain rfl | ⟨c, hc, hm⟩ := Node.mem_preorder_mk.1 hm
  · rfl
  · obtain ⟨d, hd, rfl⟩ := mem_map.1 hc
    rw [Node.opened, Node.preorder_relabeled] at hm
    obtain ⟨k, hkd, rfl⟩ := mem_map.1 hm
    rw [kind_relabeled keepsPlace_opened] at hk
    have hinert := h.child d hd k hkd
    obtain ⟨⟨kind, line, span, relation, comments, scope⟩, cs⟩ := k
    rw [kind_mk] at hk hinert
    cases kind with
    | block => rfl
    | sheet => cases hinert
    | _ => cases hk

omit h in
theorem foldlM_eq_ok {α β ε : Type} {step : β → α → Except ε β} {b : β} {as : List α}
    (h : ∀ a ∈ as, step b a = .ok b) : as.foldlM step b = .ok b := by
  induction as with
  | nil => rfl
  | cons a as ih =>
    obtain ⟨ha, has⟩ := forall_mem_cons.1 h
    rw [foldlM_cons, ha]
    exact ih has

/-- No name is unused, since none is declared. -/
theorem Sheet.unused_opened : sheet.opened.unused = .ok {} := by
  refine foldlM_eq_ok fun entry hentry => ?_
  obtain ⟨path, node⟩ := entry
  obtain ⟨q, -, hq⟩ := mem_placesFrom.1 hentry
  have hscope := Sheet.scope_of_mem_opened h node (mem_preorder.2 ⟨q, hq⟩)
  cases hk : node.kind.isBlockLike with
  | false => simp [Removal.block, hk]
  | true => simp [Removal.block, hk, hscope hk, Removal.covers]

/-- **Nothing is unused.** -/
theorem Sheet.cleanUp_inert : sheet.cleanUp = .ok sheet.opened := by
  obtain ⟨rounds, hrounds⟩ : ∃ rounds, sheet.root.size = rounds + 1 := by
    cases sheet.root
    exact ⟨_, rfl⟩
  rw [Sheet.cleanUp, hrounds, Sheet.cleanUpWithin, Sheet.scanScopes_inert h, Sheet.unused_opened h]
  rfl

end

theorem IsInertSheet.form_ne_call (h : IsInertSheet root) :
    ∀ m ∈ root.preorder, m.kind.form ≠ .call := by
  intro m hm hf
  obtain ⟨name, extend, hk⟩ := Kind.of_form hf
  rcases h.mem_preorder m hm with h | h <;> rw [hk] at h <;> cases h

theorem IsInertSheet.isMixin_eq_false (h : IsInertSheet root) :
    ∀ m ∈ root.preorder, m.kind.isMixin = false := by
  intro m hm
  rcases h.mem_preorder m hm with h | h
  · rw [h]
    rfl
  · revert h
    cases m.kind <;> simp [Kind.isInert, Kind.isMixin]

/-- **Where no mixin is used, none is expanded.** -/
theorem Sheet.expandMixins_eq (h : ∀ m ∈ sheet.root.preorder, m.kind.form ≠ .call) :
    sheet.expandMixins = .ok sheet := by
  have hcalls : sheet.root.callPlaces = [] := by
    refine filterMap_eq_nil_iff.2 fun entry hentry => ?_
    obtain ⟨path, node⟩ := entry
    obtain ⟨q, -, hq⟩ := mem_placesUpFrom.1 hentry
    have hk := h node (mem_preorder.2 ⟨q, hq⟩)
    dsimp only
    split
    · rename_i heq
      rw [heq] at hk
      exact absurd rfl hk
    · rfl
  have hround : ∀ round, sheet.expandRound round = .ok sheet := by
    intro round
    rw [Sheet.expandRound, hcalls]
    rfl
  rw [Sheet.expandMixins, hround]
  exact hround _

theorem Node.dropContentAll_eq (h : ∀ c ∈ cs, c.dropContent false = c) :
    dropContentAll false cs = cs := by
  induction cs with
  | nil => rfl
  | cons c cs ih =>
    obtain ⟨l, ds⟩ := c
    obtain ⟨hc, hcs⟩ := forall_mem_cons.1 h
    rw [dropContentAll, hc, ih hcs]
    rfl

/-- There is no mixin that is shared. -/
theorem Node.dropContent_eq (h : ∀ m ∈ n.preorder, m.kind.isMixin = false) :
    n.dropContent false = n := by
  induction n using ind with
  | mk l cs ih =>
    have hcs := dropContentAll_eq fun c hc => ih c hc fun m hm => h m (mem_preorder_of_mem hc hm)
    have hk : l.kind.isMixin = false := h _ (self_mem_preorder _)
    rw [dropContent]
    split
    · rename_i heq
      rw [heq] at hk
      cases hk
    · exact congrArg _ hcs

/-- **Where no mixin is used, none is extended.** -/
theorem Sheet.processExtends_eq (h : ∀ m ∈ sheet.root.preorder, m.kind.form ≠ .call)
    (hmixin : ∀ m ∈ sheet.root.preorder, m.kind.isMixin = false) :
    sheet.processExtends = .ok sheet := by
  have hcalls : sheet.root.extendPlaces = [] := by
    refine filterMap_eq_nil_iff.2 fun entry hentry => ?_
    obtain ⟨path, node⟩ := entry
    obtain ⟨q, -, hq⟩ := mem_placesFrom.1 hentry
    have hk := h node (mem_preorder.2 ⟨q, hq⟩)
    dsimp only
    split
    · rename_i heq
      rw [heq] at hk
      exact absurd rfl hk
    · rfl
  rw [Sheet.processExtends, hcalls, reverse_nil, foldlM_nil]
  show Except.ok (sheet.withRoot (sheet.root.dropContent false)) = _
  rw [dropContent_eq hmixin]
  rfl

/-! ## Evaluation -/

section Execute

variable {s : Surroundings}

theorem Kind.withTexts_nil {kind : Kind} (h : kind.dynamic = []) :
    kind.withTexts (fillIn []) [] = kind := by
  have hfill : fillIn [] = id := rfl
  rw [hfill]
  revert h
  cases kind <;> simp [dynamic, withTexts]

/-- There is nothing to write into the texts of a label. -/
theorem Label.interpolate_eq {l : Label} (h : l.kind.dynamic = []) : l.interpolate s = pure l := by
  have hkind : ∀ bindings, interpolated bindings l.kind = .ok l.kind := by
    intro bindings
    rw [interpolated, h]
    exact congrArg _ (Kind.withTexts_nil h)
  simp only [Label.interpolate, hkind, Evaluation.ofResult, pure_bind]
  rfl

/-- A block with an empty scope. -/
theorem Label.enter_eq {l : Label} {statements : Evaluation (List Node)} (hl : l.scope = some {})
    (h : statements = pure cs) : l.enter s statements = pure (.mk l cs) := by
  rw [Label.enter, hl, h]
  rfl

theorem Node.executeAll_eq (h : ∀ c ∈ cs, c.execute s = pure [c]) : executeAll s cs = pure cs := by
  induction cs with
  | nil => rfl
  | cons c cs ih =>
    obtain ⟨hc, hcs⟩ := forall_mem_cons.1 h
    rw [executeAll, hc, ih hcs]
    rfl

/-- **There is nothing to evaluate.** -/
theorem IsSettled.execute_opened (hn : IsSettled Writable n) :
    n.opened.execute s = pure [n.opened] := by
  induction hn with
  | @property l v hok h hd hr hv =>
    have hvalue : evaluateAll s [v.opened] = pure [v.opened] :=
      evaluateAll_eq_pure (forall_mem_singleton.2
        (hv.relabeled keepsPlace_opened).evaluate)
    have hkind := keepsPlace_opened.kind l
    rw [opened_mk, map_singleton, execute]
    simp only [hkind, Kind.treatment_of_property h, Label.interpolate_eq (hkind ▸ hd), hvalue,
      pure_bind]
  | silent hok h => cases h.symm.trans hok.2.1
  | call hok h => exact (hok.1.1 h).elim
  | block hok h => exact absurd h hok.1.2
  | @rule l lb cs hok h hd hk hr hm hcs ih =>
    have hkind := keepsPlace_opened.kind l
    have hscope : lb.opened.scope = some {} := by
      rw [Label.opened, Kind.eq_block hk]
      rfl
    have hblock : lb.opened.enter s (executeAll s (cs.map opened)) =
        pure (.mk lb.opened (cs.map opened)) :=
      Label.enter_eq hscope (executeAll_eq (forall_mem_map.2 ih))
    rw [opened_mk, map_singleton, opened_mk, execute]
    simp only [hkind, Kind.treatment_of_rule (.inl h), Label.interpolate_eq (hkind ▸ hd),
      executeRules, keepsPlace_opened.relation, hr, if_true, hblock, pure_bind]
  | extended hok h => exact absurd (Kind.isStuck_of_extended h) (by simpa using hok.2.2)

end Execute

variable (profile : Profile) (hk : sheet.root.kind = .sheet)
  (h : ∀ n ∈ sheet.root.children, IsSettled Writable n)

include profile hk h

/-- **The stages before flattening** only give scopes to the blocks of a stylesheet of statements
that can be written. -/
theorem Sheet.evaluate_writable : sheet.evaluate profile = .ok sheet.opened := by
  have hinert : IsInertSheet sheet.root := ⟨hk, fun c hc => (h c hc).inert⟩
  have hopened := hinert.opened
  simp only [Sheet.evaluate, Sheet.substituteFields_inert hinert, Sheet.cleanUp_inert hinert,
    Sheet.expandMixins_eq hopened.form_ne_call,
    Sheet.processExtends_eq hopened.form_ne_call hopened.isMixin_eq_false,
    Sheet.cleanUp_inert hopened, Sheet.opened_opened, bind, Except.bind]
  have hblock : sheet.opened.root.label.enter { file := sheet.file, commands := profile.commands }
      (executeAll { file := sheet.file, commands := profile.commands }
        sheet.opened.root.children) = pure sheet.opened.root :=
    Label.enter_eq rfl (Node.executeAll_eq (forall_mem_map.2 fun c hc =>
      (h c hc).execute_opened))
  have hfile : sheet.opened.file = sheet.file := rfl
  rw [Sheet.execute, hfile, hblock]
  rfl

/-- **A stylesheet of statements that can be written is reduced to what it is flattened to**, scopes
aside. -/
theorem Sheet.reduce_writable {flat : Sheet} (hflat : sheet.flatten = .ok flat) :
    ∃ reduced, sheet.reduce profile = .ok reduced ∧ reduced.file = flat.file ∧
      flat.root.children.map bare = reduced.root.children.map bare := by
  have hbare : sheet.root.bare = sheet.opened.root.bare := by
    obtain ⟨⟨l, cs⟩, file, expansions⟩ := sheet
    rw [Sheet.opened, Sheet.withRoot, bare_mk, bare_mk, children_mk, map_map]
    exact congrArg _ (map_congr_left fun n _ => n.bare_opened.symm)
  rw [Sheet.reduce_eq, Sheet.evaluate_writable profile hk h]
  have hfile : sheet.opened.file = sheet.file := rfl
  exact Sheet.flatten_of_bare_eq hfile hbare hflat

end Cascade
