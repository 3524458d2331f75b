import Cascade.Mixin.Extend
import Cascade.Proofs.Places

/-!
# Mixins and the grammar

Expanding a use of a mixin puts a block in its place, and extending a mixin takes the use away and
puts rules in its place.  Both are edits among statements, so all that is left to show is that what
they put in is made of statements: the body of a mixin, renamed; declarations of its parameters; the
statements that the use passes along, perhaps inside rules like those around `@content`.
-/

set_option autoImplicit false

namespace Cascade

open Node List

variable {sheet sheet' : Sheet} {path place : Path} {round : ExpansionRound} {n call mixin b : Node}
  {name : String} {sharing : Prop} {wraps : List Label} {statements : List Node} (r : Renaming)

namespace Node

variable {Fresh : Node → Prop}

/-! ## Copies with other names -/

theorem copied_edited (n : Node) : Edited Fresh n n.copied :=
  @Edited.of_relabel Fresh copied (fun l => { l with comments := [] })
    (fun l cs => by rw [copied, copiedAll_eq_map]) (fun _ => rfl) (fun _ => rfl) n

theorem renamedAll_eq_map (cs : List Node) : renamedAll r cs = cs.map (renamed r) := by
  induction cs with
  | nil => rfl
  | cons c cs ih => rw [renamedAll, ih, map_cons]

end Node

theorem Renaming.renameKind_form (kind : Kind) : (r.renameKind kind).form = kind.form := by
  cases kind with
  | mixin _ s _ => cases s <;> rfl
  | _ => rfl

namespace Node

variable {Fresh : Node → Prop}

theorem renamed_edited (n : Node) : Edited Fresh n (n.renamed r) :=
  @Edited.of_relabel Fresh (renamed r) (fun l => { l with kind := r.renameKind l.kind })
    (fun l cs => by rw [renamed, renamedAll_eq_map]) (fun l => r.renameKind_form l.kind)
    (fun _ => rfl) n

/-! ## Passed statements -/

/-- Statements put in the place of every `@content`. -/
theorem fillContent_edited (hs : ∀ s ∈ statements, Fresh s) (hn : Orderly sharing n) :
    Edited Fresh n (n.fillContent statements) := by
  induction n using ind with
  | mk l cs ih =>
    have hself := (hn _ (mem_preorder_mk.2 (.inl rfl))).2
    have below : ∀ ds : List Node, (∀ d ∈ ds, d ∈ cs) →
        EditedAll Fresh l.kind.form ds (fillContentAll statements ds) := by
      intro ds
      induction ds with
      | nil => exact fun _ => rfl
      | cons d ds ihds =>
        intro hds
        obtain ⟨ld, es⟩ := d
        have hd := hds _ mem_cons_self
        have hrest := ihds fun e he => hds e (mem_cons_of_mem _ he)
        rw [fillContentAll]
        split
        · rename_i hk
          have hblock := (hself _ hd (by simp [hk, Kind.form, Form.isLoose])).1
          exact .inr ⟨statements, _, rfl, .inl ⟨hblock, by simp [hk, Kind.form], hs⟩, hrest⟩
        · exact .inl ⟨_, _, rfl, ih _ hd (hn.child _ hd), hrest⟩
    rw [fillContent]
    exact ⟨rfl, .inl ⟨rfl, below cs fun _ h => h⟩⟩

/-- Every `@content` left out of the mixins that are emitted as rules. -/
theorem dropContent_edited (hn : Orderly sharing n) (shared : Bool) :
    Edited Fresh n (n.dropContent shared) := by
  induction n using ind generalizing shared with
  | mk l cs ih =>
    have hself := (hn _ (mem_preorder_mk.2 (.inl rfl))).2
    have below : ∀ (shared : Bool) (ds : List Node), (∀ d ∈ ds, d ∈ cs) →
        EditedAll Fresh l.kind.form ds (dropContentAll shared ds) := by
      intro shared ds
      induction ds with
      | nil => exact fun _ => rfl
      | cons d ds ihds =>
        intro hds
        obtain ⟨ld, es⟩ := d
        have hd := hds _ mem_cons_self
        have hrest := ihds fun e he => hds e (mem_cons_of_mem _ he)
        rw [dropContentAll]
        split
        · rename_i hk
          have hmarker : ld.kind.form = .marker := by
            revert hk
            cases ld.kind <;> simp [Kind.isContent, Kind.form]
          have hblock := (hself _ hd (by simp [hmarker, Form.isLoose])).1
          exact .inr ⟨[], _, rfl, .inl ⟨hblock, by simp [hmarker], by simp⟩, hrest⟩
        · exact .inl ⟨_, _, rfl, ih _ hd (hn.child _ hd) _, hrest⟩
    rw [dropContent]
    exact ⟨rfl, .inl ⟨rfl, below _ cs fun _ h => h⟩⟩

end Node

theorem IsItem.plain (h : IsItem sharing n) : IsItem sharing n.plain := by
  obtain ⟨l, cs⟩ := n
  exact ⟨⟨rfl, h.isMember.2⟩, h.isStatement.withRelation none⟩

theorem IsItem.copied (h : IsItem sharing n) : IsItem sharing n.copied :=
  h.edited n.copied_edited

theorem Node.mem_passedStatements {s : Node} :
    s ∈ call.passedStatements ↔
      ∃ content, call.rules? = some content ∧ ∃ c ∈ content.children, c.copied.plain = s := by
  unfold passedStatements
  cases call.rules? with
  | none => simp
  | some content => simp

theorem IsItem.passedStatements (hc : IsItem sharing call) (hk : call.kind.form = .call) :
    ∀ s ∈ call.passedStatements, IsItem sharing s := by
  intro s hs
  obtain ⟨content, hcontent, c, hcc, rfl⟩ := mem_passedStatements.1 hs
  obtain ⟨hform, hst⟩ := hc.isStatement.call_content hk hcontent
  exact (hst.block_cases hform c hcc).copied.plain

/-! ## Expansion -/

theorem IsItem.paramDeclaration (line : Nat) (name : String) {default argument : Option Node}
    (hd : ∀ v ∈ default, IsValue v) (ha : ∀ v ∈ argument, IsValue v) :
    IsItem sharing (paramDeclaration r line name default argument) := by
  have single : ∀ v : Node, IsValue v → IsInitializer [v.placed .initializer] := fun v hv =>
    ⟨by simp, by simp [placed, withRelation],
      forall_mem_singleton.2 (hv.withRelation _)⟩
  refine ⟨⟨rfl, by simp [Node.paramDeclaration, Node.make, Kind.form]⟩, .declaration rfl ?_⟩
  cases argument with
  | some v => exact single v (ha v rfl)
  | none =>
    cases default with
    | some v =>
      have hcopy : IsValue v.copied := (hd v rfl).edited (v.copied_edited : Edited (IsItem sharing) _ _)
      exact single _ (hcopy.edited (renamed_edited r _ : Edited (IsItem sharing) _ _))
    | none => exact ⟨by simp, by simp, by simp⟩

theorem IsItem.paramDeclarations (hp : ∀ p ∈ mixin.arguments, IsParameter p)
    (ha : ∀ a ∈ call.arguments, IsValue a) :
    ∀ d ∈ paramDeclarations r mixin call, IsItem sharing d := by
  intro d hd
  obtain ⟨⟨⟨name, default⟩, i⟩, hi, rfl⟩ := mem_map.1 hd
  obtain ⟨p, hp', hpd⟩ := mem_filterMap.1 (fst_mem_of_mem_zipIdx hi)
  refine .paramDeclaration r call.line name ?_ fun v hv => ha v (mem_of_getElem? hv)
  split at hpd
  · cases hpd
    obtain ⟨-, hcs⟩ := hp p hp'
    exact fun v hv => hcs.isValue v (mem_of_find?_eq_some hv)
  · cases hpd

theorem Node.expansion_eq {mark : String} {mixin call b : Node} (hb : mixin.rules? = some b) :
    ∃ r : Renaming, r = ⟨mark, mixin.localNames b.copied⟩ ∧
      expansion mark mixin call =
        (((b.copied.renamed r).withChildren (paramDeclarations r mixin call ++
          (b.copied.renamed r).children)).fillContent call.passedStatements).withRelation
            call.relation := by
  refine ⟨_, rfl, ?_⟩
  rw [expansion, hb]

/-- The body of a mixin in a copy is still a block. -/
theorem IsStatement.copied_renamed (hb : IsStatement sharing b) (r : Renaming) :
    IsStatement sharing (b.copied.renamed r) ∧
      (b.copied.renamed r).kind.form = b.kind.form := by
  have hcopy : IsStatement sharing b.copied := hb.edited b.copied_edited
  have hform := (b.copied_edited : Edited (IsItem sharing) _ _).form hb.form_ne_application
  have hrename : Edited (IsItem sharing) _ _ := renamed_edited r b.copied
  exact ⟨hcopy.edited hrename, (hrename.form hcopy.form_ne_application).trans hform⟩

/-- **What takes the place of a use of a mixin is a block of statements.** -/
theorem IsItem.expansion (mark : String) (hm : IsStatement sharing mixin)
    (hmk : mixin.kind.isMixin = true) (hcall : IsItem sharing call) (hck : call.kind.form = .call) :
    IsItem sharing (expansion mark mixin call) := by
  obtain ⟨b, hrules, hbk, hb, hparams⟩ := hm.mixin_parts hmk
  obtain ⟨r, -, heq⟩ := expansion_eq hrules
  rw [heq]
  obtain ⟨hbody, hform⟩ := hb.copied_renamed r
  rw [hbk] at hform
  have hitems : ∀ c ∈ Node.paramDeclarations r mixin call ++ (b.copied.renamed r).children,
      IsItem sharing c := by
    intro c hc
    rcases mem_append.1 hc with hc | hc
    · exact .paramDeclarations r hparams (hcall.isStatement.call_arguments hck) c hc
    · exact hbody.block_cases hform c hc
  have hblock : IsStatement sharing ((b.copied.renamed r).withChildren
      (Node.paramDeclarations r mixin call ++ (b.copied.renamed r).children)) :=
    .block hform (fun c hc => (hitems c hc).isMember) fun c hc => (hitems c hc).isStatement
  have hfill := fillContent_edited (hcall.passedStatements hck) hblock.orderly
  refine ⟨⟨hcall.isMember.1, ?_⟩, (hblock.edited hfill).withRelation _⟩
  change (fillContent _ _).kind.form ≠ _
  rw [hfill.form hblock.form_ne_application]
  change (b.copied.renamed r).kind.form ≠ _
  rw [hform]
  decide

/-! ## The mixin that a use refers to -/

theorem Node.defines_iff :
    n.defines name = true ↔ ∃ selector dropped, n.kind = .mixin name selector dropped := by
  unfold defines
  split
  · rename_i h
    simp only [h, beq_iff_eq, Kind.mixin.injEq]
    exact ⟨fun h => ⟨_, _, h, rfl, rfl⟩, fun ⟨_, _, h, _⟩ => h⟩
  · rename_i h
    simp only [Bool.false_eq_true, false_iff, not_exists]
    exact fun s d => h name s d

theorem lastDefinition?_spec {visible : Nat → Bool} {nodes : List Node} {j : Nat}
    (h : lastDefinition? name visible nodes = some j) :
    ∃ m, nodes[j]? = some m ∧ m.defines name = true := by
  obtain ⟨⟨m, k⟩, hfind, rfl⟩ := Option.map_eq_some_iff.1 h
  have hmem := mem_reverse.1 (mem_of_find?_eq_some hfind)
  have hdef := find?_some hfind
  exact ⟨m, mem_zipIdx_iff_getElem?.1 hmem, (Bool.and_eq_true_iff.1 hdef).1⟩

theorem Node.findMixinExcept?_spec {gone : List Path} {here : Path}
    (h : findMixinExcept? gone name here path n = some place) :
    ∃ r j i rest m, place = here ++ (r ++ [j]) ∧ path = r ++ i :: rest ∧ j < i ∧
      n.get? (r ++ [j]) = some m ∧ m.defines name = true := by
  induction path generalizing here n with
  | nil => cases h
  | cons i path ih =>
    -- The mixin is found on the same level, or it was found further down.
    have same : ∀ {place : Path},
        (lastDefinition? name (fun j => !gone.contains (here ++ [j])) (n.children.take i)).map
          (fun j => here ++ [j]) = some place →
        ∃ r j k rest m, place = here ++ (r ++ [j]) ∧ i :: path = r ++ k :: rest ∧ j < k ∧
          n.get? (r ++ [j]) = some m ∧ m.defines name = true := by
      intro place h
      obtain ⟨j, hj, rfl⟩ := Option.map_eq_some_iff.1 h
      obtain ⟨m, hm, hdef⟩ := lastDefinition?_spec hj
      have hlt : j < i := by
        have := (List.getElem?_eq_some_iff.1 hm).1
        rw [length_take] at this
        omega
      rw [getElem?_take_of_lt hlt] at hm
      exact ⟨[], j, i, path, m, rfl, rfl, hlt, by simp [get?, hm], hdef⟩
    rw [findMixinExcept?] at h
    split at h
    · rename_i hdeep
      cases h
      split at hdeep
      · rename_i c hc
        obtain ⟨r, j, k, rest, m, hplace, rfl, hjk, hm, hdef⟩ := ih hdeep
        exact ⟨i :: r, j, k, rest, m, by simp [hplace], rfl, hjk, by simp [get?, hc, hm],
          hdef⟩
      · cases hdeep
    · exact same h

/-- **A use refers to a mixin of its name** that stands before it, in its own block or in one around
it. -/
theorem Sheet.findMixin_spec (h : sheet.findMixin path name = .ok place) :
    ∃ r j m, place = r ++ [j] ∧ Path.Precedes place path ∧ sheet.root.get? place = some m ∧
      ∃ selector dropped, m.kind = .mixin name selector dropped := by
  unfold Sheet.findMixin at h
  split at h
  · rename_i hfind
    cases h
    obtain ⟨r, j, i, rest, m, rfl, rfl, hji, hm, hdef⟩ := findMixinExcept?_spec hfind
    exact ⟨r, j, m, rfl, by simpa using hji, hm, defines_iff.1 hdef⟩
  · cases h

/-! ## One use expanded -/

/-- **What expanding a use does to the tree**: a block of statements takes its place. -/
theorem Sheet.expandCall_cases (hcall : sheet.root.get? path = some call)
    (hmixin : sheet.root.get? place = some mixin) (h : sheet.expandCall path place = .ok sheet') :
    ∃ expansion, sheet'.root = sheet.root.update
      (fun _ => Node.expansion (Renaming.markOf expansion) mixin call) path := by
  unfold Sheet.expandCall at h
  rw [hcall, hmixin] at h
  dsimp only at h
  split at h
  · cases h
  · cases h
    exact ⟨_, rfl⟩

/-- A statement in the place of a use or of a mixin. -/
theorem IsSheet.update_loose {root : Node} (hs : IsSheet sharing root)
    (hn : root.get? path = some n) (hl : n.kind.form.isLoose = true) (hb : IsItem sharing b) :
    IsSheet sharing (root.update (fun _ => b) path) := by
  rcases eq_nil_or_concat path with rfl | ⟨r, i, rfl⟩
  · obtain rfl := Option.some.inj hn
    rw [hs.kind] at hl
    cases hl
  · rw [concat_eq_append] at hn ⊢
    obtain ⟨p, hp, hi, hblock, -⟩ := hs.orderly.parent hn hl
    refine hs.edited (edited_update hp hi hblock (fun hf => ?_) hb)
    rw [hf] at hl
    cases hl

theorem IsSheet.update_expansion {root : Node} (hs : IsSheet sharing root)
    (hcall : root.get? path = some call) (hck : call.kind.form = .call)
    (hmixin : root.get? place = some mixin) (hmk : mixin.kind.isMixin = true) (mark : String) :
    IsSheet sharing (root.update (fun _ => expansion mark mixin call) path) := by
  have hloose : call.kind.form.isLoose = true := hck ▸ rfl
  have hmitem := hs.item_of_get? hmixin (Kind.isLoose_of_isMixin hmk)
  exact hs.update_loose hcall hloose
    (.expansion mark hmitem.isStatement hmk (hs.item_of_get? hcall hloose) hck)

/-- **What one step of a round can do**: nothing, if there is no use that belongs to the round, or
expand the use. -/
theorem ExpansionRound.visit_cases (h : round.visit sheet path = .ok sheet') :
    (sheet' = sheet ∧ ∀ call name extend, sheet.root.get? path = some call →
      call.kind = .call name extend → round.selects sheet.root path extend = false) ∨
    ∃ call name extend place mixin selector dropped expansion,
      sheet.root.get? path = some call ∧ call.kind = .call name extend ∧
      round.selects sheet.root path extend = true ∧ Path.Precedes place path ∧
      sheet.root.get? place = some mixin ∧ mixin.kind = .mixin name selector dropped ∧
      sheet'.root = sheet.root.update
        (fun _ => Node.expansion (Renaming.markOf expansion) mixin call) path := by
  unfold ExpansionRound.visit at h
  split at h
  · rename_i name extend hkind
    obtain ⟨call, hcall, hk⟩ := Option.map_eq_some_iff.1 hkind
    split at h
    · rename_i hsel
      obtain ⟨place, hplace, h⟩ := bind_eq_ok.1 h
      obtain ⟨r, j, m, rfl, hprec, hm, selector, dropped, hmk⟩ := Sheet.findMixin_spec hplace
      obtain ⟨expansion, heq⟩ := Sheet.expandCall_cases hcall hm h
      exact .inr ⟨call, name, extend, _, m, selector, dropped, expansion, hcall, hk, hsel, hprec,
        hm, hmk, heq⟩
    · rename_i hsel
      cases h
      refine .inl ⟨rfl, fun call' name' extend' hcall' hk' => ?_⟩
      obtain rfl := Option.some.inj (hcall.symm.trans hcall')
      obtain ⟨rfl, rfl⟩ := Kind.call.inj (hk.symm.trans hk')
      simpa using hsel
  · rename_i hno
    cases h
    exact .inl ⟨rfl, fun call name extend hcall hk =>
      absurd (by rw [hcall, Option.map_some, hk]) (hno name extend)⟩

section

variable (hs : IsSheet sharing sheet.root)

include hs

theorem IsSheet.visit (h : round.visit sheet path = .ok sheet') : IsSheet sharing sheet'.root := by
  obtain ⟨rfl, -⟩ | ⟨call, name, extend, place, mixin, selector, dropped, expansion, hcall, hk, -, -,
    hm, hmk, heq⟩ := ExpansionRound.visit_cases h
  · exact hs
  · rw [heq]
    exact hs.update_expansion hcall (by rw [hk, Kind.form]) hm (by rw [hmk, Kind.isMixin]) _

theorem IsSheet.expandRound (h : sheet.expandRound round = .ok sheet') :
    IsSheet sharing sheet'.root :=
  foldlM_invariant (fun _ s => IsSheet sharing s.root) (fun _ _ _ _ hs h => hs.visit h) _ _ _ hs h

/-- **Expanding the mixins of a stylesheet gives a stylesheet.** -/
theorem IsSheet.expandMixins (h : sheet.expandMixins = .ok sheet') :
    IsSheet sharing sheet'.root := by
  obtain ⟨mid, hmid, h⟩ := bind_eq_ok.1 h
  exact (hs.expandRound hmid).expandRound h

end

/-! ## Extension -/

/-- The rules around a `@content` are statements of the body. -/
theorem Node.mem_contentWraps {around : List Label} (h : wraps ∈ n.contentWraps around) :
    ∀ l ∈ wraps, l ∈ around ∨ ∃ m ∈ n.preorder, m.label = l ∧ isWrapping l.kind = true := by
  induction n using ind generalizing around with
  | mk l cs ih =>
    rw [contentWraps] at h
    split at h
    · obtain rfl := mem_singleton.1 h
      exact fun l hl => .inl hl
    · -- The label of the node itself is the only one that is added on this level.
      have below : ∀ (around : List Label) (ds : List Node), (∀ d ∈ ds, d ∈ cs) →
          wraps ∈ contentWrapsAll around ds → ∀ l' ∈ wraps,
            l' ∈ around ∨ ∃ c ∈ cs, ∃ m ∈ c.preorder, m.label = l' ∧ isWrapping l'.kind = true := by
        intro around ds
        induction ds with
        | nil => exact fun _ h => by cases h
        | cons d ds ihds =>
          intro hds h l' hl'
          rw [contentWrapsAll, mem_append] at h
          rcases h with h | h
          · have hd := hds d mem_cons_self
            exact (ih d hd h l' hl').imp_right fun hm => ⟨d, hd, hm⟩
          · exact ihds (fun e he => hds e (mem_cons_of_mem _ he)) h l' hl'
      intro l' hl'
      obtain hin | ⟨c, hc, m, hm, hml⟩ := below _ cs (fun _ h => h) h l' hl'
      · split at hin
        · rename_i hwrap
          rcases mem_append.1 hin with hin | hin
          · exact .inl hin
          · obtain rfl := mem_singleton.1 hin
            exact .inr ⟨mk l' cs, mem_preorder_mk.2 (.inl rfl), rfl, hwrap⟩
        · exact .inl hin
      · exact .inr ⟨m, mem_preorder_mk.2 (.inr ⟨c, hc, hm⟩), hml⟩

theorem IsItem.wrapIn (hs : ∀ s ∈ statements, IsItem sharing s)
    (hw : ∀ l ∈ wraps, l.kind.form = .rule ∧ l.relation = none) :
    ∀ m ∈ wrapIn statements wraps, IsItem sharing m := by
  induction wraps with
  | nil => exact hs
  | cons l wraps ih =>
    obtain ⟨hform, hrel⟩ := hw l mem_cons_self
    have hinner := ih fun l' hl' => hw l' (mem_cons_of_mem _ hl')
    intro m hm
    obtain rfl := mem_singleton.1 hm
    refine ⟨⟨hrel, by simp [hform]⟩, .rule (.inl hform) rfl rfl ?_⟩
    exact .block rfl (fun c hc => (hinner c hc).isMember) fun c hc => (hinner c hc).isStatement

/-- The rules around a `@content` in a block are rules of the block. -/
theorem Node.mem_contentWrapsAll (hb : b.kind = .block) (h : wraps ∈ contentWrapsAll [] b.children) :
    ∀ l ∈ wraps, ∃ m ∈ b.preorder, m.label = l ∧ isWrapping l.kind = true := by
  obtain ⟨lb, cs⟩ := b
  rw [kind_mk] at hb
  have hall : wraps ∈ (Node.mk lb cs).contentWraps [] := by
    simpa [contentWraps, hb, isWrapping] using h
  exact fun l hl => (mem_contentWraps hall l hl).resolve_left not_mem_nil

/-- **What is left of an extending use is statements.** -/
theorem IsItem.passedRules (hm : IsStatement sharing mixin) (hmk : mixin.kind.isMixin = true)
    (hc : IsItem sharing call) (hck : call.kind.form = .call) :
    ∀ m ∈ passedRules mixin call, IsItem sharing m := by
  intro m hmem
  unfold Node.passedRules at hmem
  split at hmem
  · rename_i content body hcontent hbody
    obtain ⟨wraps, hwraps, hmap⟩ := mem_flatMap.1 hmem
    obtain ⟨m, hm', rfl⟩ := mem_map.1 hmap
    obtain ⟨hform, hst⟩ := hc.isStatement.call_content hck hcontent
    obtain ⟨b, hb, hbform, hbst, -⟩ := hm.mixin_parts hmk
    obtain rfl : b = body := Option.some.inj (hb.symm.trans hbody)
    have hstatements : ∀ s ∈ content.children.map Node.copied, IsItem sharing s :=
      forall_mem_map.2 fun s hs => (hst.block_cases hform s hs).copied
    refine (IsItem.wrapIn hstatements (fun l hl => ?_) m hm').plain
    obtain ⟨n, hn, rfl, hwrap⟩ := Node.mem_contentWrapsAll (Kind.eq_block hbform) hwraps l hl
    have hrule : n.kind.form = .rule := by
      revert hwrap
      change isWrapping n.kind = true → _
      cases n.kind <;> simp [isWrapping, Kind.form]
    have hitem := hbst.orderly.item (hbform ▸ rfl) hn (hrule ▸ rfl)
    exact ⟨hrule, hitem.isMember.1⟩
  · cases hmem

/-- The mixin with more selectors that extend it. -/
def Node.grafted (selectors : List String) (mixin : Node) : Node :=
  mixin.withKind (extended selectors mixin.kind)

theorem IsItem.grafted (h : IsItem True mixin) (hk : mixin.kind.isMixin = true)
    (hp : mixin.hasParams = false) (selectors : List String) :
    IsItem True (mixin.grafted selectors) := by
  obtain ⟨l, lp, ps, b, rfl, -, hkp, hrp, hps, hbk, hbr, hb⟩ := h.isStatement.mixin_cases hk
  have hform : (extended selectors l.kind).form = .extended := by
    rw [kind_mk] at hk
    revert hk
    cases l.kind with
    | mixin name s d => exact fun _ => rfl
    | _ => simp [Kind.isMixin]
  have hargs : (Node.mk l [.mk lp ps, b]).arguments = ps := by
    simp [arguments, child?, hrp]
  have hnil : ps = [] := by
    unfold hasParams at hp
    rw [hargs] at hp
    simpa using (Bool.or_eq_false_iff.1 hp).1
  refine ⟨⟨h.isMember.1, ?_⟩, .mixin (.inr ⟨trivial, hform, hnil⟩) hkp hrp hps hbk hbr hb⟩
  change (extended selectors l.kind).form ≠ _
  rw [hform]
  decide

theorem Node.update_eq_of_get? {m : Node} {f : Node → Node} {p : Path} (h : n.get? p = some m) :
    n.update f p = n.update (fun _ => f m) p := by
  induction p generalizing n with
  | nil =>
    obtain rfl := Option.some.inj h
    rfl
  | cons i p ih =>
    simp only [get?] at h
    split at h
    · rename_i c hc
      rw [update, update]
      congr 1
      refine ext_getElem? fun j => ?_
      rw [getElem?_modify, getElem?_modify]
      by_cases hij : i = j
      · subst hij
        simp [hc, ih h]
      · simp [hij]
    · cases h

/-- **What one extending use can do**: nothing, if it is not there or part of a definition; be
expanded; or give its selectors to the mixin and leave the statements that it passes along. -/
theorem Sheet.extendAt_cases (h : sheet.extendAt path = .ok sheet') :
    (sheet' = sheet ∧ ∀ call name, sheet.root.get? path = some call →
      call.kind = .call name true → sheet.root.isInsideMixin path = true) ∨
    ∃ call name place mixin selector dropped,
      sheet.root.get? path = some call ∧ call.kind = .call name true ∧
      sheet.root.isInsideMixin path = false ∧ Path.Precedes place path ∧
      sheet.root.get? place = some mixin ∧ mixin.kind = .mixin name selector dropped ∧
      ((∃ expansion, sheet'.root = sheet.root.update
          (fun _ => Node.expansion (Renaming.markOf expansion) mixin call) path) ∨
        ∃ selectors, mixin.hasParams = false ∧ sheet'.root =
          (sheet.root.update (fun _ => mixin.grafted selectors) place).splice
            (passedRules mixin call) path) := by
  unfold Sheet.extendAt at h
  split at h
  · rename_i name hkind
    obtain ⟨call, hcall, hk⟩ := Option.map_eq_some_iff.1 hkind
    split at h
    · rename_i hin
      cases h
      exact .inl ⟨rfl, fun _ _ _ _ => hin⟩
    · rename_i hin
      obtain ⟨place, hplace, h⟩ := bind_eq_ok.1 h
      obtain ⟨r, j, m, rfl, hprec, hm, selector, dropped, hmk⟩ := Sheet.findMixin_spec hplace
      refine .inr ⟨call, name, _, m, selector, dropped, hcall, hk, by simpa using hin, hprec, hm,
        hmk, ?_⟩
      unfold Sheet.extendMixin at h
      rw [hcall, hm] at h
      obtain ⟨context, -, h⟩ := bind_eq_ok.1 h
      split at h
      · exact .inl (Sheet.expandCall_cases hcall hm h)
      · rename_i hshare
        split at h
        · cases h
        · cases h
          have hparams : m.hasParams = false := by
            cases hp : m.hasParams with
            | false => rfl
            | true => simp [hp] at hshare
          refine .inr ⟨context.selectors, hparams, ?_⟩
          rw [← update_eq_of_get? hm]
          rfl
  · rename_i hno
    cases h
    exact .inl ⟨rfl, fun call name hcall hk =>
      absurd (by rw [hcall, Option.map_some, hk]) (hno name)⟩

theorem IsSheet.extendAt (hs : IsSheet True sheet.root) (h : sheet.extendAt path = .ok sheet') :
    IsSheet True sheet'.root := by
  obtain ⟨rfl, -⟩ | ⟨call, name, place, mixin, selector, dropped, hcall, hk, -, hprec, hm, hmk,
    ⟨expansion, heq⟩ | ⟨selectors, hparams, heq⟩⟩ := Sheet.extendAt_cases h
  · exact hs
  · rw [heq]
    exact hs.update_expansion hcall (by rw [hk, Kind.form]) hm (by rw [hmk, Kind.isMixin]) _
  · have hcf : call.kind.form = .call := by rw [hk, Kind.form]
    have hmm : mixin.kind.isMixin = true := by rw [hmk, Kind.isMixin]
    have hmitem := hs.item_of_get? hm (Kind.isLoose_of_isMixin hmm)
    have hcitem := hs.item_of_get? hcall (hcf ▸ rfl)
    have hgraft := hs.update_loose hm (Kind.isLoose_of_isMixin hmm)
      (hmitem.grafted hmm hparams selectors)
    -- The use is still there, since it is not inside the mixin.
    obtain ⟨t, ht⟩ := found_of_get? hcall
    have hfound : Node.Found path t call.kind
        (sheet.root.update (fun _ => mixin.grafted selectors) place) := ht.update hprec.not_prefix
    obtain ⟨call', hcall', hk'⟩ := hfound.get?
    rw [heq]
    rcases eq_nil_or_concat path with rfl | ⟨r, i, rfl⟩
    · exact hgraft
    · rw [concat_eq_append] at hcall' ⊢
      have hcf' : call'.kind.form = .call := by rw [hk', hcf]
      obtain ⟨p, hp, hi, hblock, -⟩ := hgraft.orderly.parent hcall' (hcf' ▸ rfl)
      exact hgraft.edited (edited_splice hp hi hblock (by simp [hcf'])
        (IsItem.passedRules hmitem.isStatement hmm hcitem hcf))

/-- **Handling the extending uses of a stylesheet gives a stylesheet.** -/
theorem IsSheet.processExtends (hs : IsSheet True sheet.root)
    (h : sheet.processExtends = .ok sheet') : IsSheet True sheet'.root := by
  obtain ⟨mid, hmid, h⟩ := bind_eq_ok.1 h
  have hsm : IsSheet True mid.root :=
    foldlM_invariant (fun _ s => IsSheet True s.root) (fun _ _ _ _ hs h => hs.extendAt h) _ _ _ hs hmid
  cases h
  exact hsm.edited (dropContent_edited hsm.orderly false)

end Cascade
