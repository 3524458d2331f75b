import Cascade.Proofs.MixinGrammar

/-!
# Uses of mixins in an expansion

The block that replaces a use of a mixin consists of the body of the mixin and of the statements
that the use passes along, so a use of a mixin in it comes from one of the two.  If it comes from the
passed statements it may now stand inside definitions of the body; these have marked names.
-/

set_option autoImplicit false

namespace Cascade

open Node List

variable {t : List Kind} {k kind : Kind} {name : String} {r : Renaming} {n : Node} {extend : Bool}
  {statements : List Node} {sharing : Prop}

namespace Node

/-! ## Other labels -/

/-- What occurs in a tree only depends on the kind of its root and on its children. -/
theorem Occurs.congr {m : Node} (h : Occurs k t n) (hk : m.kind = n.kind)
    (hc : m.children = n.children) : Occurs k t m := by
  obtain ⟨l, cs⟩ := n
  obtain ⟨l', cs'⟩ := m
  obtain rfl : cs' = cs := hc
  rw [occurs_mk] at h ⊢
  rw [kind_mk, kind_mk] at hk
  rwa [hk]

/-- What occurs in a tree with other kinds. -/
theorem Occurs.of_relabel {f : Node → Node} {g : Label → Label} {h : Kind → Kind}
    (hf : ∀ l cs, f (mk l cs) = mk (g l) (cs.map f)) (hg : ∀ l, (g l).kind = h l.kind) {n : Node}
    {k : Kind} {t : List Kind} (ho : Occurs k t (f n)) :
    ∃ k' t', Occurs k' t' n ∧ k = h k' ∧ t = t'.map h := by
  induction n using ind generalizing t with
  | mk l cs ih =>
    rw [hf, occurs_mk] at ho
    obtain ⟨rfl, rfl⟩ | ⟨d, hd, rest, rfl, ho⟩ := ho
    · exact ⟨l.kind, [], occurs_mk.2 (.inl ⟨rfl, rfl⟩), hg l, rfl⟩
    · obtain ⟨c, hc, rfl⟩ := mem_map.1 hd
      obtain ⟨k', t', hk', rfl, rfl⟩ := ih c hc ho
      exact ⟨k', l.kind :: t', occurs_mk.2 (.inr ⟨c, hc, t', rfl, hk'⟩), rfl, by rw [hg]; rfl⟩

theorem Occurs.of_copied (h : Occurs k t n.copied) : Occurs k t n := by
  obtain ⟨k', t', h, rfl, rfl⟩ := @Occurs.of_relabel copied (fun l => { l with comments := [] }) id
    (fun l cs => by rw [copied, copiedAll_eq_map]) (fun _ => rfl) _ _ _ h
  rwa [map_id]

theorem Occurs.of_renamed (h : Occurs k t (n.renamed r)) :
    ∃ k' t', Occurs k' t' n ∧ k = r.renameKind k' ∧ t = t'.map r.renameKind :=
  @Occurs.of_relabel (renamed r) (fun l => { l with kind := r.renameKind l.kind }) r.renameKind
    (fun l cs => by rw [renamed, renamedAll_eq_map]) (fun _ => rfl) _ _ _ h

end Node

/-! ## Marked names -/

theorem Kind.isMixin_iff :
    kind.isMixin = true ↔ ∃ name selector dropped, kind = .mixin name selector dropped := by
  cases kind <;> simp [isMixin]

theorem Renaming.renameKind_eq_call (h : r.renameKind kind = .call name extend) :
    ∃ name', kind = .call name' extend := by
  cases kind <;> simp [renameKind, Kind.withTexts] at h
  exact ⟨_, by rw [h.2]⟩

theorem Renaming.renameKind_eq_mixin {selector : Option (List String)} {dropped : Nat}
    (h : r.renameKind kind = .mixin name selector dropped) :
    ∃ name', kind = .mixin name' selector dropped ∧ name = r.rename name' := by
  cases kind <;> simp [renameKind, Kind.withTexts] at h
  exact ⟨_, by rw [h.2.1, h.2.2], h.1.symm⟩

theorem NameSet.mem_union {a b : NameSet} : name ∈ a.union b ↔ name ∈ a ∨ name ∈ b := by
  rw [union]
  induction b generalizing a with
  | nil => simp
  | cons n names ih =>
    rw [foldl_cons, ih, mem_insert, mem_cons]
    tauto

theorem NameSet.mem_ofList {names : List String} : name ∈ NameSet.ofList names ↔ name ∈ names :=
  mem_union.trans (or_iff_right not_mem_nil)

theorem Renaming.rename_local (h : name ∈ r.locals) : r.rename name = r.marked name := by
  rw [rename, isLocal, contains_iff_mem.2 h, Bool.true_or, if_pos rfl]

namespace Node

/-- A definition with a mark before the name that it has in the mixin. -/
def IsCopy (mixin : Node) (kind : Kind) : Prop :=
  ∃ name number selector dropped,
    kind = .mixin (Renaming.markOf number ++ "-" ++ name) selector dropped ∧
      ∃ m ∈ mixin.preorder, m.kind = .mixin name selector dropped

/-- **The definitions in a copy of a body have marked names.** -/
theorem Occurs.isCopy {number : Nat} {mixin b : Node} (hb : b ∈ mixin.children)
    (h : Occurs k t (b.copied.renamed ⟨Renaming.markOf number, mixin.localNames b.copied⟩))
    (hk : k.isMixin = true) : IsCopy mixin k := by
  obtain ⟨k', t', h, hkind, -⟩ := h.of_renamed
  obtain ⟨name, selector, dropped, rfl⟩ := Kind.isMixin_iff.1 hk
  obtain ⟨name', rfl, hname⟩ := Renaming.renameKind_eq_mixin hkind.symm
  have hlocal : name' ∈ mixin.localNames b.copied := by
    obtain ⟨m, hm, hmk⟩ := exists_occurs_iff.1 ⟨t', h⟩
    refine NameSet.mem_ofList.2 (mem_append_right _ (mem_filterMap.2 ⟨m, hm, ?_⟩))
    rw [hmk]
  obtain ⟨m, hm, hmk⟩ := exists_occurs_iff.1 ⟨t', h.of_copied⟩
  obtain ⟨l, cs⟩ := mixin
  refine ⟨name', number, selector, dropped, ?_, m, mem_preorder_of_mem hb hm, hmk⟩
  rw [hname, Renaming.rename_local hlocal]
  rfl

/-! ## Passed statements -/

theorem mem_fillContentAll {cs : List Node} {d : Node} (h : d ∈ fillContentAll statements cs) :
    d ∈ statements ∨ ∃ c ∈ cs, d = c.fillContent statements := by
  induction cs with
  | nil => cases h
  | cons c cs ih =>
    obtain ⟨l, es⟩ := c
    rw [fillContentAll, mem_append] at h
    rcases h with h | h
    · split at h
      · exact .inl h
      · exact .inr ⟨_, mem_cons_self, mem_singleton.1 h⟩
    · obtain h | ⟨c, hc, hd⟩ := ih h
      · exact .inl h
      · exact .inr ⟨c, mem_cons_of_mem _ hc, hd⟩

/-- What occurs in a body with passed statements: what occurred before, and what occurs in a passed
statement, below nodes of the body. -/
theorem Occurs.of_fillContent (h : Occurs k t (n.fillContent statements)) :
    Occurs k t n ∨ ∃ s ∈ statements, ∃ t₁ t₂, t = t₁ ++ t₂ ∧ Occurs k t₂ s ∧
      ∀ k' ∈ t₁, ∃ m ∈ n.preorder, m.kind = k' := by
  induction n using ind generalizing t with
  | mk l cs ih =>
    rw [fillContent, occurs_mk] at h
    obtain ⟨rfl, rfl⟩ | ⟨d, hd, rest, rfl, h⟩ := h
    · exact .inl (occurs_mk.2 (.inl ⟨rfl, rfl⟩))
    · have hself : ∃ m ∈ (mk l cs).preorder, m.kind = l.kind := ⟨_, self_mem_preorder _, rfl⟩
      obtain hd | ⟨c, hc, rfl⟩ := mem_fillContentAll hd
      · exact .inr ⟨d, hd, [l.kind], rest, rfl, h, forall_mem_singleton.2 hself⟩
      · obtain h | ⟨s, hs, t₁, t₂, rfl, h, hkinds⟩ := ih c hc h
        · exact .inl (occurs_mk.2 (.inr ⟨c, hc, rest, rfl, h⟩))
        · refine .inr ⟨s, hs, l.kind :: t₁, t₂, rfl, h, forall_mem_cons.2 ⟨hself, ?_⟩⟩
          intro k' hk'
          obtain ⟨m, hm, hmk⟩ := hkinds k' hk'
          exact ⟨m, mem_preorder_of_mem hc hm, hmk⟩

theorem Occurs.of_child {c : Node} (hc : c ∈ n.children) (h : Occurs k t c) :
    Occurs k (n.kind :: t) n := by
  obtain ⟨l, cs⟩ := n
  exact occurs_mk.2 (.inr ⟨c, hc, t, rfl, h⟩)

end Node

/-! ## Expansions -/

/-- Inside a declaration there is nothing but values. -/
theorem IsStatement.declaration_isPart (hn : IsStatement sharing n)
    (hk : n.kind.form = .declaration) :
    ∀ m ∈ n.preorder, m.kind.form = .declaration ∨ m.kind.form.isPart = true := by
  cases hn with
  | declaration h hcs =>
    exact forall_mem_preorder.2 ⟨.inl h, fun c hc m hm => .inr (hcs.isPart c hc m hm)⟩
  | rule h | mixin h => rcases h with h | h <;> simp [h] at hk
  | marker h | property h | assign h | directive h | keyframes h | call h | conditional h
  | block h => simp [h] at hk

/-- The declarations at the head of an expansion hold no other statements. -/
theorem Node.Occurs.of_paramDeclaration {mixin call d : Node}
    (hp : ∀ p ∈ mixin.arguments, IsParameter p) (ha : ∀ a ∈ call.arguments, IsValue a)
    (hd : d ∈ paramDeclarations r mixin call) (h : Occurs k t d) :
    k.form = .declaration ∨ k.form.isPart = true := by
  have hitem : IsItem True d := .paramDeclarations r hp ha d hd
  obtain ⟨m, hm, rfl⟩ := exists_occurs_iff.1 ⟨t, h⟩
  refine hitem.isStatement.declaration_isPart ?_ m hm
  obtain ⟨⟨⟨name, default⟩, i⟩, -, rfl⟩ := mem_map.1 hd
  rfl

/-- What occurs in a block with more statements at its head. -/
theorem Node.Occurs.of_head {head : List Node}
    (h : Occurs k t (n.withChildren (head ++ n.children))) :
    Occurs k t n ∨ ∃ d ∈ head, ∃ t', Occurs k t' d := by
  obtain ⟨l, cs⟩ := n
  rw [withChildren, occurs_mk] at h
  obtain h | ⟨d, hd, rest, rfl, h⟩ := h
  · exact .inl (occurs_mk.2 (.inl h))
  · rcases mem_append.1 hd with hd | hd
    · exact .inr ⟨d, hd, rest, h⟩
    · exact .inl (occurs_mk.2 (.inr ⟨d, hd, rest, rfl, h⟩))

/-- What occurs in a copy of a statement that a use passes along, occurs in the block of the use. -/
theorem Node.Occurs.of_content {call content c : Node} (hc : IsStatement sharing call)
    (hck : call.kind.form = .call) (hcontent : call.rules? = some content)
    (hcc : c ∈ content.children) (h : Occurs k t c.copied) :
    Occurs k (call.kind :: .block :: t) call := by
  have hblock := Kind.eq_block (hc.call_content hck hcontent).1
  rw [← hblock]
  exact (h.of_copied.of_child hcc).of_child (mem_of_find?_eq_some hcontent)

/-- **Where a use in an expansion comes from**: there was one in the mixin, or it was passed along, and
the definitions that are around it now are copies of definitions in the mixin. -/
theorem Node.Occurs.of_expansion {number : Nat} {mixin call : Node} (hm : IsStatement sharing mixin)
    (hmk : mixin.kind.isMixin = true) (hc : IsStatement sharing call) (hck : call.kind.form = .call)
    (h : Occurs (.call name extend) t (expansion (Renaming.markOf number) mixin call)) :
    (∃ name' t', Occurs (.call name' extend) (mixin.kind :: t') mixin) ∨
      ∃ t₁ t₂, t = t₁ ++ t₂ ∧ Occurs (.call name extend) (call.kind :: .block :: t₂) call ∧
        ∀ k ∈ t₁, k.isMixin = true → IsCopy mixin k := by
  obtain ⟨b, hb, -, -, hparams⟩ := hm.mixin_parts hmk
  have hbmem : b ∈ mixin.children := mem_of_find?_eq_some hb
  obtain ⟨r, rfl, heq⟩ := @expansion_eq (Renaming.markOf number) mixin call b hb
  rw [heq] at h
  obtain h | ⟨s, hs, t₁, t₂, rfl, h, hkinds⟩ :=
    (h.congr rfl rfl : Occurs _ _ (fillContent _ _)).of_fillContent
  · obtain h | ⟨d, hd, t', h⟩ := h.of_head
    · obtain ⟨k, t', h, hk, -⟩ := h.of_renamed
      obtain ⟨name', rfl⟩ := Renaming.renameKind_eq_call hk.symm
      exact .inl ⟨name', t', h.of_copied.of_child hbmem⟩
    · obtain hf | hf := h.of_paramDeclaration hparams (hc.call_arguments hck) hd <;> cases hf
  · obtain ⟨content, hcontent, c, hcc, rfl⟩ := mem_passedStatements.1 hs
    refine .inr ⟨t₁, t₂, rfl, .of_content hc hck hcontent hcc (h.congr rfl rfl), ?_⟩
    intro k hk hmixin
    obtain ⟨t, ht⟩ := exists_occurs_iff.2 (hkinds k hk)
    obtain ht | ⟨d, hd, t', ht⟩ := ht.of_head
    · exact ht.isCopy hbmem hmixin
    · have hform := ht.of_paramDeclaration hparams (hc.call_arguments hck) hd
      obtain hk | hk := Kind.form_of_isMixin hmixin <;> rw [hk] at hform <;> simp [Form.isPart,
        Form.isValue] at hform

/-! ## Rules around passed statements -/

/-- What occurs in statements inside new rules, unless it is part of the rules. -/
theorem Node.Occurs.of_wrapIn {wraps : List Label} (hw : ∀ l ∈ wraps, isWrapping l.kind = true)
    {m : Node} (hm : m ∈ wrapIn statements wraps) (h : Occurs (.call name extend) t m) :
    ∃ s ∈ statements, ∃ t₁ t₂, t = t₁ ++ t₂ ∧ Occurs (.call name extend) t₂ s ∧
      ∀ k ∈ t₁, k.isMixin = false := by
  induction wraps generalizing m t with
  | nil => exact ⟨m, hm, [], t, rfl, h, by simp⟩
  | cons l wraps ih =>
    obtain ⟨hl, hw⟩ := forall_mem_cons.1 hw
    have hlm : l.kind.isMixin = false := by
      revert hl
      cases l.kind <;> simp [isWrapping, Kind.isMixin]
    obtain rfl := mem_singleton.1 hm
    obtain ⟨-, hk⟩ | ⟨b, hb, t', rfl, hbelow⟩ := occurs_mk.1 h
    · simp only at hk
      rw [hk] at hl
      cases hl
    obtain rfl := mem_singleton.1 hb
    obtain ⟨-, hk⟩ | ⟨c, hc, t'', rfl, hinner⟩ := occurs_mk.1 hbelow
    · cases hk
    obtain ⟨s, hs, t₁, t₂, rfl, hs', hkinds⟩ := ih hw hc hinner
    exact ⟨s, hs, l.kind :: .block :: t₁, t₂, rfl, hs',
      forall_mem_cons.2 ⟨hlm, forall_mem_cons.2 ⟨rfl, hkinds⟩⟩⟩

/-- **A use in what is left of an extending use** was passed along, and no definition is around it that
was not there before. -/
theorem Node.Occurs.of_passedRules {mixin call m : Node} (hmixin : IsStatement sharing mixin)
    (hmk : mixin.kind.isMixin = true) (hc : IsStatement sharing call) (hck : call.kind.form = .call)
    (hm : m ∈ passedRules mixin call) (h : Occurs (.call name extend) t m) :
    ∃ t₁ t₂, t = t₁ ++ t₂ ∧ Occurs (.call name extend) (call.kind :: .block :: t₂) call ∧
      ∀ k ∈ t₁, k.isMixin = false := by
  unfold passedRules at hm
  split at hm
  · rename_i content body hcontent hbody
    obtain ⟨wraps, hwraps, hm⟩ := mem_flatMap.1 hm
    obtain ⟨m, hm', rfl⟩ := mem_map.1 hm
    have h : Occurs (.call name extend) t m := h.congr rfl rfl
    obtain ⟨b, hb, hbform, -⟩ := hmixin.mixin_parts hmk
    obtain rfl : b = body := Option.some.inj (hb.symm.trans hbody)
    have hwrapping : ∀ l ∈ wraps, isWrapping l.kind = true := fun l hl => by
      obtain ⟨-, -, -, hl⟩ := mem_contentWrapsAll (Kind.eq_block hbform) hwraps l hl
      exact hl
    obtain ⟨s, hs, t₁, t₂, rfl, h, hkinds⟩ := h.of_wrapIn hwrapping hm'
    obtain ⟨c, hcc, rfl⟩ := mem_map.1 hs
    exact ⟨t₁, t₂, rfl, Occurs.of_content hc hck hcontent hcc h, hkinds⟩
  · cases hm

/-! ## The whole tree -/

namespace Node

/-- Where a use comes from that is found in the tree after the use at `path` has been replaced by
means of the mixin at `place`. -/
inductive Origin (root mixin : Node) (path place q : Path) (t : List Kind) (name : String)
    (extend : Bool) : Prop
  /-- It stands where it stood. -/
  | kept (hq : ¬ path <+: q) (h : Found q t (.call name extend) root)
  /-- There is a use in the mixin. -/
  | defined {r : Path} {t₀ : List Kind} {name₀ : String} (ht : mixin.kind ∈ t₀)
      (h : Found (place ++ r) t₀ (.call name₀ extend) root)
  /-- It was passed along, and may now be inside copies of definitions. -/
  | passed {r : Path} {t₀ t₁ t₂ : List Kind} {kind : Kind} (hr : r ≠ [])
      (ht : t = t₀ ++ t₁ ++ t₂) (hpath : Found path t₀ kind root)
      (h : Found (path ++ r) (t₀ ++ kind :: .block :: t₂) (.call name extend) root)
      (hcopy : ∀ k ∈ t₁, k.isMixin = true → IsCopy mixin k)

theorem Occurs.found {root : Node} {path : Path} {t₀ : List Kind} {k₀ : Kind}
    (hn : root.get? path = some n) (hpath : Found path t₀ k₀ root) (h : Occurs k t n) :
    ∃ r, Found (path ++ r) (t₀ ++ t) k root ∧ (t ≠ [] → r ≠ []) := by
  obtain ⟨r, hr⟩ := h
  refine ⟨r, found_append hpath hn hr, ?_⟩
  rintro ht rfl
  exact ht hr.1

variable {root mixin call : Node} {path place q : Path} {name : String} {extend : Bool}
  {t : List Kind}

variable (hs : IsSheet sharing root) (hcall : root.get? path = some call)
  (hck : call.kind.form = .call) (hmixin : root.get? place = some mixin)
  (hmk : mixin.kind.isMixin = true)

include hs hcall hck hmixin hmk

/-- **Where uses come from after an expansion.** -/
theorem Found.of_expansion {number : Nat}
    (h : Found q t (.call name extend)
      (root.update (fun _ => expansion (Renaming.markOf number) mixin call) path)) :
    Origin root mixin path place q t name extend := by
  have hc := (hs.item_of_get? hcall (hck ▸ rfl)).isStatement
  have hm := (hs.item_of_get? hmixin (Kind.isLoose_of_isMixin hmk)).isStatement
  obtain ⟨r, t₀, t', kind, rfl, rfl, hpath, h⟩ | ⟨hq, h⟩ := h.of_update
  · obtain ⟨name₀, u, h⟩ | ⟨t₁, t₂, rfl, h, hcopy⟩ :=
      Occurs.of_expansion hm hmk hc hck ⟨r, h⟩
    · obtain ⟨u₀, hplace⟩ := found_of_get? hmixin
      obtain ⟨r, hr, -⟩ := h.found hmixin hplace
      exact .defined (by simp) hr
    · obtain ⟨r, hr, hne⟩ := h.found hcall hpath
      obtain ⟨call', hcall', rfl⟩ := hpath.get?
      obtain rfl : call = call' := Option.some.inj (hcall.symm.trans hcall')
      exact .passed (hne (by simp)) (append_assoc _ _ _).symm hpath hr hcopy
  · exact .kept hq h

omit hs hcall hck in
/-- A use in a tree with a mixin that has been extended was there before. -/
theorem Found.of_graft {selectors : List String}
    (h : Found q t (.call name extend) (root.update (fun _ => mixin.grafted selectors) place)) :
    Found q t (.call name extend) root ∨
      ∃ r t₀, mixin.kind ∈ t₀ ∧ Found (place ++ r) t₀ (.call name extend) root := by
  obtain ⟨r, t₀, t', kind, rfl, rfl, hplace, h⟩ | ⟨-, h⟩ := h.of_update
  · refine .inr ?_
    have hbelow : ∃ u, Occurs (.call name extend) (mixin.kind :: u) mixin := by
      obtain ⟨l, cs⟩ := mixin
      obtain ⟨-, hk⟩ | ⟨c, hc, u, -, h⟩ := occurs_mk.1 ⟨r, h⟩
      · obtain ⟨m, selector, dropped, hl⟩ := Kind.isMixin_iff.1 hmk
        change extended selectors (mk l cs).kind = _ at hk
        rw [hl] at hk
        cases hk
      · exact ⟨u, Occurs.of_child hc h⟩
    obtain ⟨u, hu⟩ := hbelow
    obtain ⟨r, hr, -⟩ := hu.found hmixin hplace
    exact ⟨r, _, by simp, hr⟩
  · exact .inl h

omit hs hcall hck hmixin hmk in
/-- The kinds above a node are those above its parent and the kind of the parent. -/
theorem Found.parent {r : Path} {i : Nat} (h : Found (r ++ [i]) t k n) :
    ∃ t' k', Found r t' k' n ∧ t = t' ++ [k'] := by
  induction r generalizing n t with
  | nil =>
    obtain ⟨c, rest, -, rfl, rfl, -⟩ := h
    exact ⟨[], n.kind, ⟨rfl, rfl⟩, rfl⟩
  | cons j r ih =>
    obtain ⟨c, rest, hc, rfl, h⟩ := h
    obtain ⟨t', k', hr, rfl⟩ := ih h
    exact ⟨n.kind :: t', k', ⟨c, t', hc, rfl, hr⟩, rfl⟩

/-- **Where uses come from after an extension.** -/
theorem Found.of_extension (hprec : Path.Precedes place path) {selectors : List String}
    (h : Found q t (.call name extend)
      ((root.update (fun _ => mixin.grafted selectors) place).splice (passedRules mixin call) path)) :
    Origin root mixin path place q t name extend ∨
      ∃ q₀, Path.Precedes path q₀ ∧ Found q₀ t (.call name extend) root := by
  have hc := (hs.item_of_get? hcall (hck ▸ rfl)).isStatement
  have hm := (hs.item_of_get? hmixin (Kind.isLoose_of_isMixin hmk)).isStatement
  obtain ⟨u, hpath⟩ := found_of_get? hcall
  have hgraft : Found path u call.kind (root.update (fun _ => mixin.grafted selectors) place) :=
    hpath.update hprec.not_prefix
  rcases eq_nil_or_concat path with rfl | ⟨r, i, rfl⟩
  · obtain rfl := Option.some.inj hcall
    rw [hs.kind] at hck
    cases hck
  rw [concat_eq_append] at *
  obtain ⟨call', hcall', -⟩ := hgraft.get?
  obtain ⟨c, hcm, q', t₁, t₂, k₁, j, rfl, rfl, hparent, h⟩ | ⟨hq, -, h⟩ | ⟨q₀, hq, h⟩ :=
    h.of_splice (by rw [hcall']; rfl)
  · -- The use was passed along, below the parent of the replaced one.
    obtain ⟨u₁, u₂, rfl, h, hno⟩ := Occurs.of_passedRules hm hmk hc hck hcm ⟨q', h⟩
    obtain ⟨t', k', hparent', rfl⟩ := hgraft.parent
    obtain ⟨rfl, rfl⟩ := hparent.unique hparent'
    obtain ⟨r', hr', hne⟩ := h.found hcall hpath
    have ht : t₁ ++ k₁ :: (u₁ ++ u₂) = t₁ ++ [k₁] ++ u₁ ++ u₂ := by simp
    refine .inl (.passed (hne (by simp)) ht hpath hr' fun k hk hmixin => ?_)
    rw [hno k hk] at hmixin
    cases hmixin
  · obtain h | ⟨r', t₀, ht, h⟩ := h.of_graft hmixin hmk
    · exact .inl (.kept hq h)
    · exact .inl (.defined ht h)
  · obtain h | ⟨r', t₀, ht, h⟩ := h.of_graft hmixin hmk
    · exact .inr ⟨q₀, hq, h⟩
    · exact .inl (.defined ht h)

end Node

end Cascade
