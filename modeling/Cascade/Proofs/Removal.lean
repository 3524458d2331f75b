import Cascade.Proofs.Inert
import Cascade.Proofs.Thinning

/-!
# What removing unused variables leaves

Rounds of counting and taking out.  In a stylesheet without mixins each round leaves statements out
that only set variables nobody reads, so the stylesheet is evaluated to the same before and after.
-/

set_option autoImplicit false

namespace Cascade

open Node List

variable {cs : List Node} {n : Node} {sheet : Sheet} {l : Label} {kind : Kind} {sharing : Prop}
  {A : String → Prop}

theorem Node.FormsIn.substituteFields {P : Form → Prop} {sheet' : Sheet} {fields : Fields}
    (h : sheet.root.FormsIn P) (hatom : P .atom)
    (hfilled : sheet.substituteFields fields = .ok sheet') :
    sheet'.root.FormsIn P := by
  obtain ⟨root, hroot, rfl⟩ := map_eq_ok.1 hfilled
  exact (Fields.substitute_edited hroot).formsIn h hatom

/-! ## Trees without mixins -/

/-- The forms of mixins. -/
def Form.isMixin : Form → Bool
  | template | extended => true
  | _ => false

@[simp]
theorem Kind.isMixin_form (kind : Kind) : kind.form.isMixin = kind.isMixin := by
  unfold form
  split <;> rfl

/-- The forms of nodes that have nothing to do with mixins. -/
def Form.isUnmixed (form : Form) : Bool :=
  !form.isMixin && form != .call

/-- **A tree without mixins and their uses.** -/
def Node.Unmixed (n : Node) : Prop :=
  n.FormsIn fun form => form.isUnmixed = true

theorem Kind.isUnmixed_form :
    kind.form.isUnmixed = true ↔ kind.isMixin = false ∧ kind.form ≠ .call := by
  simp [Form.isUnmixed]

theorem Kind.isMixin_of_isUnmixed (h : kind.form.isUnmixed = true) : kind.isMixin = false :=
  (Kind.isUnmixed_form.1 h).1

theorem Node.Unmixed.isMixin (h : n.Unmixed) : ∀ m ∈ n.preorder, m.kind.isMixin = false :=
  fun m hm => Kind.isMixin_of_isUnmixed (h m hm)

theorem Node.Unmixed.form_ne_call (h : n.Unmixed) : ∀ m ∈ n.preorder, m.kind.form ≠ .call :=
  fun m hm => (Kind.isUnmixed_form.1 (h m hm)).2

/-! ## Where nothing is left out -/

/-- The forms of nodes that stay, with all their children that are no parameters. -/
def Form.isFirm : Form → Bool
  | .block | .sheet | .param | .template | .extended => false
  | _ => true

theorem Kind.ne_block (h : kind.form.isFirm = true) : kind ≠ .block := by
  rintro rfl
  cases h

theorem Form.isFirm_of_isOperand {form : Form} (h : form.isOperand = true) :
    form.isFirm = true := by
  revert h
  cases form <;> simp [isOperand, isValue, isFirm]

theorem Kind.isMixin_of_isFirm (h : kind.form.isFirm = true) : kind.isMixin = false := by
  rw [← Bool.not_eq_true]
  intro hmixin
  rcases Kind.form_of_isMixin hmixin with hform | hform <;> simp [hform, Form.isFirm] at h

section Cut

variable {around : Scope} {m : Node}

/-- What is no mixin keeps its label. -/
theorem Cut.mk_cases (h : Cut around (.mk l cs) m) (hl : l.kind.isMixin = false) :
    ∃ cs', m = .mk l cs' ∧ CutAll l.kind.form (l.innerScope around) cs cs' := by
  obtain ⟨count, cs', rfl, hcs⟩ := h
  have hkind : losing count l.kind = l.kind := by
    revert hl
    cases l.kind <;> first | exact fun _ => rfl | exact nofun
  exact ⟨cs', by rw [hkind], hcs⟩

/-- All children stay. -/
theorem Cut.firm_cases (h : Cut around (.mk l cs) m) (hl : l.kind.form.isFirm = true)
    (hcs : ∀ c ∈ cs, c.kind.form ≠ .param) :
    ∃ cs', m = .mk l cs' ∧ List.Forall₂ (Cut around) cs cs' := by
  obtain ⟨cs', rfl, hall⟩ := h.mk_cases (Kind.isMixin_of_isFirm hl)
  have hblock : l.kind.form.isBlockLike = false := by
    revert hl
    cases l.kind.form <;> simp [Form.isFirm, Form.isBlockLike]
  rw [Label.innerScope_of_not_blockLike hblock] at hall
  refine ⟨cs', rfl, ?_⟩
  clear h
  induction cs generalizing cs' with
  | nil =>
    cases hall
    exact .nil
  | cons c cs ih =>
    obtain ⟨hc, hcs⟩ := forall_mem_cons.1 hcs
    obtain ⟨⟨hb, -⟩ | ⟨-, hp⟩, -⟩ | ⟨m, ms, rfl, hm, h⟩ := hall
    · rw [hblock] at hb
      cases hb
    · exact absurd hp hc
    · exact .cons hm (ih hcs ms h)

/-- Where nothing can be left out, nothing is. -/
theorem Cut.eq_self (h : Cut around n m) (hn : n.FormsIn (·.isFirm = true)) : m = n := by
  induction n using ind generalizing m with
  | mk l cs ih =>
    obtain ⟨hl, hcs⟩ := formsIn_mk.1 hn
    obtain ⟨cs', rfl, hall⟩ := h.firm_cases hl fun c hc hk => by
      have hfirm := hcs c hc c c.self_mem_preorder
      rw [hk] at hfirm
      cases hfirm
    have heq := forall₂_imp_of_mem hall fun c hc c' hc' => (ih c hc hc' (hcs c hc)).symm
    rw [forall₂_eq_eq_eq] at heq
    rw [heq]

end Cut

/-! ## Counting again -/

/-- The forms of statements that hold no statements. -/
def Form.isSimple : Form → Bool
  | marker | property | declaration | assign | directive => true
  | _ => false

theorem IsStatement.firm (hn : IsStatement sharing n) (h : n.kind.form.isSimple = true) :
    n.FormsIn (·.isFirm = true) := by
  have hparts : ∀ c ∈ n.children, c.FormsIn fun form => form.isOperand = true := by
    cases hn with
    | marker => simp
    | property _ _ hv => exact forall_mem_singleton.2 hv.isOperand
    | declaration _ hcs => exact fun c hc => (hcs.isValue c hc).isOperand
    | assign _ _ hv => exact forall_mem_singleton.2 hv.isOperand
    | directive _ hargs =>
      exact forall_mem_singleton.2 (formsIn_mk.2 ⟨by simp [hargs.kind, Form.isOperand],
        fun c hc => (hargs.isValue c hc).isOperand⟩)
    | rule hf => rcases hf with hf | hf <;> simp [hf, Form.isSimple] at h
    | mixin hf => rcases hf with hf | hf <;> simp [hf, Form.isSimple] at h
    | _ => simp_all [Form.isSimple]
  obtain ⟨l, cs⟩ := n
  refine formsIn_mk.2 ⟨?_, fun c hc m hm => Form.isFirm_of_isOperand (hparts c hc m hm)⟩
  revert h
  rw [kind_mk]
  cases l.kind.form <;> simp [Form.isSimple, Form.isFirm]

theorem Kind.isSimple_of_form (h : kind.form.isSimple = true) : kind.isSimple = true := by
  unfold form at h
  split at h <;> simp_all [Form.isSimple, isSimple, treatment]

theorem Scope.opening_eq (h : l.kind.isMixin = false) : Scope.opening (.mk l cs) = {} := by
  unfold Scope.opening
  split
  · rename_i hk
    rw [kind_mk] at hk
    rw [hk] at h
    cases h
  · rfl

theorem Node.isBranch_of_relation {place : Option Relation} (h : n.relation = place) :
    n.label.isBranch = (place == some .thenPart || place == some .elsePart) := by
  rw [← h]
  rfl

/-! ### Statements that go -/

/-- The value of a declaration or an assignment is its only part. -/
theorem IsStatement.child?_initializer (hn : IsStatement sharing n)
    (h : n.kind.form = .declaration ∨ n.kind.form = .assign) :
    ∀ c ∈ n.children, n.child? .initializer = some c := by
  have hone : ∀ {l : Label} {cs : List Node}, IsInitializer cs →
      ∀ c ∈ cs, (Node.mk l cs).child? .initializer = some c := by
    intro l cs hcs c hc
    match cs, hcs with
    | [d], hcs =>
      obtain rfl := mem_singleton.1 hc
      simp [child?, hcs.relation c mem_cons_self]
    | _ :: _ :: _, hcs => exact absurd hcs.length_le (by simp)
  cases hn with
  | declaration _ hcs => exact hone hcs
  | assign _ hr hv =>
    exact hone ⟨by simp, forall_mem_singleton.2 hr, forall_mem_singleton.2 hv⟩
  | rule hf => rcases hf with hf | hf <;> simp [hf] at h
  | mixin hf => rcases hf with hf | hf <;> simp [hf] at h
  | _ => simp_all

/-- A value without computations sets nothing. -/
theorem Node.setsOnly_of_plain {W : String → Prop} {value : Node}
    (h : (value.preorder.all fun node =>
      match node.kind with
      | .reference _ | .list | .comma | .slash => true
      | kind => kind.isLiteral) = true) : value.SetsOnly W := by
  intro m hm
  have hplain := all_eq_true.1 h m hm
  generalize m.kind = kind at hplain ⊢
  cases kind with
  | reference | list | comma | slash | number | string | identifier | boolean | null | raw =>
    exact ⟨by simp [Kind.settings], nofun, nofun⟩
  | _ => cases hplain

/-- **What goes is idle**: it only sets a variable that is not used. -/
theorem Node.MayGo.idle {unused : NameSet} (h : n.MayGo unused) (hn : IsStatement sharing n)
    (hu : n.Unmixed) (hA : ∀ x ∈ unused, ¬ A x) : n.kind.form.isSimple = true ∧ Idle A n := by
  have hset : ∃ name ∈ unused, n.kind.settings = [name] ∧ n.hasPlainValue = true ∧
      (n.kind.form = .declaration ∨ n.kind.form = .assign) := by
    unfold MayGo at h
    split at h
    · rename_i hk
      have hmixin := hu.isMixin n n.self_mem_preorder
      rw [hk] at hmixin
      cases hmixin
    · rename_i name hk
      exact ⟨name, h.1, by rw [hk]; rfl, h.2, .inl (by rw [hk]; rfl)⟩
    · rename_i name _ hk
      exact ⟨name, h.1, by rw [hk]; rfl, h.2, .inr (by rw [hk]; rfl)⟩
    · exact h.elim
  obtain ⟨name, hname, hsettings, hplain, hform⟩ := hset
  have hsimple : n.kind.form.isSimple = true := by
    rcases hform with hform | hform <;> rw [hform] <;> rfl
  refine ⟨hsimple, by rw [hsettings]; simp, ?_⟩
  have hchild := hn.child?_initializer hform
  obtain ⟨l, cs⟩ := n
  intro m hm
  obtain rfl | ⟨c, hc, hm⟩ := mem_preorder_mk.1 hm
  · refine ⟨by rw [hsettings]; simpa using hA name hname, fun hk => ?_, fun hk => ?_⟩
    · rw [hk] at hsettings
      cases hsettings
    · rcases Kind.form_of_rules hk with hk | hk | hk | hk <;>
        · rw [hk] at hsimple
          cases hsimple
  · rw [hasPlainValue, hchild c hc] at hplain
    exact setsOnly_of_plain hplain m hm

/-- **Counting again after a round gives the tree with idle statements left out.**  The node is
counted in two records, which agree on the variables with `A`; among these are all that the first
knows to be read in the end, and none that is unused. -/
def CountsThinned (n : Node) : Prop :=
  ∀ (around s s' : Scope) (m : Node) (A : String → Prop), Cut around (n.scanScopes {} s).1 m →
    (∀ x, (n.scanScopes {} s).2.isAccessed x = true → A x) →
    (∀ x ∈ around.unused, ¬ A x) → Scope.ChangeAlike A s s' →
    Thinned A (n.scanScopes {} s).1 (m.scanScopes {} s').1 ∧
      Scope.ChangeAlike A (n.scanScopes {} s).2 (m.scanScopes {} s').2

/-- A statement without others inside stays what it is. -/
theorem CountsThinned.simple (hn : IsStatement sharing n) (h : n.kind.form.isSimple = true) :
    CountsThinned n := by
  intro around s s' m A hcut hA _ hs
  have hforms := hn.firm h
  have hblock : ∀ m ∈ n.preorder, m.kind ≠ .block := fun m hm => Kind.ne_block (hforms m hm)
  have hself : ∀ o s : Scope, (n.scanScopes o s).1 = n := scanScopes_self hblock
  rw [hself] at hcut ⊢
  rw [hcut.eq_self hforms]
  refine ⟨?_, n.changeAlike_scanScopes hs⟩
  rw [hself]
  have hreads : n.ReadsOnly A := fun m hm x hx =>
    hA x (isAccessed_of_reads hblock hm hx s)
  have hsimple := Kind.isSimple_of_form h
  obtain ⟨l, cs⟩ := n
  rw [kind_mk, Kind.isSimple] at hsimple
  unfold Thinned
  split <;> simp_all

/-- The statements of a block. -/
theorem CountsThinned.all {form : Form} {around : Scope} {ds : List Node}
    (hcs : ∀ c ∈ cs, IsStatement sharing c ∧ c.Unmixed ∧ CountsThinned c) {s r : Scope}
    (hcut : CutAll form around (scanScopesAll {} s cs).1 ds) (hform : form ≠ .params)
    (hA : ∀ x, (scanScopesAll {} s cs).2.isAccessed x = true → A x)
    (hunused : ∀ x ∈ around.unused, ¬ A x) (hs : Scope.ChangeAlike A s r) :
    ThinnedAll A (scanScopesAll {} s cs).1 (scanScopesAll {} r ds).1 ∧
      Scope.ChangeAlike A (scanScopesAll {} s cs).2 (scanScopesAll {} r ds).2 := by
  induction cs generalizing s r ds with
  | nil =>
    cases hcut
    exact ⟨by unfold ThinnedAll; rfl, hs⟩
  | cons c cs ih =>
    obtain ⟨⟨hc, hu, hthinned⟩, hcs⟩ := forall_mem_cons.1 hcs
    rw [scanScopesAll] at hcut hA ⊢
    dsimp only at hA ⊢
    obtain ⟨hloses, hms⟩ | ⟨m, ms, rfl, hm, hms⟩ := hcut
    · -- The statement goes.
      obtain ⟨-, hgo⟩ := hloses.resolve_right fun h => hform h.1
      have hbare := c.bare_scanScopes {} s
      obtain ⟨hsimple, hidle⟩ := hgo.idle (hc.edited (.of_bare_eq hbare))
        (Edited.formsIn (.of_bare_eq hbare) hu rfl) hunused
      rw [kind_scanScopes] at hsimple
      have hself : (c.scanScopes {} s).1 = c :=
        scanScopes_self (fun m hm => Kind.ne_block (hc.firm hsimple m hm)) {} s
      have hs₁ : Scope.ChangeAlike A (c.scanScopes {} s).2 r := by
        intro x hx
        refine (modified_scanScopes (fun m hm hset => ?_) s).trans (hs x hx)
        exact (hidle.2 m (hself.symm ▸ hm)).1 x hset hx
      obtain ⟨hthin, halike⟩ := ih hcs hms hA hs₁
      exact ⟨by unfold ThinnedAll; exact .inl ⟨hidle, hthin⟩, halike⟩
    · -- The statement stays.
      obtain ⟨hthin, hs₁⟩ := hthinned _ _ _ _ _ hm
        (fun x hx => hA x (isAccessed_scanScopesAll cs hx)) hunused hs
      obtain ⟨hrest, halike⟩ := ih hcs hms hA hs₁
      rw [scanScopesAll]
      exact ⟨by unfold ThinnedAll; exact .inr ⟨_, _, rfl, hthin, hrest⟩, halike⟩

/-- A name that is read in a block and not changed there is read in the block around it, if there
are no mixins in it. -/
theorem Scope.isAccessed_absorb_finish {x : String} {s : Scope} (hu : ∀ c ∈ cs, c.Unmixed)
    (hx : (scanScopesAll {} {} cs).2.isAccessed x = true)
    (hmod : x ∉ (scanScopesAll {} {} cs).2.modified) :
    ((scanScopesAll {} {} cs).2.finish.absorb s).isAccessed x = true := by
  let b : Node := .make .block 0 cs
  have hcounts : ({} : Scope).Counts (scanScopesAll {} {} cs).2 b.namesIn b.readCount :=
    counts_block rfl (fun c _ => c.counts_scanScopes _) _
  have hrecords : Scope.Records b (.make .sheet 0) (scanScopesAll {} {} cs).2 :=
    records_scope rfl cs (.make .sheet 0)
  refine (hrecords.absorb rfl s).isAccessed_iff.2 (.inr ?_)
  have hhides : ¬ Hides x (.make .sheet 0) b := by
    rintro ⟨-, hdeclared | hparams⟩
    · -- A name that is declared without a mixin is one of a variable, which is set then.
      obtain ⟨m, hm, hx⟩ := mem_flatMap.1 hdeclared
      refine hmod ((hcounts.modified x).2 (.inr (mem_flatMap.2 ⟨m, hm, ?_⟩)))
      have hb : b.Unmixed := formsIn_mk.2 ⟨rfl, hu⟩
      have hmixin := hb.isMixin m (mem_preorder_of_mem_reachable hm)
      revert hx hmixin
      cases m.kind <;> simp [Kind.declares, Kind.settings, Kind.isMixin]
    · cases hparams
  rw [passedOn, if_neg hhides]
  exact (hcounts.isAccessed_iff.1 hx).resolve_left Bool.false_ne_true

/-- A block, with its statements. -/
theorem CountsThinned.block (hk : l.kind = .block)
    (hcs : ∀ c ∈ cs, IsStatement sharing c ∧ c.Unmixed ∧ CountsThinned c) :
    CountsThinned (.mk l cs) := by
  intro around s s' m A hcut hA hunused hs
  have hmixin : l.kind.isMixin = false := by rw [hk]; rfl
  have hform : l.kind.form ≠ .params := by rw [hk]; exact nofun
  by_cases hbr : l.isBranch = true
  · have hscan : ∀ (scope : Option Scope) (s : Scope) (ds : List Node),
        (Node.mk { l with scope } ds).scanScopes {} s = (.mk { l with scope := some {} }
          (scanScopesAll {} s ds).1, (scanScopesAll {} s ds).2) :=
      fun scope s ds => scanScopes_branch (l := { l with scope }) hk hbr
    rw [hscan l.scope] at hcut hA ⊢
    obtain ⟨ds, rfl, hall⟩ := hcut.mk_cases hmixin
    rw [Label.innerScope_of_branch (l := { l with scope := some {} }) hk hbr] at hall
    obtain ⟨hthin, halike⟩ := CountsThinned.all hcs hall hform hA hunused hs
    dsimp only
    rw [hscan]
    refine ⟨?_, halike⟩
    unfold Thinned
    simp only [hk, Kind.treatment]
    exact ⟨_, _, A, rfl, ⟨{}, {}, rfl, rfl, fun _ _ => .rfl, fun _ h _ => h⟩, fun _ => rfl, hthin⟩
  · have hscan : ∀ (scope : Option Scope) (s : Scope) (ds : List Node),
        (Node.mk { l with scope } ds).scanScopes {} s =
          (.mk { l with scope := some (scanScopesAll {} {} ds).2.finish }
            (scanScopesAll {} {} ds).1, (scanScopesAll {} {} ds).2.finish.absorb s) :=
      fun scope s ds => scanScopes_block (l := { l with scope }) hk hbr
    rw [hscan l.scope] at hcut hA ⊢
    obtain ⟨ds, rfl, hall⟩ := hcut.mk_cases hmixin
    rw [Label.innerScope_of_scope (l := { l with scope := some _ })
      (by simp [hk, Kind.isBlockLike]) (fun _ => Bool.eq_false_iff.2 hbr) rfl] at hall
    -- The variables that are read in the block and in the blocks inside it.
    let A' (x : String) : Prop := (scanScopesAll {} {} cs).2.isAccessed x = true
    obtain ⟨hthin, halike⟩ := CountsThinned.all (A := A') (r := {}) hcs hall hform
      (fun _ hx => hx) (fun x hx => Bool.eq_false_iff.1 (Scope.not_isAccessed_of_unused hx))
      fun _ _ => .rfl
    dsimp only
    rw [hscan]
    refine ⟨?_, hs⟩
    unfold Thinned
    simp only [hk, Kind.treatment]
    refine ⟨_, _, A', rfl, ⟨_, _, rfl, rfl, halike, fun x hx hmod => ?_⟩, fun h => absurd h hbr,
      hthin⟩
    exact hA x (Scope.isAccessed_absorb_finish (fun c hc => (hcs c hc).2.1) hx hmod)

/-- Other nodes are counted with the children they have. -/
theorem Node.scanScopes_firm (hl : l.kind.form.isFirm = true) (s : Scope) (ds : List Node) :
    (mk l ds).scanScopes {} s = (mk l (scanScopesAll {} (s.record l.kind) ds).1,
      (scanScopesAll {} (s.record l.kind) ds).2) := by
  rw [scanScopes_other (Kind.ne_block hl), Scope.opening_eq (Kind.isMixin_of_isFirm hl)]

/-- A rule, with its block. -/
theorem CountsThinned.rule {b : Node} (hl : l.kind.treatment = .rules)
    (hfirm : l.kind.form.isFirm = true) (hk : b.kind = .block) (hrel : b.relation = some .rules)
    (hb : CountsThinned b) : CountsThinned (.mk l [b]) := by
  intro around s s' m A hcut hA hunused hs
  have hother : ∀ (s : Scope) (b : Node), (Node.mk l [b]).scanScopes {} s =
      (.mk l [(b.scanScopes {} (s.record l.kind)).1], (b.scanScopes {} (s.record l.kind)).2) :=
    fun s b => scanScopes_firm hfirm s [b]
  rw [hother] at hcut hA ⊢
  obtain ⟨_, rfl, hall⟩ := hcut.firm_cases hfirm (forall_mem_singleton.2 (by simp [hk, Kind.form]))
  obtain ⟨b', _, hb', ⟨⟩, rfl⟩ := forall₂_cons_left_iff.1 hall
  obtain ⟨hthin, halike⟩ := hb _ _ _ _ _ hb' hA hunused
    (hs.counts (Scope.counts_record _ _) (Scope.counts_record _ _))
  rw [hother]
  refine ⟨?_, halike⟩
  have hreads : ∀ x ∈ l.kind.reads, A x := fun x hx =>
    hA x ((b.counts_scanScopes_empty _).isAccessed_iff.2 (.inl ((Scope.counts_record _ _).isAccessed_iff.2
      (.inr (Nat.pos_iff_ne_zero.1 (count_pos_iff.2 (Kind.mem_accesses_of_reads hx)))))))
  unfold Thinned
  simp only [hl]
  refine ⟨hreads, _, rfl, ?_⟩
  have hk' := (kind_scanScopes {} (s.record l.kind) b).trans hk
  have hrel' := (relation_scanScopes {} (s.record l.kind) b).trans hrel
  revert hthin hk' hrel'
  generalize (b.scanScopes {} (s.record l.kind)).1 = block
  obtain ⟨lb, ds⟩ := block
  intro hthin hk' hrel'
  unfold ThinnedRules
  rw [if_pos (show lb.relation = some .rules from hrel')]
  exact ⟨hk', _, rfl, hthin⟩

/-- A part of a conditional: a branch, or a part without blocks. -/
def IsPartOf (c : Node) : Prop :=
  c.label.isBranch = true ∧ (c.kind = .block ∨ c.kind = .conditional) ∧ CountsThinned c ∨
    c.label.isBranch = false ∧ c.FormsIn (·.isFirm = true)

theorem CountsThinned.parts {around : Scope} {ds : List Node} (hcs : ∀ c ∈ cs, IsPartOf c)
    {s s' : Scope} (hcut : List.Forall₂ (Cut around) (scanScopesAll {} s cs).1 ds)
    (hA : ∀ x, (scanScopesAll {} s cs).2.isAccessed x = true → A x)
    (hunused : ∀ x ∈ around.unused, ¬ A x) (hs : Scope.ChangeAlike A s s') :
    ThinnedParts A (scanScopesAll {} s cs).1 (scanScopesAll {} s' ds).1 ∧
      Scope.ChangeAlike A (scanScopesAll {} s cs).2 (scanScopesAll {} s' ds).2 := by
  induction cs generalizing s s' ds with
  | nil =>
    cases hcut
    exact ⟨by unfold ThinnedParts; rfl, hs⟩
  | cons c cs ih =>
    obtain ⟨hc, hcs⟩ := forall_mem_cons.1 hcs
    rw [scanScopesAll] at hcut hA ⊢
    obtain ⟨m, ms, hm, hms, rfl⟩ := forall₂_cons_left_iff.1 hcut
    have hA₁ : ∀ x, (c.scanScopes {} s).2.isAccessed x = true → A x :=
      fun x hx => hA x (isAccessed_scanScopesAll cs hx)
    dsimp only at hA ⊢
    rw [scanScopesAll]
    have hbranch : (c.scanScopes {} s).1.label.isBranch = c.label.isBranch :=
      (isBranch_of_relation (relation_scanScopes {} s c)).trans
        (isBranch_of_relation rfl).symm
    rcases hc with ⟨hbr, hk, hthinned⟩ | ⟨hbr, hforms⟩
    · obtain ⟨hthin, hs₁⟩ := hthinned _ _ _ _ _ hm hA₁ hunused hs
      obtain ⟨hrest, halike⟩ := ih hcs hms hA hs₁
      refine ⟨.cons (fun _ => ⟨?_, hthin⟩) (fun h => ?_) hrest, halike⟩
      · rwa [kind_scanScopes]
      · rw [hbranch, hbr] at h
        cases h
    · have hblock : ∀ m ∈ c.preorder, m.kind ≠ .block := fun m hm => Kind.ne_block (hforms m hm)
      have hself : ∀ s : Scope, (c.scanScopes {} s).1 = c := scanScopes_self hblock {}
      rw [hself] at hm
      rw [hm.eq_self hforms, hself]
      obtain ⟨hrest, halike⟩ := ih hcs hms hA (c.changeAlike_scanScopes hs)
      refine ⟨.cons (fun h => ?_) (fun _ => ⟨hself s', fun m hm x hx => ?_⟩) hrest, halike⟩
      · rw [hbr] at h
        cases h
      · exact hA₁ x (isAccessed_of_reads hblock hm hx s)

/-- A conditional, with its branches. -/
theorem CountsThinned.conditional (hk : l.kind = .conditional) (hcs : ∀ c ∈ cs, IsPartOf c)
    (hparam : ∀ c ∈ cs, c.kind.form ≠ .param) : CountsThinned (.mk l cs) := by
  intro around s s' m A hcut hA hunused hs
  have hfirm : l.kind.form.isFirm = true := by rw [hk]; rfl
  rw [scanScopes_firm hfirm] at hcut hA ⊢
  obtain ⟨ds, rfl, hall⟩ := hcut.firm_cases hfirm fun c' hc' => by
    obtain ⟨c, hc, s₁, rfl⟩ := exists_of_mem_scanScopesAll hc'
    rw [kind_scanScopes]
    exact hparam c hc
  obtain ⟨hthin, halike⟩ := CountsThinned.parts hcs hall hA hunused
    (hs.counts (Scope.counts_record _ _) (Scope.counts_record _ _))
  dsimp only
  rw [scanScopes_firm hfirm]
  have htreat : l.kind.treatment = .branch := by rw [hk]; rfl
  refine ⟨?_, halike⟩
  unfold Thinned
  simp only [htreat]
  exact ⟨_, rfl, hthin⟩

/-- **Counting again after a round leaves idle statements out**, statement by statement. -/
theorem IsStatement.countsThinned (hn : IsStatement sharing n) (hu : n.Unmixed) :
    CountsThinned n := by
  induction hn with
  | marker h => exact .simple (.marker h : IsStatement sharing _) (h ▸ rfl)
  | property h hrel hv => exact .simple (.property h hrel hv : IsStatement sharing _) (h ▸ rfl)
  | declaration h hcs => exact .simple (.declaration h hcs : IsStatement sharing _) (h ▸ rfl)
  | assign h hrel hv => exact .simple (.assign h hrel hv : IsStatement sharing _) (h ▸ rfl)
  | directive h hargs => exact .simple (.directive h hargs : IsStatement sharing _) (h ▸ rfl)
  | @rule l b h hk hrel _ ih =>
    have hrule : l.kind.form.isRule = true := by rcases h with h | h <;> exact h ▸ rfl
    have hfirm : l.kind.form.isFirm = true := by rcases h with h | h <;> exact h ▸ rfl
    exact .rule (Kind.treatment_of_rule (.inl hrule)) hfirm (Kind.eq_block hk) hrel
      (ih ((formsIn_mk.1 hu).2 b mem_cons_self))
  | @keyframes l lb cs h hk hrel _ hcs ih =>
    have hu' := (formsIn_mk.1 ((formsIn_mk.1 hu).2 _ mem_cons_self)).2
    have hblock : lb.kind = .block := Kind.eq_block hk
    exact .rule (Kind.treatment_of_rule (.inl (h ▸ rfl))) (h ▸ rfl) hblock hrel
      (.block hblock fun c hc => ⟨hcs c hc, hu' c hc, ih c hc (hu' c hc)⟩)
  | mixin h =>
    have hl := (formsIn_mk.1 hu).1
    rcases h with h | ⟨-, h, -⟩ <;>
      · rw [h] at hl
        cases hl
  | call h =>
    have hl := (formsIn_mk.1 hu).1
    rw [h] at hl
    cases hl
  | @conditional l c t es h hc hcr htk htr _ hes _ _ iht ihe =>
    obtain ⟨-, hu⟩ := formsIn_mk.1 hu
    have hfirm : c.FormsIn (·.isFirm = true) :=
      fun m hm => Form.isFirm_of_isOperand (hc.isOperand m hm)
    refine .conditional (Kind.eq_conditional h) (forall_mem_cons.2
      ⟨.inr ⟨isBranch_of_relation hcr, hfirm⟩, forall_mem_cons.2
      ⟨.inl ⟨isBranch_of_relation htr, .inl (Kind.eq_block htk), iht (hu t (by simp))⟩,
      fun e he => .inl ⟨isBranch_of_relation (hes e he).1, ?_, ihe e he (hu e (by simp [he]))⟩⟩⟩)
      (forall_mem_cons.2 ⟨fun hp => ?_, forall_mem_cons.2 ⟨by simp [htk], fun e he => ?_⟩⟩)
    · exact (hes e he).2.imp Kind.eq_block Kind.eq_conditional
    · have htop := hfirm c c.self_mem_preorder
      rw [hp] at htop
      cases htop
    · rcases (hes e he).2 with h | h <;> simp [h]
  | block h _ hcs ih =>
    obtain ⟨-, hu⟩ := formsIn_mk.1 hu
    exact .block (Kind.eq_block h) fun c hc => ⟨hcs c hc, hu c hc, ih c hc (hu c hc)⟩

/-! ## Rounds -/

/-- **What is unused can always be worked out** after counting. -/
theorem Sheet.exists_unused (hs : IsSheet sharing sheet.root) :
    ∃ removal, sheet.scanScopes.unused = .ok removal := by
  refine exists_foldlM_eq_ok (fun entry hentry removal => ?_) _
  obtain ⟨place, n⟩ := entry
  obtain ⟨q, -, hq⟩ := mem_placesFrom.1 hentry
  unfold Removal.block
  dsimp only
  split
  · exact ⟨_, rfl⟩
  · rename_i hblock
    rw [Bool.or_eq_true, not_or] at hblock
    obtain ⟨scope, hscope, -⟩ := Sheet.scope_of_scanScopes hs n (mem_preorder.2 ⟨q, hq⟩)
      (by simpa using hblock.1)
    rw [hscope]
    dsimp only
    split
    · exact ⟨_, rfl⟩
    · exact ⟨_, rfl⟩

/-- Whatever the first stylesheet is evaluated to, the second is evaluated to as well, up to lines
and scopes. -/
def Sheet.EvaluatesAs (sheet sheet' : Sheet) : Prop :=
  ∀ commands evaluated, sheet.execute commands = .ok evaluated →
    ∃ evaluated', sheet'.execute commands = .ok evaluated' ∧ evaluated'.file = evaluated.file ∧
      evaluated.root.bare = evaluated'.root.bare

theorem Sheet.EvaluatesAs.refl (sheet : Sheet) : sheet.EvaluatesAs sheet :=
  fun _ evaluated h => ⟨evaluated, h, rfl, rfl⟩

theorem Sheet.EvaluatesAs.trans {a b c : Sheet} (hab : a.EvaluatesAs b) (hbc : b.EvaluatesAs c) :
    a.EvaluatesAs c := by
  intro commands evaluated h
  obtain ⟨evaluated₁, h₁, hfile₁, heq₁⟩ := hab commands evaluated h
  obtain ⟨evaluated₂, h₂, hfile₂, heq₂⟩ := hbc commands evaluated₁ h₁
  exact ⟨evaluated₂, h₂, hfile₂.trans hfile₁, heq₁.trans heq₂⟩

/-- **One round keeps what a stylesheet without mixins is evaluated to.** -/
theorem Sheet.evaluatesAs_round (hs : IsSheet sharing sheet.root) (hu : sheet.root.Unmixed)
    {root : Node} (hcut : Cut {} sheet.scanScopes.root root) :
    sheet.scanScopes.EvaluatesAs (sheet.scanScopes.withRoot root).scanScopes := by
  obtain ⟨⟨l, cs⟩, file, expansions⟩ := sheet
  have hkind : l.kind = .sheet := Kind.eq_sheet hs.kind
  -- The variables that are read somewhere.
  let A (x : String) : Prop := (scanScopesAll {} {} cs).2.isAccessed x = true
  let counted : Label := { l with scope := some (scanScopesAll {} {} cs).2.finish }
  have hcs : ∀ c ∈ cs, IsStatement sharing c ∧ c.Unmixed ∧ CountsThinned c := fun c hc =>
    have hc' := (hs.item c hc).isStatement
    have huc := (formsIn_mk.1 hu).2 c hc
    ⟨hc', huc, hc'.countsThinned huc⟩
  obtain ⟨ds, rfl, hall⟩ := Cut.mk_cases (l := counted) hcut (by simp [counted, hkind, Kind.isMixin])
  rw [Label.innerScope_of_scope (by simp [counted, hkind, Kind.isBlockLike])
    (fun hb => by simp [counted, hkind] at hb) rfl] at hall
  obtain ⟨hthin, halike⟩ := CountsThinned.all (A := A) (r := {}) hcs hall
    (by simp [counted, hkind, Kind.form]) (fun _ hx => hx)
    (fun x hx => Bool.eq_false_iff.1 (Scope.not_isAccessed_of_unused hx)) fun _ _ => .rfl
  have hwithin : Within (fun _ => True) A counted { counted with
      scope := some (scanScopesAll {} {} ds).2.finish } :=
    ⟨_, _, rfl, rfl, halike, fun _ _ _ => trivial⟩
  intro commands evaluated hevaluated
  obtain ⟨⟨root, b⟩, hrun, hwith⟩ := bind_eq_ok.1 hevaluated
  cases hwith
  obtain ⟨root', b', hrun', -, heq⟩ := hwithin.enter hthin.executeAll _ _ _ _ (fun _ _ => rfl) hrun
  exact ⟨_, bind_eq_ok.2 ⟨(root', b'), hrun', rfl⟩, rfl, heq⟩

/-- **Cleaning up succeeds**, and a stylesheet without mixins is evaluated to the same. -/
theorem Sheet.exists_cleanUp (hs : IsSheet sharing sheet.root) :
    ∃ rest : Sheet, sheet.cleanUp = .ok rest.scanScopes ∧ IsSheet sharing rest.root ∧
      (sheet.root.Unmixed → rest.root.Unmixed ∧ sheet.scanScopes.EvaluatesAs rest.scanScopes) := by
  unfold Sheet.cleanUp
  generalize sheet.root.size = rounds
  induction rounds generalizing sheet with
  | zero => exact ⟨sheet, rfl, hs, fun hu => ⟨hu, .refl _⟩⟩
  | succ rounds ih =>
    obtain ⟨removal, hremoval⟩ := Sheet.exists_unused hs
    have hscan : IsSheet sharing sheet.scanScopes.root := hs.edited sheet.scanScopes_edited
    have hcut := Sheet.cut_prune hs hremoval
    have hprune := hcut.trimmed
    have hpruned : IsSheet sharing (sheet.scanScopes.withRoot
        (sheet.scanScopes.root.prune removal [])).root := hscan.edited (hprune.edited _)
    obtain ⟨rest, hrest, hsrest, hsame⟩ := ih hpruned
    rw [Sheet.cleanUpWithin, hremoval]
    dsimp only [bind, Except.bind]
    split
    · exact ⟨sheet, rfl, hs, fun hu => ⟨hu, .refl _⟩⟩
    · refine ⟨rest, hrest, hsrest, fun hu => ?_⟩
      have hu' := hprune.formsIn (sheet.scanScopes_trimmed.formsIn hu rfl) rfl
      exact ⟨(hsame hu').1, (Sheet.evaluatesAs_round hs hu hcut).trans (hsame hu').2⟩

/-! ## Counting twice -/

theorem Node.scanScopesAll_scanScopesAll
    (h : ∀ c ∈ cs, ∀ o s : Scope, (c.scanScopes o s).1.scanScopes o s = c.scanScopes o s)
    (opening scope : Scope) : scanScopesAll opening scope (scanScopesAll opening scope cs).1 =
      scanScopesAll opening scope cs := by
  induction cs generalizing scope with
  | nil => rfl
  | cons c cs ih =>
    obtain ⟨hc, hcs⟩ := forall_mem_cons.1 h
    simp only [scanScopesAll]
    rw [hc, ih hcs]

/-- Counting a second time changes nothing. -/
theorem Node.scanScopes_scanScopes (hu : n.Unmixed) (opening scope : Scope) :
    (n.scanScopes opening scope).1.scanScopes opening scope = n.scanScopes opening scope := by
  induction n using ind generalizing opening scope with
  | mk l cs ih =>
    obtain ⟨hl, hcs⟩ := formsIn_mk.1 hu
    have hall := scanScopesAll_scanScopesAll fun c hc => ih c hc (hcs c hc)
    by_cases hk : l.kind = .block
    · by_cases hb : l.isBranch = true
      · rw [scanScopes_branch hk hb]
        refine (scanScopes_branch (l := { l with scope := some {} }) hk hb).trans ?_
        rw [hall]
      · rw [scanScopes_block hk hb]
        refine (scanScopes_block (l := { l with scope := some _ }) hk hb).trans ?_
        rw [hall]
    · have hmixin := Kind.isMixin_of_isUnmixed hl
      rw [scanScopes_other hk]
      refine (scanScopes_other hk).trans ?_
      rw [Scope.opening_eq hmixin, Scope.opening_eq hmixin, hall]

theorem Sheet.scanScopes_scanScopes (hu : sheet.root.Unmixed) :
    sheet.scanScopes.scanScopes = sheet.scanScopes := by
  obtain ⟨⟨l, cs⟩, file, expansions⟩ := sheet
  have hall := scanScopesAll_scanScopesAll
    (fun c hc => scanScopes_scanScopes ((formsIn_mk.1 hu).2 c hc)) {} {}
  simp only [Sheet.scanScopes, Sheet.withRoot, children_mk, label_mk, hall]

end Cascade
