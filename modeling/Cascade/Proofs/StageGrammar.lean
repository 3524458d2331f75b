import Cascade.Field
import Cascade.Proofs.Relabeling
import Cascade.Proofs.Scopes

/-!
# Stages before expansion and the grammar

Putting in fields changes single nodes, counting names attaches scopes to them, and cleaning up takes
statements and parameters out.  All of this keeps the grammar, and it gives no use of a mixin another
name.
-/

set_option autoImplicit false

namespace Cascade

open Node List

variable {fields : Fields} {file : Option String} {n m root : Node} {cs cs' : List Node}
  {inCondition : Bool} {removal : Removal} {path : Path} {P : String → Prop} {e : Path × Node}
  {sheet sheet' : Sheet} {unused : NameSet} {l : Label} {sharing : Prop} {Fresh : Node → Prop}
  {i : Nat}

/-! ## Names of uses -/

/-- Every mixin that is used in the tree has a name with `P`. -/
def CallsNamed (P : String → Prop) (n : Node) : Prop :=
  ∀ m ∈ n.preorder, ∀ name extend, m.kind = .call name extend → P name

section CallsNamed

variable {P : String → Prop}

theorem CallsNamed.child (h : CallsNamed P (.mk l cs)) : ∀ c ∈ cs, CallsNamed P c :=
  fun _ hc m hm => h m (mem_preorder_of_mem hc hm)

/-- A node with another label and other children uses no new names if the label does not and the
children do not. -/
theorem CallsNamed.mk_of {l' : Label} (h : CallsNamed P (.mk l cs))
    (hl : l'.kind.form = .call → l'.kind = l.kind) (hcs : ∀ c' ∈ cs', CallsNamed P c') :
    CallsNamed P (.mk l' cs') := by
  intro m hm name extend hk
  obtain rfl | ⟨c', hc', hm⟩ := mem_preorder_mk.1 hm
  · rw [kind_mk] at hk
    have hkind := hl (by rw [hk, Kind.form])
    exact h (.mk l cs) (self_mem_preorder _) name extend (hkind.symm.trans hk)
  · exact hcs c' hc' m hm name extend hk

end CallsNamed

/-! ## Fields -/

namespace Fields

variable {fields : Fields} {file : Option String} {inCondition : Bool}

theorem patch_form (fields : Fields) (inCondition : Bool) (kind : Kind) :
    (fields.patch inCondition kind).form = kind.form := by
  unfold patch
  split
  · split
    · rename_i value _
      cases value <;> rfl
    · rfl
  · rfl

/-- What the substitution of fields can do to a node. -/
theorem substitute_cases (h : fields.substitute file inCondition (.mk l cs) = .ok m) :
    (l.kind = .command "field" ∧
      ∃ value : FieldValue, m = .mk { l with kind := value.kind } []) ∨
    (l.kind = .conditional ∧
      ∃ cs', fields.substituteParts file inCondition cs = .ok cs' ∧ m = .mk l cs') ∨
    (l.kind ≠ .command "field" ∧ l.kind ≠ .conditional ∧
      ∃ cs', fields.substituteAll file inCondition cs = .ok cs' ∧
        m = .mk { l with kind := fields.patch inCondition l.kind } cs') := by
  rw [substitute] at h
  split at h
  · rename_i hk
    refine .inl ⟨hk, ?_⟩
    dsimp only at h
    split at h
    · cases h
    · split at h
      · cases h
      · rename_i value _
        obtain ⟨_, _, h⟩ := bind_eq_ok.1 h
        exact ⟨value, (pure_eq_ok.1 h).symm⟩
  · rename_i hk
    obtain ⟨cs', hcs, h⟩ := bind_eq_ok.1 h
    exact .inr (.inl ⟨hk, cs', hcs, (pure_eq_ok.1 h).symm⟩)
  · rename_i hfield hcond
    obtain ⟨cs', hcs, h⟩ := bind_eq_ok.1 h
    exact .inr (.inr ⟨hfield, hcond, cs', hcs, (pure_eq_ok.1 h).symm⟩)

theorem substituteAll_forall₂ (h : fields.substituteAll file inCondition cs = .ok cs') :
    List.Forall₂ (fun c c' => fields.substitute file inCondition c = .ok c') cs cs' := by
  induction cs generalizing cs' with
  | nil =>
    cases h
    exact .nil
  | cons c cs ih =>
    rw [substituteAll] at h
    obtain ⟨d, hd, h⟩ := bind_eq_ok.1 h
    obtain ⟨ds, hds, h⟩ := bind_eq_ok.1 h
    cases h
    exact .cons hd (ih hds)

/-- The parts of a conditional are substituted one by one. -/
theorem substituteParts_forall₂ (h : fields.substituteParts file inCondition cs = .ok cs') :
    List.Forall₂ (fun c c' => ∃ b, fields.substitute file b c = .ok c') cs cs' := by
  induction cs generalizing cs' with
  | nil =>
    cases h
    exact .nil
  | cons c cs ih =>
    obtain ⟨l, ds⟩ := c
    rw [substituteParts] at h
    split at h
    · obtain ⟨d, hd, h⟩ := bind_eq_ok.1 h
      obtain ⟨rest, hrest, h⟩ := bind_eq_ok.1 h
      cases h
      exact .cons ⟨_, hd⟩ ((substituteAll_forall₂ hrest).imp fun _ _ hc => ⟨_, hc⟩)
    · obtain ⟨d, hd, h⟩ := bind_eq_ok.1 h
      obtain ⟨rest, hrest, h⟩ := bind_eq_ok.1 h
      cases h
      exact .cons ⟨_, hd⟩ (ih hrest)

/-- **Putting in fields edits a tree**: commands become literals, and other nodes keep their forms. -/
theorem substitute_edited (h : fields.substitute file inCondition n = .ok m) :
    Edited Fresh n m := by
  induction n using ind generalizing inCondition m with
  | mk l cs ih =>
    obtain ⟨hk, value, rfl⟩ | ⟨-, cs', hcs, rfl⟩ | ⟨-, -, cs', hcs, rfl⟩ := substitute_cases h
    · exact ⟨rfl, .inr ⟨hk ▸ rfl, by cases value <;> rfl, rfl⟩⟩
    · refine ⟨rfl, .inl ⟨rfl, .of_forall₂ ?_⟩⟩
      exact forall₂_imp_of_mem (substituteParts_forall₂ hcs) fun c hc _ ⟨_, h⟩ => ih c hc h
    · refine ⟨rfl, .inl ⟨patch_form .., .of_forall₂ ?_⟩⟩
      exact forall₂_imp_of_mem (substituteAll_forall₂ hcs) fun c hc _ h => ih c hc h

end Fields

/-- **Fields put into a stylesheet give a stylesheet.** -/
theorem IsSheet.substituteFields (hs : IsSheet sharing sheet.root)
    (h : sheet.substituteFields fields = .ok sheet') : IsSheet sharing sheet'.root := by
  obtain ⟨root, hroot, rfl⟩ := map_eq_ok.1 h
  exact hs.edited (Fields.substitute_edited hroot)

theorem Fields.patch_call {kind : Kind} (h : (fields.patch inCondition kind).form = .call) :
    fields.patch inCondition kind = kind := by
  unfold patch at h ⊢
  split
  · rename_i name
    split
    · rename_i value hvalue
      simp only [hvalue] at h
      cases value <;> cases h
    · rfl
  · rfl

/-- Fields give no use another name. -/
theorem CallsNamed.substitute (h : CallsNamed P n)
    (hm : fields.substitute file inCondition n = .ok m) : CallsNamed P m := by
  induction n using ind generalizing inCondition m with
  | mk l cs ih =>
    obtain ⟨-, value, rfl⟩ | ⟨-, cs', hcs, rfl⟩ | ⟨-, -, cs', hcs, rfl⟩ :=
      Fields.substitute_cases hm
    · exact h.mk_of (fun hk => by cases value <;> cases hk) (by simp)
    · refine h.mk_of (fun _ => rfl) ?_
      exact forall_mem_of_forall₂ (Fields.substituteParts_forall₂ hcs) h.child
        fun c hc c' ⟨_, hc'⟩ hn => ih c hc hn hc'
    · refine h.mk_of Fields.patch_call ?_
      exact forall_mem_of_forall₂ (Fields.substituteAll_forall₂ hcs) h.child
        fun c hc c' hc' hn => ih c hc hn hc'

theorem CallsNamed.substituteFields (hn : CallsNamed P sheet.root)
    (h : sheet.substituteFields fields = .ok sheet') : CallsNamed P sheet'.root := by
  obtain ⟨root, hroot, rfl⟩ := map_eq_ok.1 h
  exact hn.substitute hroot

/-! ## Counting names -/

namespace Node

theorem bare_scanScopesAll (h : ∀ c ∈ cs, ∀ o s : Scope, (c.scanScopes o s).1.bare = c.bare)
    (opening scope : Scope) : (scanScopesAll opening scope cs).1.map bare = cs.map bare := by
  induction cs generalizing scope with
  | nil => rfl
  | cons c cs ih =>
    obtain ⟨hc, hcs⟩ := forall_mem_cons.1 h
    rw [scanScopesAll, map_cons, map_cons, hc, ih hcs]

/-- Counting changes nothing but scopes. -/
theorem bare_scanScopes (n : Node) (opening scope : Scope) :
    (n.scanScopes opening scope).1.bare = n.bare := by
  induction n using ind generalizing opening scope with
  | mk l cs ih =>
    have hall := bare_scanScopesAll ih
    by_cases hk : l.kind = .block
    · by_cases hb : l.isBranch = true
      · rw [scanScopes_branch hk hb, bare_mk, bare_mk, hall]
        rfl
      · rw [scanScopes_block hk hb, bare_mk, bare_mk, hall]
        rfl
    · rw [scanScopes_other hk, bare_mk, bare_mk, hall]

end Node

theorem Sheet.bare_scanScopes (sheet : Sheet) : sheet.scanScopes.root.bare = sheet.root.bare := by
  obtain ⟨⟨l, cs⟩, file, expansions⟩ := sheet
  have hall := bare_scanScopesAll (fun c (_ : c ∈ cs) => c.bare_scanScopes) {} {}
  rw [bare_mk]
  exact (bare_mk _ _).trans (congrArg (Node.mk l.bare) hall)

/-- A tree with other lines, comments and scopes is edited. -/
theorem Edited.of_bare_eq (h : m.bare = n.bare) : Edited Fresh n m := by
  induction n using ind generalizing m with
  | mk l cs ih =>
    obtain ⟨l', cs'⟩ := m
    rw [bare_mk, bare_mk, mk.injEq] at h
    have hcs : List.Forall₂ (fun c c' => bare c = bare c') cs cs' := by
      rw [← forall₂_map_right_iff, ← forall₂_map_left_iff, forall₂_eq_eq_eq]
      exact h.2.symm
    refine ⟨(congrArg Label.relation h.1 :), .inl ⟨(congrArg (·.kind.form) h.1 :), .of_forall₂ ?_⟩⟩
    exact forall₂_imp_of_mem hcs fun c hc _ he => ih c hc he.symm

theorem exists_kind_of_bare_eq {k : Node} (h : m.bare = n.bare) (hk : k ∈ m.preorder) :
    ∃ k' ∈ n.preorder, k'.kind = k.kind := by
  have hmap := congrArg preorder h
  rw [bare, bare, preorder_relabeled, preorder_relabeled] at hmap
  obtain ⟨k', hk', heq⟩ := mem_map.1 (hmap ▸ mem_map_of_mem hk)
  have hkind := congrArg Node.kind heq
  rw [kind_relabeled keepsPlace_bare, kind_relabeled keepsPlace_bare] at hkind
  exact ⟨k', hk', hkind⟩

theorem Sheet.scanScopes_edited (sheet : Sheet) : Edited Fresh sheet.root sheet.scanScopes.root :=
  .of_bare_eq sheet.bare_scanScopes

/-! ## Trees of certain forms -/

/-- All nodes of a tree are of forms with `P`. -/
def Node.FormsIn (P : Form → Prop) (n : Node) : Prop :=
  ∀ m ∈ n.preorder, P m.kind.form

theorem Node.formsIn_mk {P : Form → Prop} :
    (mk l cs).FormsIn P ↔ P l.kind.form ∧ ∀ c ∈ cs, c.FormsIn P :=
  forall_mem_preorder

/-- Editing without new statements brings no other forms than that of literals. -/
theorem Edited.formsIn {P : Form → Prop} (he : Edited (fun _ => False) n m) (h : n.FormsIn P)
    (hatom : P .atom) : m.FormsIn P := by
  induction n using ind generalizing m with
  | mk l cs ih =>
    obtain ⟨l', cs'⟩ := m
    obtain ⟨hl, hcs⟩ := formsIn_mk.1 h
    obtain ⟨-, ⟨hform, hall⟩ | ⟨-, hform, rfl⟩⟩ := he
    · refine formsIn_mk.2 ⟨hform ▸ hl, fun c' hc' => ?_⟩
      obtain ⟨c, hc, he⟩ | ⟨-, -, hfresh⟩ := hall.exists_mem hc'
      · exact ih c hc he (hcs c hc)
      · exact hfresh.elim
    · exact formsIn_mk.2 ⟨hform ▸ hatom, by simp⟩

/-- No node of a statement is a stylesheet. -/
theorem IsStatement.form_ne_sheet (hn : IsStatement sharing n) : n.FormsIn (· ≠ .sheet) := by
  refine hn.forall_mem (fun m hpart hk => ?_) (fun m hs => ?_) fun l cs hk => by simp [hk]
  · rw [hk] at hpart
    cases hpart
  · cases hs with
    | rule h => rcases h with h | h <;> simp [h]
    | mixin h => rcases h with h | ⟨-, h, -⟩ <;> simp [h]
    | _ h => simp [h]

/-! ## Records after counting -/

/-- After counting every block has a record, and the record of a branch is empty. -/
theorem Node.scope_of_scanScopes (n : Node) (opening scope : Scope) :
    ∀ m ∈ (n.scanScopes opening scope).1.preorder, m.kind = .block →
      ∃ scope', m.scope = some scope' ∧ (m.label.isBranch = true → scope' = {}) := by
  induction n using ind generalizing opening scope with
  | mk l cs ih =>
    have hall : ∀ o s : Scope, ∀ c' ∈ (scanScopesAll o s cs).1, ∀ m ∈ c'.preorder, m.kind = .block →
        ∃ scope', m.scope = some scope' ∧ (m.label.isBranch = true → scope' = {}) := by
      intro o s c' hc'
      obtain ⟨c, hc, s', rfl⟩ := exists_of_mem_scanScopesAll hc'
      exact ih c hc o s'
    by_cases hblock : l.kind = .block
    · by_cases hb : l.isBranch = true
      · rw [scanScopes_branch hblock hb]
        exact forall_mem_preorder.2 ⟨fun _ => ⟨{}, rfl, fun _ => rfl⟩, hall _ _⟩
      · rw [scanScopes_block hblock hb]
        exact forall_mem_preorder.2 ⟨fun _ => ⟨_, rfl, fun h => absurd h hb⟩, hall _ _⟩
    · rw [scanScopes_other hblock]
      exact forall_mem_preorder.2 ⟨fun hk => absurd hk hblock, hall _ _⟩

theorem Sheet.scope_of_scanScopes (hs : IsSheet sharing sheet.root) :
    ∀ m ∈ sheet.scanScopes.root.preorder, m.kind.isBlockLike = true →
      ∃ scope, m.scope = some scope ∧ (m.kind = .block → m.label.isBranch = true → scope = {}) := by
  refine forall_mem_preorder.2 ⟨fun _ => ⟨_, rfl, fun hblock => ?_⟩, fun c' hc' m hm hk => ?_⟩
  · have hsheet := hs.kind
    rw [show sheet.root.kind = .block from hblock] at hsheet
    cases hsheet
  · obtain ⟨c, hc, s, rfl⟩ := exists_of_mem_scanScopesAll hc'
    have hne : m.kind.form ≠ .sheet := by
      obtain ⟨k, hk, heq⟩ := exists_kind_of_bare_eq (c.bare_scanScopes {} s) hm
      exact heq ▸ (hs.item c hc).isStatement.form_ne_sheet k hk
    have hblock : m.kind = .block := by
      revert hk hne
      cases m.kind <;> simp [Kind.isBlockLike, Kind.form]
    obtain ⟨scope, hscope, hbranch⟩ := c.scope_of_scanScopes {} s m hm hblock
    exact ⟨scope, hscope, fun _ => hbranch⟩

/-! ## Taking out what nobody uses -/

/-- A statement that goes if nothing depends on it: a mixin, or one that sets a variable in `unused`
without a computation. -/
def Node.MayGo (unused : NameSet) (n : Node) : Prop :=
  match n.kind with
  | .mixin _ none _ => True
  | .declaration name | .assign name _ => name ∈ unused ∧ n.hasPlainValue = true
  | _ => False

theorem Node.MayGo.form_ne_frame (h : n.MayGo unused) : n.kind.form ≠ .frame := by
  unfold MayGo at h
  split at h
  · rename_i hk
    rw [hk]
    simp [Kind.form]
  · rename_i hk
    rw [hk]
    simp [Kind.form]
  · rename_i hk
    rw [hk]
    simp [Kind.form]
  · exact h.elim

/-- Where nothing is unused only mixins go. -/
theorem Node.MayGo.of_nil (h : n.MayGo []) : n.MayGo unused := by
  unfold MayGo at h ⊢
  split at h
  · trivial
  · cases h.1
  · cases h.1
  · exact h.elim

/-- The record that statements right inside a node count in, if `around` is the record around it.
The branches of a conditional have none of their own. -/
def Label.innerScope (around : Scope) (l : Label) : Scope :=
  if l.kind.isBlockLike && !(l.kind.isBlock && l.isBranch) then l.scope.getD {} else around

/-- A child that may be left out where statements count in `scope`: a statement of a block, or a
parameter. -/
def Node.Loses (form : Form) (scope : Scope) (c : Node) : Prop :=
  form.isBlockLike = true ∧ c.MayGo scope.unused ∨ form = .params ∧ c.kind.form = .param

/-- What stands at a path may be left out, if `around` is the record around the tree. -/
def Node.Droppable (around : Scope) : Path → Node → Prop
  | [], _ => False
  | i :: path, n => ∃ c, n.children[i]? = some c ∧
    (path = [] ∧ Loses n.kind.form (n.label.innerScope around) c ∨
      Droppable (n.label.innerScope around) path c)

mutual

/-- **The second tree is the first without some of what may be left out.** -/
def Cut (around : Scope) : Node → Node → Prop
  | .mk l cs, m => ∃ count cs', m = .mk { l with kind := losing count l.kind } cs' ∧
    CutAll l.kind.form (l.innerScope around) cs cs'

/-- The second children are the first without some that may be left out, and with others cut. -/
def CutAll (form : Form) (around : Scope) : List Node → List Node → Prop
  | [], ms => ms = []
  | c :: cs, ms => c.Loses form around ∧ CutAll form around cs ms ∨
    ∃ m ms', ms = m :: ms' ∧ Cut around c m ∧ CutAll form around cs ms'

end

namespace Node

variable {around : Scope}

theorem losing_form (count : Nat) (kind : Kind) : (losing count kind).form = kind.form := by
  unfold losing
  split
  · rename_i s _
    cases s <;> rfl
  · rfl

theorem losing_call {count : Nat} {kind : Kind} (h : (losing count kind).form = .call) :
    losing count kind = kind := by
  rw [losing_form] at h
  obtain ⟨name, extend, rfl⟩ := Kind.of_form h
  rfl

/-- Taking out what may be left out cuts the tree. -/
theorem prune_cut (h : ∀ q, path ++ q ∈ removal.gone → n.Droppable around q) :
    Cut around n (n.prune removal path) := by
  induction n using ind generalizing path around with
  | mk l cs ih =>
    have below : ∀ (ds : List Node) (i : Nat), (∀ k, cs[i + k]? = ds[k]?) →
        CutAll l.kind.form (l.innerScope around) ds (pruneAll removal path i ds) := by
      intro ds
      induction ds with
      | nil => exact fun _ _ => rfl
      | cons d ds ihds =>
        intro i hds
        have hd : cs[i]? = some d := by simpa using hds 0
        have hrest := ihds (i + 1) fun k => by
          simpa [Nat.add_assoc, Nat.add_comm 1] using hds (k + 1)
        have hdrop (q : Path) (hq : path ++ i :: q ∈ removal.gone) :
            q = [] ∧ d.Loses l.kind.form (l.innerScope around) ∨
              d.Droppable (l.innerScope around) q := by
          obtain ⟨c, hc, h⟩ := h (i :: q) hq
          obtain rfl : d = c := Option.some.inj (hd.symm.trans hc)
          exact h
        rw [pruneAll]
        split
        · rename_i hgone
          obtain ⟨-, hloses⟩ | hnone := hdrop [] (by simpa using hgone)
          · exact .inl ⟨hloses, hrest⟩
          · exact hnone.elim
        · rename_i hstays
          refine .inr ⟨_, _, rfl, ih d (mem_of_getElem? hd) fun q hq => ?_, hrest⟩
          obtain ⟨rfl, -⟩ | h := hdrop q (by simpa using hq)
          · exact absurd (by simpa using hq) hstays
          · exact h
    rw [prune]
    split
    · exact ⟨_, _, rfl, below cs 0 fun k => by simp⟩
    · refine ⟨0, _, ?_, below cs 0 fun k => by simp⟩
      have hzero : losing 0 l.kind = l.kind := by cases l.kind <;> rfl
      rw [hzero]

end Node

section Cut

variable {around : Scope}

theorem CutAll.exists_mem {form : Form} (h : CutAll form around cs cs') {c' : Node}
    (hc' : c' ∈ cs') : ∃ c ∈ cs, Cut around c c' := by
  induction cs generalizing cs' with
  | nil =>
    cases h
    cases hc'
  | cons c cs ih =>
    obtain ⟨-, h⟩ | ⟨m, ms, rfl, hm, h⟩ := h
    · exact (ih h hc').imp fun b hb => ⟨mem_cons_of_mem _ hb.1, hb.2⟩
    · rcases mem_cons.1 hc' with rfl | hc'
      · exact ⟨c, mem_cons_self, hm⟩
      · exact (ih h hc').imp fun b hb => ⟨mem_cons_of_mem _ hb.1, hb.2⟩

theorem Cut.edited (h : Cut around n m) : Edited Fresh n m := by
  induction n using ind generalizing around m with
  | mk l cs ih =>
    obtain ⟨count, cs', rfl, hcs⟩ := h
    refine ⟨rfl, .inl ⟨losing_form .., ?_⟩⟩
    generalize l.innerScope around = inner at hcs
    induction cs generalizing cs' with
    | nil => exact hcs
    | cons c cs ihcs =>
      obtain ⟨hc, ih⟩ := forall_mem_cons.1 ih
      obtain ⟨hloses, h⟩ | ⟨m, ms, rfl, hm, h⟩ := hcs
      · refine .inr ⟨[], _, rfl, hloses.imp (fun hb => ?_) fun hp => ⟨hp.1, rfl⟩, ihcs ih _ h⟩
        exact ⟨hb.1, hb.2.form_ne_frame, by simp⟩
      · exact .inl ⟨m, ms, rfl, hc hm, ihcs ih _ h⟩

/-- Taking something out gives no use another name. -/
theorem Cut.callsNamed (h : Cut around n m) (hn : CallsNamed P n) : CallsNamed P m := by
  induction n using ind generalizing around m with
  | mk l cs ih =>
    obtain ⟨count, cs', rfl, hcs⟩ := h
    refine hn.mk_of losing_call fun c' hc' => ?_
    obtain ⟨c, hc, h⟩ := hcs.exists_mem hc'
    exact ih c hc h (hn.child c hc)

end Cut

/-! ### Which statements share a scope -/

theorem Label.innerScope_of_not_blockLike (h : l.kind.form.isBlockLike = false) (around : Scope) :
    l.innerScope around = around := by
  have hk : l.kind.isBlockLike = false := by
    revert h
    cases l.kind <;> simp [Kind.form, Form.isBlockLike, Kind.isBlockLike]
  rw [innerScope, hk]
  rfl

theorem Label.innerScope_of_branch (hk : l.kind = .block) (hb : l.isBranch = true)
    (around : Scope) : l.innerScope around = around := by
  rw [innerScope, hk, hb]
  rfl

theorem Label.innerScope_of_scope {scope : Scope} (hk : l.kind.isBlockLike = true)
    (hb : l.kind = .block → l.isBranch = false) (hs : l.scope = some scope)
    (around : Scope) : l.innerScope around = scope := by
  rw [innerScope, hk, hs]
  cases hblock : l.kind with
  | block => rw [hb hblock]; rfl
  | _ => rfl

namespace Node

/-- An entry of a list of statements that count in the same record as those right inside the
tree. -/
def CountsIn (n : Node) (path : Path) (e : Path × Node) : Prop :=
  ∃ q, e.1 = path ++ q ∧
    ∀ around, e.2.MayGo (n.label.innerScope around).unused → n.Droppable around q

theorem CountsIn.child {c : Node} (hc : cs[i]? = some c) (h : CountsIn c (path ++ [i]) e)
    (hinner : ∀ around, c.label.innerScope around = around) : CountsIn (mk l cs) path e := by
  obtain ⟨q, he, h⟩ := h
  exact ⟨i :: q, by simp [he], fun around hgo => ⟨c, hc, .inr (h _ (by rwa [hinner]))⟩⟩

theorem countsIn_of_mem_childPlaces (hb : n.kind.form.isBlockLike = true)
    (he : e ∈ n.childPlaces path) : CountsIn n path e := by
  obtain ⟨⟨c, i⟩, hc, rfl⟩ := mem_map.1 he
  exact ⟨[i], rfl, fun around hgo => ⟨c, by simpa using mem_zipIdx_iff_getElem?.1 hc,
    .inl ⟨rfl, .inl ⟨hb, hgo⟩⟩⟩⟩

/-- The statements in branches are those of the branches of each conditional. -/
theorem exists_of_mem_branchesWithin {ds : List Node} (he : e ∈ branchesWithin path i ds) :
    ∃ k c, ds[k]? = some c ∧ c.kind.form = .conditional ∧
      e ∈ partsWithin (path ++ [i + k]) 0 c.children := by
  induction ds generalizing i with
  | nil => simp [branchesWithin] at he
  | cons d ds ih =>
    obtain ⟨ld, es⟩ := d
    rw [branchesWithin, mem_append] at he
    rcases he with he | he
    · obtain ⟨k, c, hk, hc, he⟩ := ih he
      exact ⟨k + 1, c, by simpa using hk, hc, by simpa [Nat.add_assoc, Nat.add_comm 1] using he⟩
    · split at he
      · rename_i hcond
        exact ⟨0, mk ld es, rfl, by simp [hcond, Kind.form], by simpa using he⟩
      · cases he

/-- The statements in the parts of a conditional are those of its branches. -/
theorem exists_of_mem_partsWithin {ds : List Node} (he : e ∈ partsWithin path i ds) :
    ∃ k c, ds[k]? = some c ∧ c.label.isBranch = true ∧
      (c.kind.form = .conditional ∧ e ∈ partsWithin (path ++ [i + k]) 0 c.children ∨
        c.kind.form ≠ .conditional ∧ e ∈ c.statementsWithin (path ++ [i + k])) := by
  induction ds generalizing i with
  | nil => simp [partsWithin] at he
  | cons d ds ih =>
    obtain ⟨ld, es⟩ := d
    rw [partsWithin, mem_append] at he
    rcases he with he | he
    · obtain ⟨k, c, hk, hc, he⟩ := ih he
      exact ⟨k + 1, c, by simpa using hk, hc, by simpa [Nat.add_assoc, Nat.add_comm 1] using he⟩
    · split at he
      · rename_i hbranch
        refine ⟨0, mk ld es, rfl, hbranch, ?_⟩
        split at he
        · rename_i hcond
          exact .inl ⟨by simp [hcond, Kind.form], by simpa using he⟩
        · rename_i hcond
          exact .inr ⟨fun h => hcond (Kind.eq_conditional h), by simpa using he⟩
      · cases he

/-- The branches of a conditional are blocks or conditionals. -/
theorem branch_form {c : Node} (hn : IsStatement sharing n) (hk : n.kind.form = .conditional)
    (hc : c ∈ n.children) (hb : c.label.isBranch = true) :
    IsStatement sharing c ∧ (c.kind.form = .block ∨ c.kind.form = .conditional) := by
  cases hn with
  | conditional h _ hcr htk htr _ hes ht he =>
    rw [children_mk, mem_cons, mem_cons] at hc
    rcases hc with rfl | rfl | hc
    · have : c.label.relation = some .condition := hcr
      simp [Label.isBranch, this] at hb
    · exact ⟨ht, .inl htk⟩
    · exact ⟨he c hc, (hes c hc).2⟩
  | rule h | mixin h => rcases h with h | h <;> simp_all
  | _ => simp_all

/-- The statements that are said to share the scope of a block count in its record. -/
theorem countsIn_of_mem_statementsWithin (hb : n.kind.form.isBlockLike = true)
    (hn : ∀ c ∈ n.children, IsStatement sharing c) (he : e ∈ n.statementsWithin path) :
    CountsIn n path e := by
  have key : ∀ n : Node,
      (n.kind.form.isBlockLike = true → (∀ c ∈ n.children, IsStatement sharing c) →
        ∀ path e, e ∈ n.statementsWithin path → CountsIn n path e) ∧
      (n.kind.form = .conditional → IsStatement sharing n →
        ∀ path e, e ∈ partsWithin path 0 n.children → CountsIn n path e) := by
    intro n
    induction n using ind with
    | mk l cs ih =>
      refine ⟨fun hb hcs path e he => ?_, fun hk hn path e he => ?_⟩
      · rw [statementsWithin, mem_append] at he
        rcases he with he | he
        · exact countsIn_of_mem_childPlaces hb he
        · obtain ⟨k, c, hkc, hcond, he⟩ := exists_of_mem_branchesWithin he
          have hc := mem_of_getElem? hkc
          rw [Nat.zero_add] at he
          exact ((ih c hc).2 hcond (hcs c hc) _ _ he).child hkc
            (Label.innerScope_of_not_blockLike (hcond ▸ rfl))
      · obtain ⟨k, c, hkc, hbranch, he⟩ := exists_of_mem_partsWithin he
        have hc := mem_of_getElem? hkc
        obtain ⟨hs, hform⟩ := branch_form hn hk hc hbranch
        rw [Nat.zero_add] at he
        rcases he with ⟨hcond, he⟩ | ⟨hcond, he⟩
        · exact ((ih c hc).2 hcond hs _ _ he).child hkc
            (Label.innerScope_of_not_blockLike (hcond ▸ rfl))
        · have hblock := hform.resolve_right hcond
          have hin : ∀ d ∈ c.children, IsStatement sharing d :=
            (hs.orderly c c.self_mem_preorder).1 (hblock ▸ rfl)
          exact ((ih c hc).1 (hblock ▸ rfl) hin _ _ he).child hkc
            (Label.innerScope_of_branch (Kind.eq_block hblock) hbranch)
  exact (key n).1 hb hn path e he

/-- What may be left out below a node may be left out of the tree. -/
theorem Droppable.append {place : Path} (hn : root.get? place = some n)
    (h : ∀ around, n.Droppable around path) (around : Scope) :
    root.Droppable around (place ++ path) := by
  induction place generalizing root around with
  | nil =>
    cases hn
    exact h around
  | cons i place ih =>
    rw [get?] at hn
    split at hn
    · rename_i c hc
      exact ⟨c, hc, .inr (ih hn _)⟩
    · cases hn

end Node

/-! ### What one round takes out -/

/-- A statement goes or stays. -/
theorem Removal.statement_cases (root : Node) (calls : List (Path × String)) (unused : NameSet)
    (removal : Removal) (place : Path) (n : Node) :
    removal.statement root calls unused (place, n) = removal ∨
      n.MayGo unused ∧ removal.statement root calls unused (place, n) =
        { removal with gone := place :: removal.gone } := by
  simp only [Removal.statement]
  split
  · rename_i hk
    split
    · exact .inr ⟨by rw [Node.MayGo, hk]; trivial, rfl⟩
    · exact .inl rfl
  · rename_i hk
    split
    · rename_i hgo
      exact .inr ⟨by rw [Node.MayGo, hk]; simpa using hgo, rfl⟩
    · exact .inl rfl
  · rename_i hk
    split
    · rename_i hgo
      exact .inr ⟨by rw [Node.MayGo, hk]; simpa using hgo, rfl⟩
    · exact .inl rfl
  · exact .inl rfl

/-- The parameters of a mixin are the children of a node of their own. -/
theorem IsStatement.mixin_params {c : Node} (hn : IsStatement sharing n)
    (hk : n.kind.isMixin = true) (hi : n.children[i]? = some c) (hr : c.relation = some .params) :
    c.kind.form = .params ∧ n.arguments = c.children ∧ ∀ p ∈ c.children, p.kind.form = .param := by
  obtain ⟨l, lp, ps, b, rfl, -, hkp, hrp, hps, -, hbr, -⟩ := hn.mixin_cases hk
  rcases i with _ | _ | i
  · obtain rfl := Option.some.inj hi
    exact ⟨hkp, by simp [arguments, child?, hrp], fun p hp => (hps p hp).rec fun h _ => h⟩
  · obtain rfl := Option.some.inj hi
    rw [hbr] at hr
    cases hr
  · simp at hi

theorem trailingUnused_le (unused : NameSet) (params : List Node) :
    trailingUnused unused params ≤ params.length := by
  rw [trailingUnused, ← params.length_reverse]
  exact (takeWhile_sublist _).length_le

/-- What goes from the parameters of a mixin is parameters. -/
theorem Removal.droppable_params (hroot : IsSheet sharing root) {place x : Path}
    (hx : x ∈ (removal.params root unused place).gone) :
    x ∈ removal.gone ∨ root.Droppable {} x := by
  unfold Removal.params at hx
  dsimp only at hx
  split at hx
  · rename_i j rest mixin hmixin
    split at hx
    · rename_i i hk hi
      split at hx
      · exact .inl hx
      · rcases mem_append.1 hx with hx | hx
        · obtain ⟨k, hkc, rfl⟩ := mem_map.1 hx
          refine .inr (.append hmixin (fun around => ?_) {})
          obtain ⟨hlt, hr, -⟩ := findIdx?_eq_some_iff_getElem.1 hi
          have hc := getElem?_eq_getElem hlt
          have hitem := hroot.item_of_get? hmixin (Kind.isLoose_of_isMixin hk)
          obtain ⟨hform, hargs, hps⟩ := hitem.isStatement.mixin_params hk hc (by simpa using hr)
          have hcount : k < mixin.arguments.length :=
            Nat.lt_of_lt_of_le (mem_range.1 hkc) (trailingUnused_le _ _)
          rw [hargs] at hcount ⊢
          have hparam := getElem?_eq_getElem (Nat.sub_one_sub_lt hcount)
          exact ⟨_, hc, .inr ⟨_, hparam, .inl ⟨rfl, .inr ⟨hform, hps _ (mem_of_getElem? hparam)⟩⟩⟩⟩
        · exact .inl hx
    · exact .inl hx
  · exact .inl hx

/-- What goes from the statements of a block satisfies `Q`, if each of them does that may go. -/
theorem Removal.forall_gone_statements {calls : List (Path × String)} {Q : Path → Prop}
    {es : List (Path × Node)} (hes : ∀ e ∈ es, e.2.MayGo unused → Q e.1)
    (hr : ∀ x ∈ removal.gone, Q x) :
    ∀ x ∈ (es.foldl (Removal.statement root calls unused) removal).gone, Q x := by
  induction es generalizing removal with
  | nil => exact hr
  | cons e es ih =>
    obtain ⟨he, hes⟩ := forall_mem_cons.1 hes
    refine ih hes ?_
    obtain h | ⟨hgo, h⟩ := Removal.statement_cases root calls unused removal e.1 e.2
    · rw [h]
      exact hr
    · rw [h]
      exact forall_mem_cons.2 ⟨he hgo, hr⟩

/-- **Whatever one round takes out satisfies `Q`**, if the statements that may go do, and the
parameters that go. -/
theorem Sheet.forall_gone {Q : Path → Prop}
    (hstatement : ∀ place n scope, sheet.root.get? place = some n → n.kind.isBlockLike = true →
      n.scope = some scope → ∀ e ∈ n.statementsWithin place, e.2.MayGo scope.unused → Q e.1)
    (hparams : ∀ place unused (removal : Removal),
      ∀ x ∈ (removal.params sheet.root unused place).gone, x ∈ removal.gone ∨ Q x)
    (h : sheet.unused = .ok removal) : ∀ x ∈ removal.gone, Q x := by
  refine (foldlM_invariant
    (fun rest r => (∀ e ∈ rest, e ∈ sheet.root.places) ∧ ∀ x ∈ r.gone, Q x)
    ?_ _ _ _ ⟨fun _ he => he, by simp⟩ h).2
  rintro ⟨place, n⟩ rest r r' ⟨hrest, hr⟩ hstep
  refine ⟨fun e he => hrest e (mem_cons_of_mem _ he), ?_⟩
  obtain ⟨q, hpath, hq⟩ := mem_placesFrom.1 (hrest _ mem_cons_self)
  rw [nil_append] at hpath
  subst hpath
  unfold Removal.block at hstep
  dsimp only at hstep
  split at hstep
  · cases hstep
    exact hr
  · rename_i hblock
    have hb : n.kind.isBlockLike = true := by
      rw [Bool.or_eq_true, not_or] at hblock
      simpa using hblock.1
    split at hstep
    · cases hstep
    · rename_i scope hscope
      split at hstep
      · cases hstep
        exact hr
      · cases hstep
        intro x hx
        rcases hparams _ _ _ x hx with hx | hx
        · refine Removal.forall_gone_statements (fun e he => ?_) hr x hx
          exact hstatement place n scope hq hb hscope e (mem_filter.1 he).1
        · exact hx

/-- Whatever one round takes out of a counted stylesheet may be left out. -/
theorem Sheet.droppable_unused (hs : IsSheet sharing sheet.root)
    (h : sheet.scanScopes.unused = .ok removal) :
    ∀ x ∈ removal.gone, sheet.scanScopes.root.Droppable {} x := by
  have hscan : IsSheet sharing sheet.scanScopes.root := hs.edited sheet.scanScopes_edited
  refine Sheet.forall_gone (fun place n scope hn hblock hscope e he hgo => ?_)
    (fun _ _ _ _ hx => Removal.droppable_params hscan hx) h
  have hb : n.kind.form.isBlockLike = true := by
    revert hblock
    cases n.kind <;> simp [Kind.isBlockLike, Kind.form, Form.isBlockLike]
  have hmem : n ∈ sheet.scanScopes.root.preorder := mem_preorder.2 ⟨place, hn⟩
  obtain ⟨q, hpath, hdrop⟩ :=
    countsIn_of_mem_statementsWithin hb ((hscan.orderly n hmem).1 hb) he
  rw [hpath]
  refine .append hn (fun around => hdrop around ?_) {}
  by_cases hbranch : n.kind = .block ∧ n.label.isBranch = true
  · -- In a branch nothing is unused.
    obtain ⟨scope', hscope', hempty⟩ := Sheet.scope_of_scanScopes hs n hmem hblock
    obtain rfl : scope = scope' := Option.some.inj (hscope.symm.trans hscope')
    obtain rfl := hempty hbranch.1 hbranch.2
    exact hgo.of_nil
  · rw [Label.innerScope_of_scope hblock (fun hk => ?_) hscope]
    · exact hgo
    · exact Bool.eq_false_iff.2 fun hb => hbranch ⟨hk, hb⟩

/-- The second tree is the first with other labels and with statements or parameters left out. -/
structure Trimmed (n m : Node) : Prop where
  edited : ∀ Fresh : Node → Prop, Edited Fresh n m
  callsNamed : ∀ P : String → Prop, CallsNamed P n → CallsNamed P m

theorem Trimmed.formsIn {P : Form → Prop} (ht : Trimmed n m) (h : n.FormsIn P) (hatom : P .atom) :
    m.FormsIn P :=
  (ht.edited _).formsIn h hatom

theorem Sheet.scanScopes_trimmed (sheet : Sheet) : Trimmed sheet.root sheet.scanScopes.root where
  edited _ := sheet.scanScopes_edited
  callsNamed _ h k hk name extend hcall := by
    obtain ⟨k', hk', heq⟩ := exists_kind_of_bare_eq sheet.bare_scanScopes hk
    exact h k' hk' name extend (heq.trans hcall)

/-- **What one round takes out may be left out.** -/
theorem Sheet.cut_prune (hs : IsSheet sharing sheet.root)
    (h : sheet.scanScopes.unused = .ok removal) :
    Cut {} sheet.scanScopes.root (sheet.scanScopes.root.prune removal []) :=
  prune_cut (Sheet.droppable_unused hs h)

theorem Cut.trimmed {around : Scope} (h : Cut around n m) : Trimmed n m where
  edited _ := h.edited
  callsNamed _ := h.callsNamed

/-- **What trimming keeps, cleaning up keeps**: it takes statements and parameters out, round by
round, and attaches scopes. -/
theorem Sheet.cleanUp_keeps {P : Node → Prop} (hP : ∀ n m, Trimmed n m → P n → P m)
    (hs : IsSheet sharing sheet.root) (h0 : P sheet.root) (h : sheet.cleanUp = .ok sheet') :
    P sheet'.root := by
  unfold Sheet.cleanUp at h
  generalize sheet.root.size = rounds at h
  induction rounds generalizing sheet with
  | zero =>
    cases h
    exact hP _ _ sheet.scanScopes_trimmed h0
  | succ rounds ih =>
    have hscan : IsSheet sharing sheet.scanScopes.root := hs.edited sheet.scanScopes_edited
    have hscan' : P sheet.scanScopes.root := hP _ _ sheet.scanScopes_trimmed h0
    rw [cleanUpWithin] at h
    obtain ⟨removal, hremoval, h⟩ := bind_eq_ok.1 h
    split at h
    · cases h
      exact hscan'
    · have hprune := (Sheet.cut_prune hs hremoval).trimmed
      exact ih (hscan.edited (hprune.edited _)) (hP _ _ hprune hscan') h

/-- **Cleaning up a stylesheet gives a stylesheet.** -/
theorem IsSheet.cleanUp (hs : IsSheet sharing sheet.root) (h : sheet.cleanUp = .ok sheet') :
    IsSheet sharing sheet'.root :=
  Sheet.cleanUp_keeps (fun _ _ he hn => hn.edited (he.edited _)) hs hs h

end Cascade
