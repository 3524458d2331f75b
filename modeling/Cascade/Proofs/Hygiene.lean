import Cascade.Compile
import Cascade.Proofs.Scopes

/-!
# Expansion is hygienic

The copy of a mixin that takes the place of a use has names of its own: the parameters of the mixin
and whatever is declared anywhere in its body get a mark.  All other names are free, and mean in the
copy what they mean around it.

This is made precise in two steps.  First, every variable that the body reads has the mark in the
copy if and only if the mixin owns it.  Second, when the copy is evaluated, a free variable is found
bound to whatever it was bound to before: no name with the mark can get in its way, and if neither
the mixin nor the use sets it, nothing else can.

The mixin owns a name everywhere in its body, also where the declaration of the name is out of
reach.  There the read is renamed all the same, and finds nothing.
-/

set_option autoImplicit false

namespace Cascade

open Node List

variable {n mixin body call : Node} {cs : List Node} {name : String} {p : Path} {sharing : Prop}
  {l : Label} (r : Renaming)

/-! ## Names that belong to a mixin -/

namespace Node

/-- A name of a parameter, or one that is declared anywhere in the body. -/
def Declares (mixin body : Node) (name : String) : Prop :=
  name ∈ mixin.paramNames ∨ ∃ m ∈ body.preorder,
    m.kind = .declaration name ∨ ∃ selector dropped, m.kind = .mixin name selector dropped

/-- **A name that belongs to a mixin**: it is declared there, or the package that it starts with. -/
def Owns (mixin body : Node) (name : String) : Prop :=
  mixin.Declares body name ∨
    ∃ package, Text.package? name = some package ∧ mixin.Declares body package

theorem mem_localNames : name ∈ mixin.localNames body ↔ mixin.Declares body name := by
  rw [localNames, NameSet.mem_ofList, mem_append, mem_filterMap]
  refine or_congr_right (exists_congr fun m => and_congr_right fun _ => ?_)
  cases m.kind <;> simp

theorem isLocal_iff {mark : String} :
    Renaming.isLocal ⟨mark, mixin.localNames body⟩ name = true ↔ mixin.Owns body name := by
  rw [Renaming.isLocal, Bool.or_eq_true, contains_iff_mem, contains_iff_mem,
    mem_localNames, mem_localNames, Owns]
  cases Text.package? name with
  | none => simp
  | some package => simp

/-! ## Copies place by place -/

/-- The places of a tree with other labels. -/
theorem get?_relabel {f : Node → Node} {g : Label → Label}
    (hf : ∀ l cs, f (mk l cs) = mk (g l) (cs.map f)) (n : Node) (p : Path) :
    (f n).get? p = (n.get? p).map f := by
  induction p generalizing n with
  | nil => rfl
  | cons i p ih =>
    obtain ⟨l, cs⟩ := n
    rw [hf, get?, get?, children_mk, children_mk, getElem?_map]
    cases cs[i]? with
    | none => rfl
    | some c => exact ih c

theorem get?_copied_renamed (n : Node) (p : Path) :
    (n.copied.renamed r).get? p = (n.get? p).map fun m => m.copied.renamed r :=
  @get?_relabel (fun m => m.copied.renamed r)
    (fun l => { l with kind := r.renameKind l.kind, comments := [] })
    (fun l cs => by simp [copied, renamed, renamedAll_eq_map]) n p

theorem kind_copied_renamed (n : Node) : (n.copied.renamed r).kind = r.renameKind n.kind := by
  cases n
  rfl

theorem get?_copied (n : Node) (p : Path) : n.copied.get? p = (n.get? p).map copied :=
  @get?_relabel copied (fun l => { l with comments := [] })
    (fun l cs => by rw [copied, copiedAll_eq_map]) n p

theorem declares_copied : mixin.Declares body.copied name ↔ mixin.Declares body name := by
  refine or_congr_right ?_
  simp only [mem_preorder, get?_copied, Option.map_eq_some_iff]
  constructor
  · rintro ⟨_, ⟨p, m, hm, rfl⟩, hkind⟩
    exact ⟨m, ⟨p, hm⟩, by cases m; exact hkind⟩
  · rintro ⟨m, ⟨p, hm⟩, hkind⟩
    exact ⟨m.copied, ⟨p, m, hm, rfl⟩, by cases m; exact hkind⟩

theorem owns_copied : mixin.Owns body.copied name ↔ mixin.Owns body name := by
  simp only [Owns, declares_copied]

end Node

/-! ## Trees that do not set a variable -/

namespace Node

/-- **A tree that does not set a variable**, neither by a declaration nor by an assignment. -/
def Spares (x : String) (n : Node) : Prop :=
  ∀ m ∈ n.preorder, x ∉ m.kind.settings

variable {x : String}

theorem spares_iff : n.Spares x ↔ ∀ k t, Occurs k t n → x ∉ k.settings := by
  constructor
  · intro h k t ho
    obtain ⟨m, hm, rfl⟩ := exists_occurs_iff.1 ⟨t, ho⟩
    exact h m hm
  · intro h m hm
    obtain ⟨t, ho⟩ := exists_occurs_iff.2 ⟨m, hm, rfl⟩
    exact h _ t ho

theorem spares_mk : (mk l cs).Spares x ↔ x ∉ l.kind.settings ∧ ∀ c ∈ cs, c.Spares x :=
  forall_mem_preorder

variable (h : n.Spares x)

include h

theorem Spares.child {c : Node} (hc : c ∈ n.children) : c.Spares x := by
  obtain ⟨l, cs⟩ := n
  exact (spares_mk.1 h).2 c hc

theorem Spares.child? {c : Node} {relation : Relation} (hc : n.child? relation = some c) :
    c.Spares x :=
  h.child (mem_of_find?_eq_some hc)

theorem Spares.arguments {c : Node} (hc : c ∈ n.arguments) : c.Spares x := by
  rw [Node.arguments] at hc
  cases hparams : n.child? .params with
  | none => simp [hparams] at hc
  | some params =>
    rw [hparams] at hc
    exact (h.child? hparams).child hc

theorem Spares.copied : n.copied.Spares x :=
  spares_iff.2 fun k t ho => spares_iff.1 h k t ho.of_copied

theorem Spares.congr {m : Node} (hk : m.kind = n.kind) (hc : m.children = n.children) :
    m.Spares x :=
  spares_iff.2 fun k t ho => spares_iff.1 h k t (ho.congr hk.symm hc.symm)

end Node

theorem Renaming.settings_renameKind (kind : Kind) :
    (r.renameKind kind).settings = kind.settings.map r.rename := by
  cases kind <;> rfl

namespace Node

variable {x : String} {r : Renaming}

/-- A copy sets a free variable only if the body does. -/
theorem Spares.renamed (hmark : ¬ r.HasMark x) (h : r.isLocal x = true ∨ n.Spares x) :
    (n.renamed r).Spares x := by
  refine spares_iff.2 fun k t ho hx => ?_
  obtain ⟨k, t, horiginal, rfl, -⟩ := ho.of_renamed
  rw [r.settings_renameKind] at hx
  obtain ⟨y, hy, rfl⟩ := mem_map.1 hx
  by_cases hlocal : r.isLocal y = true
  · exact hmark ⟨y, by rw [Renaming.rename, if_pos hlocal]⟩
  · rw [Renaming.rename, if_neg hlocal] at h
    exact spares_iff.1 (h.resolve_left hlocal) k t horiginal hy

theorem Spares.fillContent {statements : List Node} (h : n.Spares x)
    (hs : ∀ s ∈ statements, s.Spares x) : (n.fillContent statements).Spares x := by
  refine spares_iff.2 fun k t ho => ?_
  obtain ho | ⟨s, hmem, -, t, -, ho, -⟩ := ho.of_fillContent
  · exact spares_iff.1 h k _ ho
  · exact spares_iff.1 (hs s hmem) k t ho

theorem Spares.passedStatements (h : call.Spares x) : ∀ s ∈ call.passedStatements, s.Spares x := by
  intro s hs
  obtain ⟨content, hcontent, c, hc, rfl⟩ := mem_passedStatements.1 hs
  exact ((h.child? hcontent).child hc).copied.congr rfl rfl

theorem Spares.paramDeclarations (hmark : ¬ r.HasMark x)
    (hmixin : r.isLocal x = true ∨ mixin.Spares x) (hcall : call.Spares x) :
    ∀ d ∈ paramDeclarations r mixin call, d.Spares x := by
  intro d hd
  obtain ⟨⟨⟨name, default⟩, i⟩, hi, rfl⟩ := mem_map.1 hd
  obtain ⟨p, hp, hparam⟩ := mem_filterMap.1 (fst_mem_of_mem_zipIdx hi)
  have hdefault : ∀ v ∈ default, r.isLocal x = true ∨ v.Spares x := by
    intro v hv
    refine hmixin.imp_right fun h => ?_
    split at hparam
    · cases hparam
      exact (h.arguments hp).child? hv
    · cases hparam
  refine spares_mk.2 ⟨?_, ?_⟩
  · intro hx
    exact hmark ⟨name, mem_singleton.1 hx⟩
  · intro c hc
    obtain ⟨v, hv, rfl⟩ := mem_map.1 hc
    suffices hvalue : v.Spares x from hvalue.congr rfl rfl
    cases hargument : call.arguments[i]? with
    | some argument =>
      simp only [hargument, Option.mem_toList, Option.some.injEq] at hv
      exact hv ▸ hcall.arguments (mem_of_getElem? hargument)
    | none =>
      simp only [hargument, Option.mem_toList, Option.map_eq_some_iff] at hv
      obtain ⟨v, hv, rfl⟩ := hv
      exact .renamed hmark ((hdefault v hv).imp_right Spares.copied)

theorem Spares.withHead {head : List Node} (h : n.Spares x) (hhead : ∀ d ∈ head, d.Spares x) :
    (n.withChildren (head ++ n.children)).Spares x := by
  obtain ⟨l, cs⟩ := n
  obtain ⟨hl, hcs⟩ := spares_mk.1 h
  exact spares_mk.2 ⟨hl, forall_mem_append.2 ⟨hhead, hcs⟩⟩

/-- **The block that replaces a use** sets a variable without a mark only if the use does, or the
mixin does and does not own it. -/
theorem Spares.expansion {mark : String} (hbody : mixin.rules? = some body)
    (hmark : ∀ y, x ≠ mark ++ "-" ++ y) (hmixin : mixin.Owns body x ∨ mixin.Spares x)
    (hcall : call.Spares x) : (expansion mark mixin call).Spares x := by
  obtain ⟨r, rfl, heq⟩ := @expansion_eq mark mixin call body hbody
  have hmark : ¬ Renaming.HasMark ⟨mark, mixin.localNames body.copied⟩ x :=
    fun ⟨y, hy⟩ => hmark y hy
  have hmixin : Renaming.isLocal ⟨mark, mixin.localNames body.copied⟩ x = true ∨
      mixin.Spares x :=
    hmixin.imp_left fun h => isLocal_iff.2 (owns_copied.2 h)
  have hcopy := Spares.renamed hmark (hmixin.imp_right fun h => (h.child? hbody).copied)
  rw [heq]
  exact ((hcopy.withHead (.paramDeclarations hmark hmixin hcall)).fillContent
    hcall.passedStatements).congr rfl rfl

end Node

/-! ## Counting names -/

namespace Node

variable {x : String}

/-- The blocks of rules are blocks. -/
def RulesAreBlocks (n : Node) : Prop :=
  ∀ m ∈ n.preorder, m.kind.treatment = .rules →
    ∀ c ∈ m.children, c.relation = some .rules → c.kind = .block

theorem RulesAreBlocks.child (h : (mk l cs).RulesAreBlocks) : ∀ c ∈ cs, c.RulesAreBlocks :=
  fun _ hc m hm => h m (mem_preorder_of_mem hc hm)

theorem SetsOnly.mk {W : String → Prop} (hset : ∀ y ∈ l.kind.settings, W y)
    (hblock : l.kind = .block → l.ResetsOnly W)
    (hrules : l.kind.treatment = .rules → ∀ c ∈ cs, c.relation = some .rules → c.label.ResetsOnly W)
    (hcs : ∀ c ∈ cs, c.SetsOnly W) : (Node.mk l cs).SetsOnly W :=
  forall_mem_preorder.2 ⟨⟨hset, hblock, hrules⟩, hcs⟩

theorem Spares.settings_ne (h : (mk l cs).Spares x) : ∀ y ∈ l.kind.settings, y ≠ x := by
  rintro y hy rfl
  exact (spares_mk.1 h).1 hy

/-- **Counting names does not make a tree set a variable**: no block is said to take it away. -/
theorem Spares.scanned (h : n.Spares x) (hrules : n.RulesAreBlocks) (p : Node) (scope : Scope) :
    (n.scanScopes (.opening p) scope).1.SetsOnly (· ≠ x) := by
  induction n using ind generalizing p scope with
  | mk l cs ih =>
    have hall (scope : Scope) : ∀ c ∈ (scanScopesAll (.opening (mk l cs)) scope cs).1,
        c.SetsOnly (· ≠ x) := by
      intro c' hc'
      obtain ⟨c, hc, scope', rfl⟩ := exists_of_mem_scanScopesAll hc'
      exact ih c hc ((spares_mk.1 h).2 c hc) (hrules.child c hc) _ scope'
    by_cases hblock : l.kind = .block
    · have hnotRules : l.kind.treatment ≠ .rules := by
        rw [hblock]
        nofun
      have hlike : l.kind.isBlockLike = true := hblock ▸ rfl
      rw [(opening_of_isBlockLike hlike cs).1] at hall
      by_cases hbranch : l.isBranch = true
      · rw [scanScopes_branch hblock hbranch]
        refine .mk h.settings_ne (fun _ => ?_) (fun ht => absurd ht hnotRules) (hall scope)
        rintro _ ⟨⟩ y hy
        cases hy
      · rw [scanScopes_block hblock hbranch]
        refine .mk h.settings_ne (fun _ => ?_) (fun ht => absurd ht hnotRules) (hall _)
        rintro _ ⟨⟩ y hy rfl
        obtain hy | hy := ((counts_block hlike (fun c _ => c.counts_scanScopes _) _).modified y).1 hy
        · rw [(Scope.opening_spec p).2.1] at hy
          cases hy
        · obtain ⟨m, hm, hset⟩ := exists_of_mem_namesIn hy
          exact h m hm hset
    · rw [scanScopes_other hblock]
      refine .mk h.settings_ne (fun hk => absurd hk hblock) (fun ht d hd hrel => ?_) (hall _)
      -- The block of a rule is a block, so its scope is a new one.
      obtain ⟨c, hc, sc, rfl⟩ := exists_of_mem_scanScopesAll hd
      rw [relation_scanScopes] at hrel
      have hkind := hrules _ (self_mem_preorder _) ht c hc hrel
      exact (hall _ _ hd _ (self_mem_preorder _)).2.1 ((kind_scanScopes _ _ c).trans hkind)

theorem get?_update_self {m : Node} (h : n.get? p = some m) (b : Node) :
    (n.update (fun _ => b) p).get? p = some b := by
  induction p generalizing n with
  | nil => rfl
  | cons i p ih =>
    rw [get?] at h
    split at h
    · rename_i c hc
      rw [update, get?]
      simp only [withChildren, children_mk, getElem?_modify_eq, hc]
      exact ih h
    · cases h

end Node

/-! ## Blocks of rules -/

theorem Kind.form_of_rules {kind : Kind} (h : kind.treatment = .rules) :
    kind.form = .rule ∨ kind.form = .frame ∨ kind.form = .keyframes ∨ kind.form = .extended := by
  unfold Kind.treatment at h
  split at h <;> simp_all [Kind.form]

theorem IsStatement.rulesAreBlocks (hn : IsStatement sharing n) : n.RulesAreBlocks := by
  have hno {m : Node} (h : m.kind.form ≠ .rule ∧ m.kind.form ≠ .frame ∧ m.kind.form ≠ .keyframes ∧
      m.kind.form ≠ .extended) (hrules : m.kind.treatment = .rules) :
      ∀ c ∈ m.children, c.relation = some .rules → c.kind = .block := by
    obtain hf | hf | hf | hf := Kind.form_of_rules hrules <;> simp [hf] at h
  refine hn.forall_mem (fun m hpart => hno ?_) (fun m hs => ?_) fun l cs hk => hno (by simp [hk])
  · refine ⟨?_, ?_, ?_, ?_⟩ <;>
      · intro hf
        rw [hf] at hpart
        cases hpart
  · cases hs with
    | rule h hk hr => exact fun _ => forall_mem_singleton.2 fun _ => Kind.eq_block hk
    | keyframes h hk hr => exact fun _ => forall_mem_singleton.2 fun _ => Kind.eq_block hk
    | mixin h hk hr hps hbk =>
      refine fun _ => forall_mem_cons.2 ⟨fun hrel => ?_, forall_mem_singleton.2
        fun _ => Kind.eq_block hbk⟩
      rw [relation_mk, hr] at hrel
      cases hrel
    | _ h => exact hno (by simp [h])

/-! ## Expansion -/

theorem Number.mem_hexDigits {count n : Nat} {c : Char} (h : c ∈ Number.hexDigits count n) :
    ∃ d < 16, c = Nat.digitChar d := by
  induction count generalizing n with
  | zero => cases h
  | succ count ih =>
    rcases mem_cons.1 h with rfl | h
    · exact ⟨n % 16, Nat.mod_lt n (by decide), rfl⟩
    · exact ih h

/-- A mark can be written into texts. -/
theorem Renaming.clear_markOf (number : Nat) (locals : NameSet) :
    Renaming.Clear ⟨Renaming.markOf number, locals⟩ := by
  have hdigit : ∀ d < 16, Nat.digitChar d ≠ '$' ∧ Nat.digitChar d ≠ '\x7d' := by decide
  have hchars : ∀ c ∈ (Renaming.markOf number).toList, c ≠ '$' ∧ c ≠ '\x7d' := by
    intro c hc
    simp only [Renaming.markOf, Number.hex, String.toList_append, String.toList_ofList,
      mem_append, mem_reverse] at hc
    rcases hc with hc | hc
    · obtain rfl := mem_singleton.1 hc
      decide
    · obtain ⟨d, hd, rfl⟩ := Number.mem_hexDigits hc
      exact hdigit d hd
  exact ⟨fun h => (hchars _ h).1 rfl, fun h => (hchars _ h).2 rfl⟩

theorem Node.kind_paramDeclarations {r : Renaming} {d : Node}
    (hd : d ∈ paramDeclarations r mixin call) :
    ∃ x ∈ mixin.paramNames, d.kind = .declaration (r.marked x) := by
  obtain ⟨⟨⟨name, default⟩, i⟩, hi, rfl⟩ := mem_map.1 hd
  refine ⟨name, ?_, rfl⟩
  obtain ⟨p, hp, hparam⟩ := mem_filterMap.1 (fst_mem_of_mem_zipIdx hi)
  have hkind : p.kind = .param name := by
    split at hparam
    · rename_i hkind
      cases hparam
      exact hkind
    · cases hparam
  exact mem_filterMap.2 ⟨p, hp, by rw [hkind]⟩

theorem Sheet.expandCall_root {sheet sheet' : Sheet} {path place : Path}
    (hcall : sheet.root.get? path = some call) (hmixin : sheet.root.get? place = some mixin)
    (h : sheet.expandCall path place = .ok sheet') :
    sheet'.root = sheet.root.update
      (fun _ => expansion (Renaming.markOf (sheet.expansions + 1)) mixin call) path := by
  rw [Sheet.expandCall, hcall, hmixin] at h
  dsimp only at h
  split at h
  · cases h
  · cases h
    rfl

theorem Node.readsOnly_true (n : Node) : n.ReadsOnly fun _ => True :=
  fun _ _ _ _ => trivial

theorem Node.setsOnly_true (n : Node) : n.SetsOnly fun _ => True :=
  fun _ _ => ⟨fun _ _ => trivial, fun _ _ _ _ _ => trivial, fun _ _ _ _ _ _ _ _ => trivial⟩

/-- What the evaluation of a block finds, if the block does not set the variable. -/
theorem Node.Spares.lookups {block : Node} {x : String} (h : n.Spares x) (hrules : n.RulesAreBlocks)
    {sheet : Sheet} {i : Nat} (hn : sheet.root.get? (i :: p) = some n)
    (hblock : sheet.scanScopes.root.get? (i :: p) = some block) {s : Surroundings} {b : Bindings}
    {found : Option Node} (hfound : (x, found) ∈ block.lookups s b) : found = b.find? x := by
  obtain ⟨q, j, hq⟩ : ∃ q j, i :: p = q ++ [j] :=
    ⟨_, _, (dropLast_append_getLast (cons_ne_nil i p)).symm⟩
  rw [hq] at hn hblock
  obtain ⟨parent, hparent, hchild⟩ := get?_append_singleton.1 hn
  obtain ⟨opening, scope, hopening, hget⟩ :=
    get?_of_counted sheet.scanScopes.root rfl hparent hchild
  obtain rfl := Option.some.inj (hget.symm.trans hblock)
  have hsets : (n.scanScopes opening scope).1.SetsOnly (· ≠ x) := by
    obtain rfl | ⟨-, rfl⟩ := hopening
    · exact h.scanned hrules parent scope
    · exact h.scanned hrules (make .sheet 0) scope
  exact (execute_tracked _ ⟨readsOnly_true _, hsets⟩).sees (fun hne => hne rfl) hfound

/-- **Expansion keeps free names free.**  The block that replaces a use of a mixin consists of the
declarations of the parameters and of a copy of the body, with the statements that the use passes
along in it.  In every place of the copy, the variables that are read there have the mark of this
expansion if the mixin owns them, and otherwise their own names.  If the block is evaluated, what it
gives depends on the bindings only through its lookups; and whenever it looks up a variable without
the mark that is not set by the use, nor by the mixin unless the mixin owns it, it finds what the
variable was bound to before the block. -/
theorem expandCall_hygienic {sheet sheet' : Sheet} {path place : Path} {call mixin : Node}
    (hsheet : IsSheet sharing sheet.root) (hcall : sheet.root.get? path = some call)
    (hcallKind : call.kind.form = .call) (hmixin : sheet.root.get? place = some mixin)
    (hmixinKind : mixin.kind.isMixin = true) (h : sheet.expandCall path place = .ok sheet') :
    ∃ (mark : String) (body copy : Node) (params : List Node) (rename : String → String),
      mark = Renaming.markOf (sheet.expansions + 1) ∧ mixin.rules? = some body ∧
      (∀ x, (mixin.Owns body x → rename x = mark ++ "-" ++ x) ∧
        (¬ mixin.Owns body x → rename x = x)) ∧
      (∀ d ∈ params, ∃ x ∈ mixin.paramNames, d.kind = .declaration (mark ++ "-" ++ x)) ∧
      (∀ p n, body.get? p = some n → ∃ n', copy.get? p = some n' ∧
        ((∀ x ∈ n.kind.dynamic, ∀ y, x ≠ mark ++ "-" ++ y) →
          n.kind.RenamedBy rename n'.kind)) ∧
      sheet'.root = sheet.root.update (fun _ =>
        ((copy.withChildren (params ++ copy.children)).fillContent
          call.passedStatements).withRelation call.relation) path ∧
      ∀ block, sheet'.scanScopes.root.get? path = some block → ∀ s bindings,
        (∀ X bindings', AgreeExcept X bindings bindings' → Unread X (block.lookups s bindings) →
          SameExcept X (block.execute s bindings) (block.execute s bindings')) ∧
        ∀ x, (∀ y, x ≠ mark ++ "-" ++ y) → (mixin.Owns body x ∨ mixin.Spares x) →
          call.Spares x → ∀ found, (x, found) ∈ block.lookups s bindings →
            found = bindings.find? x := by
  have hstatement := (hsheet.item_of_get? hmixin
    (Kind.isLoose_of_isMixin hmixinKind)).isStatement
  obtain ⟨body, hbody, -⟩ := hstatement.mixin_parts hmixinKind
  obtain ⟨r, hr, hblock⟩ :=
    @Node.expansion_eq (Renaming.markOf (sheet.expansions + 1)) mixin call body hbody
  have hroot := Sheet.expandCall_root hcall hmixin h
  refine ⟨_, body, body.copied.renamed r, paramDeclarations r mixin call, r.rename, rfl, hbody,
    fun x => ?_, fun d hd => ?_, fun p n hn => ?_, hblock ▸ hroot, fun block hget s b =>
      ⟨fun X b' hb hX => ((execute_tracked block ⟨block.readsOnly_true, block.setsOnly_true⟩).blind hb hX).1, ?_⟩⟩
  · rw [← owns_copied, ← isLocal_iff, ← hr, Renaming.rename]
    exact ⟨fun hx => by rw [if_pos hx, hr]; rfl, fun hx => if_neg hx⟩
  · obtain ⟨x, hx, hkind⟩ := kind_paramDeclarations hd
    exact ⟨x, hx, by rw [hkind, hr]; rfl⟩
  · refine ⟨n.copied.renamed r, by rw [get?_copied_renamed, hn]; rfl, fun hmark => ?_⟩
    rw [kind_copied_renamed]
    refine Renaming.renameKind_renamed (hr ▸ Renaming.clear_markOf _ _) fun x hx => ?_
    rintro ⟨y, hy⟩
    exact hmark x hx y (by rw [hy, hr]; rfl)
  · intro x hmark howns hspares found hfound
    have hloose : call.kind.form.isLoose = true := hcallKind ▸ rfl
    have hitem : IsItem sharing (expansion _ mixin call) :=
      .expansion (Renaming.markOf (sheet.expansions + 1)) hstatement hmixinKind
        (hsheet.item_of_get? hcall hloose) hcallKind
    cases path with
    | nil =>
      obtain rfl := Option.some.inj hcall
      rw [hsheet.kind] at hcallKind
      cases hcallKind
    | cons i p =>
      have hexpansion : sheet'.root.get? (i :: p) = some (expansion _ mixin call) :=
        hroot ▸ get?_update_self hcall _
      exact (Node.Spares.expansion hbody hmark howns hspares).lookups
        hitem.isStatement.rulesAreBlocks hexpansion hget hfound

/-- A mixin with a parameter `$x` that declares `$y` and reads it, and a rule that passes its own
`$y` to the mixin. -/
def sheetWithSameNames : Sheet where
  root := .make .sheet 1
    [.make (.mixin "m" none 0) 1
      [(make .params 1 [.make (.param "x") 1]).placed .params,
        (make .block 1
          [.make (.declaration "y") 1 [(make (.reference "x") 1).placed .initializer],
            .make (.property "top" [] false) 1 [.make (.reference "y") 1]]).placed .rules],
      .make (.selector ["p"] []) 1
        [(make .block 1
          [.make (.call "m" false) 1
            [(make .params 1 [.make (.reference "y") 1]).placed .params]]).placed .rules]]

theorem sheetWithSameNames_isSheet : IsSheet False sheetWithSameNames.root := by
  have hvalue (x : String) (r : Option Relation) :
      IsValue ((make (.reference x) 1).withRelation r) := .atom rfl
  have hdeclaration : IsItem False
      (.make (.declaration "y") 1 [(make (.reference "x") 1).placed .initializer]) :=
    ⟨⟨rfl, nofun⟩, .declaration rfl ⟨Nat.le_refl 1, forall_mem_singleton.2 rfl,
      forall_mem_singleton.2 (hvalue "x" _)⟩⟩
  have hproperty : IsItem False
      (.make (.property "top" [] false) 1 [.make (.reference "y") 1]) :=
    ⟨⟨rfl, nofun⟩, .property rfl rfl (hvalue "y" none)⟩
  have hcall : IsItem False (.make (.call "m" false) 1
      [(make .params 1 [.make (.reference "y") 1]).placed .params]) :=
    ⟨⟨rfl, nofun⟩, .call rfl ⟨rfl, rfl, forall_mem_singleton.2 (hvalue "y" none)⟩
      (Nat.zero_le 1) (by simp) (by simp)⟩
  have hbody : ∀ c ∈ [_, _], IsItem False c :=
    forall_mem_cons.2 ⟨hdeclaration, forall_mem_singleton.2 hproperty⟩
  refine ⟨rfl, forall_mem_cons.2 ⟨⟨⟨rfl, nofun⟩, ?_⟩, forall_mem_singleton.2
    ⟨⟨rfl, nofun⟩, ?_⟩⟩⟩
  · refine .mixin (.inl rfl) rfl rfl (forall_mem_singleton.2 (.mk rfl ?_)) rfl rfl
      (.block rfl (fun c hc => (hbody c hc).isMember) fun c hc => (hbody c hc).isStatement)
    exact ⟨Nat.zero_le 1, by simp, by simp⟩
  · exact .rule (.inl rfl) rfl rfl (.block rfl (forall_mem_singleton.2 hcall.isMember)
      (forall_mem_singleton.2 hcall.isStatement))

/-- The argument of a use reads a variable of the caller, although the mixin declares another one of
the same name. -/
theorem expandCall_hygienic_argument :
    ∃ sheet' block, sheetWithSameNames.expandCall [1, 0, 0] [0] = .ok sheet' ∧
      sheet'.scanScopes.root.get? [1, 0, 0] = some block ∧
      ∀ s bindings found, ("y", found) ∈ block.lookups s bindings →
        found = bindings.find? "y" := by
  obtain ⟨sheet', hexpand, block, hblock⟩ :
      ∃ sheet', sheetWithSameNames.expandCall [1, 0, 0] [0] = .ok sheet' ∧
        ∃ block, sheet'.scanScopes.root.get? [1, 0, 0] = some block := ⟨_, rfl, _, rfl⟩
  obtain ⟨_, body, _, _, _, rfl, hbody, -, -, -, -, hrun⟩ :=
    expandCall_hygienic sheetWithSameNames_isSheet rfl rfl rfl rfl hexpand
  obtain rfl := Option.some.inj hbody
  refine ⟨sheet', block, hexpand, hblock, fun s bindings =>
    (hrun block hblock s bindings).2 "y" ?_ ?_ ?_⟩
  · intro y h
    have hchars := congrArg String.toList h
    simp [Renaming.markOf] at hchars
  · exact .inl (.inl (.inr ⟨_, mem_preorder.2 ⟨[0], rfl⟩, .inl rfl⟩))
  · simp [Node.Spares, preorder, make, placed, withRelation, Kind.settings]

/-- Where free names are not kept.  A variable that is declared in a nested block of the mixin gets
the mark outside of that block too, where it is not declared.  A free variable that the body assigns
to is found with the value from the body.  And a variable that looks like a marked parameter is
taken for the parameter. -/
theorem free_names_not_kept :
    compile { text := "$x=r;$m\x7b.a\x7b$x=b;c:$x;\x7dd:$x;\x7dp\x7b$m();\x7d" } {} {} =
        .error ⟨.eval (.undefinedVariable "m00001-x"), ⟨none, 1⟩⟩ ∧
      compile { text := "$x=r;$m\x7ba:@expr($x=b);b:$x;\x7dp\x7b$m();\x7d" } {} {} =
        .ok "p\x7ba:b;b:b;\x7d" ∧
      compile { text := "$m00001-x=r;$m($x)\x7bc:$m00001-x;d:$x;\x7dp\x7b$m(b);\x7d" } {} {} =
        .ok "p\x7bc:b;d:b;\x7d" := by
  decide +kernel

end Cascade
