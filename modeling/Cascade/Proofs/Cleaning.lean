import Cascade.Document.Definitions
import Cascade.Proofs.LockstepStatements
import Cascade.Proofs.SoundEditing

/-!
# Cleaning up keeps what uses refer to

What nobody uses is taken out round by round.  The count of names may take a definition for unused
although a use refers to it, so a mixin goes only if none of the uses that were there when the round
began refers to it.  In the same round other nodes go, among them uses and definitions that stand
between a use and its definition; none of them is what a use that is left refers to.
-/

set_option autoImplicit false

namespace Cascade

open Document Editing List

variable {d d' d'' : Document} {k p key call : Key} {name : String} {n m : Nat}

/-- A search that does not find `x` does not miss it. -/
theorem find?_filter_ne {l : List Key} {x : Key} {found : Key → Bool} (h : l.find? found ≠ some x) :
    (l.filter (· != x)).find? found = l.find? found := by
  induction l with
  | nil => rfl
  | cons a l ih =>
    rw [find?_cons] at h
    cases hfound : found a with
    | true =>
      rw [hfound] at h
      have hne : a ≠ x := fun hax => h (congrArg some hax)
      simp [hne, hfound]
    | false =>
      rw [hfound] at h
      by_cases hax : a = x
      · simp [← hax, hfound, hax ▸ ih h]
      · simp [hax, hfound, ih h]

theorem takeWhile_filter_ne {l : List Key} {x : Key} (h : x ≠ k) :
    (l.filter (· != x)).takeWhile (· != k) = (l.takeWhile (· != k)).filter (· != x) := by
  induction l with
  | nil => rfl
  | cons a l ih => by_cases hax : a = x <;> by_cases hak : a = k <;> simp_all

namespace Document

theorem isAttached_iff : d.isAttached k = true ↔ k = root ∨ root ∈ d.ancestorsUpTo d.cells.size k := by
  simp [isAttached, ancestors]

/-- The children before a node. -/
theorem Linked.take_indexOf? (hd : d.Linked) (h : d.parent? k = some p) :
    (d.childKeys p).take ((d.indexOf? k).getD 0) = (d.childKeys p).takeWhile (· != k) := by
  obtain ⟨before, after, hchildren, -, hkey, hindex⟩ := hd.exists_position h
  have hne : ∀ x ∈ before, (x != k) = true := fun x hx =>
    bne_iff_ne.2 fun hxk => hkey (mem_append_left _ (hxk ▸ hx))
  rw [hindex, hchildren, append_assoc, takeWhile_append_of_pos hne]
  simp

theorem Linked.childKeys_remove (hd : d.Linked) (key p : Key) :
    (d.remove key).childKeys p = (d.childKeys p).filter (· != key) := by
  have hother (h : d.parent? key ≠ some p) : (d.childKeys p).filter (· != key) = d.childKeys p :=
    filter_eq_self.2 fun c hc => bne_iff_ne.2 fun hck => h (hck ▸ hd.mem_childKeys.1 hc)
  cases hq : d.parent? key with
  | none => rw [remove_of_parent?_eq_none hq, hother (by rw [hq]; exact nofun)]
  | some q =>
    have hlt : q < (d.setParent key none).cells.size := by
      simpa using hd.lt_size_of_parent? hq
    rw [remove_of_parent?_eq_some hq, childKeys_setChildren _ hlt, childKeys_setParent]
    split
    · rename_i hpq
      rw [hpq]
    · rename_i hpq
      rw [hother fun hp => hpq (Option.some.inj (hp.symm.trans hq))]

@[simp] theorem kindAt_remove (d : Document) (key k : Key) : (d.remove key).kindAt k = d.kindAt k := by
  cases hq : d.parent? key with
  | none => rw [remove_of_parent?_eq_none hq]
  | some q => rw [remove_of_parent?_eq_some hq, kindAt_setChildren, kindAt_setParent]

/-- **Taking out a node that is not found keeps what is found**, from a node that stays. -/
theorem Sound.findMixinUpTo_remove (hd : d.Sound) (hkey : key ≠ root)
    (hfound : d.findMixinUpTo name n k ≠ some key)
    (hk : k = root ∨ root ∈ (d.remove key).ancestorsUpTo m k) :
    (d.remove key).findMixinUpTo name n k = d.findMixinUpTo name n k := by
  induction n generalizing k m with
  | zero => rfl
  | succ n ih =>
    have hne : k ≠ key := by
      rintro rfl
      cases m with
      | zero => simp [ancestorsUpTo, hkey] at hk
      | succ m => simp [ancestorsUpTo, parent?_remove, hkey] at hk
    have hparent : (d.remove key).parent? k = d.parent? k := by rw [parent?_remove, if_neg hne]
    rw [findMixinUpTo] at hfound
    rw [findMixinUpTo, findMixinUpTo, hparent]
    cases hp : d.parent? k with
    | none => rfl
    | some p =>
      simp only [hp] at hfound ⊢
      rw [hd.take_indexOf? hp] at hfound ⊢
      rw [(hd.remove key).take_indexOf? (hparent.trans hp), hd.childKeys_remove,
        takeWhile_filter_ne (Ne.symm hne), ← filter_reverse]
      have hdefines : (d.remove key).defines name = d.defines name := by
        funext c
        rw [defines, defines, kindAt_remove]
      rw [hdefines]
      cases hfind : ((d.childKeys p).takeWhile (· != k)).reverse.find? (d.defines name) with
      | some mixin =>
        rw [hfind] at hfound
        rw [find?_filter_ne (by rw [hfind]; exact hfound), hfind]
      | none =>
        rw [hfind] at hfound
        rw [find?_filter_ne (by rw [hfind]; exact nofun), hfind]
        refine ih hfound (m := m - 1) ?_
        have hroot : k ≠ root := hd.ne_root_of_parent? hp
        cases m with
        | zero => simp [ancestorsUpTo, hroot] at hk
        | succ m => simpa [ancestorsUpTo, hroot, hparent, hp, eq_comm] using hk


/-! ## Thinner documents -/

/-- `d'` is `d` with some nodes taken out: the uses of mixins that are left refer to what they
referred to. -/
structure Thins (d d' : Document) : Prop where
  defines_eq : d'.defines = d.defines
  call_iff : ∀ k name extend, d'.kindAt k = .call name extend ↔ d.kindAt k = .call name extend
  attached : ∀ k, d'.isAttached k = true → d.isAttached k = true
  findMixin?_eq : ∀ {call name extend}, d.kindAt call = .call name extend →
    d'.isAttached call = true → d'.findMixin? call name = d.findMixin? call name

instance : Std.Refl Thins :=
  ⟨fun _ => ⟨rfl, fun _ _ _ => .rfl, fun _ => id, fun _ _ => rfl⟩⟩

instance : IsTrans Document Thins where
  trans _ _ _ h h' := by
    refine ⟨h'.defines_eq.trans h.defines_eq, fun k name extend =>
      (h'.call_iff k name extend).trans (h.call_iff k name extend),
      fun k hk => h.attached k (h'.attached k hk), fun hcall hk => ?_⟩
    exact (h'.findMixin?_eq ((h.call_iff _ _ _).2 hcall) hk).trans
      (h.findMixin?_eq hcall (h'.attached _ hk))

theorem kindAt_relabel_or (d : Document) (key k : Key) (change : Label → Label) :
    (d.relabel key change).kindAt k = d.kindAt k ∨
      (d.relabel key change).kindAt k = (change (d.labelAt k)).kind := by
  rw [kindAt, kindAt, labelAt, labelAt, label?, label?, relabel, cells_update]
  split
  · cases d.cells[k]? with
    | none => exact .inl rfl
    | some cell => exact .inr rfl
  · exact .inl rfl

/-- Labels may change as long as no mixin gets another name. -/
theorem Thins.relabel (d : Document) (key : Key) {change : Label → Label}
    (h : ∀ label, (change label).kind = label.kind ∨ ∃ name selector m n,
      label.kind = .mixin name selector m ∧ (change label).kind = .mixin name selector n) :
    Thins d (d.relabel key change) := by
  have hkind (k : Key) : (d.relabel key change).kindAt k = d.kindAt k ∨ ∃ name selector m n,
      d.kindAt k = .mixin name selector m ∧
        (d.relabel key change).kindAt k = .mixin name selector n := by
    rcases kindAt_relabel_or d key k change with hk | hk
    · exact .inl hk
    · rw [hk]
      exact h _
  have hdefines : (d.relabel key change).defines = d.defines := by
    funext name k
    rcases hkind k with hk | ⟨_, _, _, _, hk, hk'⟩
    · rw [defines, defines, hk]
    · rw [defines, defines, hk, hk']
  have hup (n : Nat) (k : Key) : (d.relabel key change).ancestorsUpTo n k = d.ancestorsUpTo n k := by
    induction n generalizing k with
    | zero => rfl
    | succ n ih => simp only [ancestorsUpTo, parent?_relabel, ih]
  have hfind (name : String) (n : Nat) (k : Key) :
      (d.relabel key change).findMixinUpTo name n k = d.findMixinUpTo name n k := by
    induction n generalizing k with
    | zero => rfl
    | succ n ih =>
      simp only [findMixinUpTo, indexOf?, parent?_relabel, childKeys_relabel, hdefines, ih]
  refine ⟨hdefines, fun k name extend => ?_, fun k => ?_, fun _ _ => ?_⟩
  · rcases hkind k with hk | ⟨_, _, _, _, hk, hk'⟩
    · rw [hk]
    · rw [hk, hk']
      simp only [reduceCtorEq]
  · rw [isAttached_iff, isAttached_iff, hup, size_relabel]
    exact id
  · rw [findMixin?, findMixin?, hfind, size_relabel]

theorem defines_of_findMixinUpTo (h : d.findMixinUpTo name n k = some key) :
    d.defines name key = true := by
  induction n generalizing k with
  | zero => cases h
  | succ n ih =>
    rw [findMixinUpTo] at h
    split at h
    · cases h
    · simp only at h
      split at h
      · rename_i hfind
        exact Option.some.inj h ▸ find?_some hfind
      · exact ih h

/-- A node is taken out that no use refers to. -/
theorem Sound.thins_remove (hd : d.Sound) (h : ∀ {call name extend},
    d.kindAt call = .call name extend → d.isAttached call = true →
      d.findMixin? call name ≠ some key) : Thins d (d.remove key) := by
  by_cases hroot : key = root
  · rw [hroot, remove_of_parent?_eq_none hd.root_parent]
    exact Std.Refl.refl d
  · have hup : ∀ n k, root ∈ (d.remove key).ancestorsUpTo n k → root ∈ d.ancestorsUpTo n k := by
      intro n
      induction n with
      | zero => exact fun _ => id
      | succ n ih =>
        intro k
        by_cases hk : k = key
        · simp [ancestorsUpTo, parent?_remove, hk]
        · rw [ancestorsUpTo, ancestorsUpTo, parent?_remove, if_neg hk]
          cases d.parent? k with
          | none => exact id
          | some p => simpa using Or.imp id (ih p)
    have hattached : ∀ k, (d.remove key).isAttached k = true → d.isAttached k = true := fun k => by
      rw [isAttached_iff, isAttached_iff, size_remove]
      exact Or.imp_right (hup _ k)
    refine ⟨?_, fun k _ _ => ?_, hattached, fun hcall hk => ?_⟩
    · funext name k
      rw [defines, defines, kindAt_remove]
    · rw [kindAt_remove]
    · have hfound := h hcall (hattached _ hk)
      rw [findMixin?, findMixin?, size_remove]
      exact hd.findMixinUpTo_remove hroot hfound (isAttached_iff.1 hk)

/-- A node is taken out that is no definition. -/
theorem Sound.thins_remove_of_not_defines (hd : d.Sound) (h : ∀ name, d.defines name key = false) :
    Thins d (d.remove key) :=
  hd.thins_remove fun _ _ hfound => by
    have hdefines := defines_of_findMixinUpTo hfound
    rw [h] at hdefines
    cases hdefines

/-- The uses that belong to the document are among `calls`. -/
def Lists (calls : List Key) (d : Document) : Prop :=
  ∀ {call name extend}, d.kindAt call = .call name extend → d.isAttached call = true → call ∈ calls

theorem Lists.of_thins {calls : List Key} (h : Lists calls d) (hthins : Thins d d') :
    Lists calls d' :=
  fun hcall hk => h ((hthins.call_iff _ _ _).1 hcall) (hthins.attached _ hk)

/-- With all uses listed, `d'` is thinner. -/
def ThinsIn (calls : List Key) (d d' : Document) : Prop :=
  Lists calls d → Thins d d'

instance (calls : List Key) : Std.Refl (ThinsIn calls) :=
  ⟨fun d _ => Std.Refl.refl d⟩

instance (calls : List Key) : IsTrans Document (ThinsIn calls) where
  trans _ _ _ h h' hcalls := IsTrans.trans _ _ _ (h hcalls) (h' (hcalls.of_thins (h hcalls)))

theorem Sound.thins_of_goes (hd : d.Sound) {calls : List Key} {unused : NameSet}
    (h : d.goes calls unused key = true) : ThinsIn calls d (d.remove key) := by
  intro hcalls
  rw [goes] at h
  split at h
  · rename_i own _ hkind
    have hcalled : d.isCalled calls key own = false := by
      simpa using (Bool.and_eq_true_iff.1 h).2
    refine hd.thins_remove fun {call name extend} hcall hk hfound => ?_
    have hname : own = name := by
      have hdefines := defines_of_findMixinUpTo hfound
      rw [defines, hkind] at hdefines
      exact eq_of_beq hdefines
    have hall := any_eq_false.1 hcalled call (hcalls hcall hk)
    simp [hcall, hname, hk, hfound] at hall
  all_goals first
    | cases h
    | (refine hd.thins_remove_of_not_defines fun name => ?_
       rename_i hkind
       rw [defines, hkind])

/-! ## Attached nodes -/

theorem mem_ancestorsUpTo_succ {a : Key} : a ∈ d.ancestorsUpTo (n + 1) k ↔
    ∃ c, d.parent? c = some a ∧ (k = c ∨ c ∈ d.ancestorsUpTo n k) := by
  induction n generalizing k with
  | zero => cases hp : d.parent? k <;> simp [ancestorsUpTo, hp, eq_comm]
  | succ n ih =>
    cases hp : d.parent? k with
    | none => simp [ancestorsUpTo, hp]
    | some p =>
      rw [ancestorsUpTo, hp, mem_cons, ih, ancestorsUpTo, hp]
      constructor
      · rintro (rfl | ⟨c, hc, h⟩)
        · exact ⟨k, hp, .inl rfl⟩
        · exact ⟨c, hc, .inr (mem_cons.2 (h.imp_left Eq.symm))⟩
      · rintro ⟨c, hc, rfl | h⟩
        · exact .inl (Option.some.inj (hc.symm.trans hp))
        · exact .inr ⟨c, hc, (mem_cons.1 h).imp_left Eq.symm⟩

theorem Linked.mem_preorderTo (hd : d.Linked) {a : Key} :
    k ∈ d.preorderTo n a ↔ k = a ∨ a ∈ d.ancestorsUpTo n k := by
  induction n generalizing a with
  | zero => simp [preorderTo, ancestorsUpTo]
  | succ n ih =>
    simp only [preorderTo, mem_cons, mem_flatMap, hd.mem_childKeys, ih,
      mem_ancestorsUpTo_succ]

theorem Linked.mem_preorder_root (hd : d.Linked) : k ∈ d.preorder root ↔ d.isAttached k = true := by
  rw [preorder, hd.mem_preorderTo, isAttached_iff]

end Document

/-! ## Rounds -/

theorem leads_scanScopes : Leads Thins scanScopes :=
  .look_bind fun _ => .forM fun _ =>
    .edit (fun _ hd => hd.relabel fun _ => hd.root_kind) (fun d => by simp [setScope])
      fun d _ => .relabel d _ fun _ => .inl rfl

variable {calls : List Key}

theorem leads_removeStatement (unused : NameSet) (statement : Key) :
    Leads (ThinsIn calls) (removeStatement calls unused statement) := by
  intro d hd
  refine .look_bind (.ite (fun hgoes => ?_) fun _ => .pure hd (Std.Refl.refl d))
  exact .edit_bind (size_remove d statement).ge
    (.pure (hd.remove statement) (hd.thins_of_goes hgoes))

theorem leads_removeParams (unused : NameSet) (block : Key) :
    Leads Thins (removeParams unused block) := by
  intro d hd
  refine .look_bind ?_
  split
  · exact .pure hd (Std.Refl.refl d)
  · rename_i mixin params _
    refine .look_bind ((Keeps.forM
      (fun rest d' => (∀ param ∈ rest, ∀ name, d'.defines name param = false) ∧ Thins d d')
      (fun param rest d' hd' hinv => ?_) _ hd ⟨fun param hparam name => ?_, Std.Refl.refl d⟩).bind
      fun _ d' hd' _ hinv => ?_)
    · obtain ⟨hrest, hthins⟩ := hinv
      rw [forall_mem_cons] at hrest
      have hparam := hd'.thins_remove_of_not_defines hrest.1
      refine .edit (hd'.remove param) (size_remove d' param).ge
        ⟨?_, IsTrans.trans _ _ _ hthins hparam⟩
      rw [hparam.defines_eq]
      exact hrest.2
    · have hkind := all_eq_true.1 all_takeWhile param hparam
      rw [defines]
      split at hkind
      · rename_i hkind'
        rw [hkind']
      · cases hkind
    · refine .edit_bind (by simp [updateKind]) (.pure (hd'.relabel fun _ => ?_)
        (IsTrans.trans _ _ _ hinv.2 (.relabel d' mixin fun label => ?_)))
      · show Node.losing _ (d'.kindAt root) = .sheet
        rw [hd'.root_kind]
        rfl
      · cases hkind : label.kind with
        | mixin name selector dropped => exact .inr ⟨name, selector, _, _, rfl, rfl⟩
        | _ => exact .inl rfl

theorem Leads.thinsIn {α : Type} {m : Editing α} (h : Leads Thins m) : Leads (ThinsIn calls) m :=
  fun d hd => (h d hd).weaken fun _ _ _ _ hthins _ => hthins

theorem leads_removeUnusedIn (block : Key) :
    Leads (ThinsIn calls) (removeUnusedIn calls block) := by
  refine .look_bind fun skipped => ?_
  split
  · exact .pure 0
  · refine .look_bind fun scope => ?_
    split
    · exact .failAt block _
    · split
      · exact .pure 0
      · exact .look_bind fun statements => (Leads.mapM (leads_removeStatement _)).bind fun _ =>
          (leads_removeParams _ block).thinsIn.bind fun _ => .pure _

theorem leads_removeUnused : Leads Thins removeUnused := by
  intro d hd
  refine .look_bind (.look_bind (((Leads.mapM (leads_removeUnusedIn · )) d hd).bind
    fun _ d' hd' _ hthins => .pure hd' (hthins fun hcall hk => ?_)))
  exact mem_filter.2 ⟨hd.mem_preorder_root.2 hk, by rw [hcall]⟩

/-- **Cleaning up only takes out nodes that no use that is left refers to.** -/
theorem leads_cleanUp : Leads Thins cleanUp := by
  have hall : ∀ rounds, Leads Thins (cleanUpWithin rounds) := by
    intro rounds
    induction rounds with
    | zero => exact leads_scanScopes
    | succ rounds ih =>
      refine leads_scanScopes.bind fun _ => leads_removeUnused.bind fun removed => ?_
      split
      · exact .pure ()
      · exact ih
  exact .look_bind fun _ => hall _

/-- The document that holds a parsed stylesheet is sound. -/
theorem sound_of_parse {source : Source} {tree : Node} (h : parse source = .ok tree) :
    (Document.ofTree source.file tree).Sound :=
  sound_ofTree _ (parse_shaped h).1

/-- **Cleaning up never changes what a use refers to.**  If it succeeds on a parsed stylesheet, a use
that is left was there before, and the same definition, or none, is found for it. -/
theorem cleanUp_keeps_references {source : Source} {tree : Node} (h : parse source = .ok tree)
    (hrun : cleanUp (Document.ofTree source.file tree) = (.ok (), d')) (hcall : call ∈ d'.preorder root)
    {extend : Bool} (hkind : d'.kindAt call = .call name extend) :
    call ∈ (Document.ofTree source.file tree).preorder root ∧
      (Document.ofTree source.file tree).kindAt call = .call name extend ∧
      d'.findMixin? call name = (Document.ofTree source.file tree).findMixin? call name := by
  have hd := sound_of_parse h
  have hkeeps := leads_cleanUp _ hd
  have hd' : d'.Sound := by
    have hsound := hkeeps.sound
    rwa [hrun] at hsound
  have hthins : Thins (Document.ofTree source.file tree) d' := by
    have hpost := hkeeps.post () (by rw [hrun])
    rwa [hrun] at hpost
  have hattached := hd'.mem_preorder_root.1 hcall
  have hkind' := (hthins.call_iff call name extend).1 hkind
  exact ⟨hd.mem_preorder_root.2 (hthins.attached call hattached), hkind',
    hthins.findMixin?_eq hkind' hattached⟩

/-- A mixin that is used only in a mixin that nobody uses, and one that is used there and in a
rule. -/
def cleaningSample : Source where
  text := "$k\x7ba:b;\x7d$m\x7b$k;\x7d$n\x7b$m;\x7d.x\x7b$k;\x7d"

/-- In two rounds two of the mixins go.  The use that is left referred to the first mixin before. -/
theorem cleanUp_keeps_references_sample :
    ∃ tree d' extend, parse cleaningSample = .ok tree ∧
      cleanUp (Document.ofTree none tree) = (.ok (), d') ∧ (d'.preorder root).length = 10 ∧
      18 ∈ d'.preorder root ∧ d'.kindAt 18 = .call "k" extend ∧
      (Document.ofTree none tree).findMixin? 18 "k" = some 1 := by
  have hrun : ((parse cleaningSample).map fun tree =>
      let run := cleanUp (Document.ofTree none tree)
      (run.1.toBool, (run.2.preorder root).length, (run.2.preorder root).contains 18,
        run.2.isCalled [18] 1 "k")) = .ok (true, 10, true, true) := by
    decide +kernel
  obtain ⟨tree, hparse, hall⟩ := map_eq_ok.1 hrun
  cases hclean : cleanUp (Document.ofTree none tree) with
  | mk outcome d' =>
    simp only [hclean, Prod.mk.injEq, contains_iff_mem] at hall
    obtain ⟨hok, hlength, hmem, hcalled⟩ := hall
    cases outcome with
    | error => cases hok
    | ok =>
      rw [isCalled, any_cons, any_nil, Bool.or_false] at hcalled
      split at hcalled
      · rename_i callee extend hkind
        simp only [Bool.and_eq_true, beq_iff_eq] at hcalled
        obtain ⟨⟨rfl, -⟩, hfind⟩ := hcalled
        have hkeeps := cleanUp_keeps_references hparse hclean hmem hkind
        exact ⟨tree, d', extend, hparse, hclean, hlength, hmem, hkind,
          hkeeps.2.2.symm.trans hfind⟩
      · cases hcalled

end Cascade
