import Cascade.Document.Editing
import Cascade.Proofs.Copies

/-!
# Computations that keep documents sound

A computation that edits a document is followed step by step.  At every step the document is sound,
and it never has fewer nodes than before, so that a key that was given out stays good.
-/

set_option autoImplicit false

namespace Cascade

open Document Editing List

variable {α β : Type} {d : Document} {change : Document → Document} {key : Key}

/-! ## Documents -/

namespace Document

variable {key k : Key} {d' : Document}

theorem kindAt_relabel_of_ne {change : Label → Label} (h : k ≠ key) :
    (d.relabel key change).kindAt k = d.kindAt k := by
  rw [kindAt, kindAt, labelAt, labelAt, label?, label?, relabel, cells_update, if_neg (Ne.symm h)]

theorem Preserves.relabel {base : Nat} {zone : Key → Prop} (h : Preserves base zone d d')
    (hkey : base ≤ key) (change : Label → Label) :
    Preserves base zone d (d'.relabel key change) where
  size_le := h.size_le.trans (by simp)
  kindAt_eq k hk := by
    rw [kindAt_relabel_of_ne (hk.trans_le hkey).ne, h.kindAt_eq k hk]
  moves k hk p hp := h.moves k hk p (parent?_relabel d' key change k ▸ hp)

namespace Sound

variable (hd : d.Sound)

include hd

/-- Labels may change as long as the root stays a stylesheet. -/
theorem relabel {change : Label → Label} (h : key = root → (change (d.labelAt root)).kind = .sheet) :
    (d.relabel key change).Sound where
  toLinked := hd.toLinked.of_eq (parent?_relabel d key change) (childKeys_relabel d key change)
  root_lt := by
    rw [size_relabel]
    exact hd.root_lt
  root_kind := by
    by_cases hkey : key = root
    · subst hkey
      rw [kindAt_relabel _ (by rw [h rfl, hd.root_kind]), hd.root_kind]
    · rw [kindAt_relabel_of_ne (Ne.symm hkey), hd.root_kind]
  root_parent := by rw [parent?_relabel, hd.root_parent]

theorem ne_root_of_parent? {p : Key} (h : d.parent? k = some p) : k ≠ root := by
  rintro rfl
  rw [hd.root_parent] at h
  cases h

theorem ne_root_of_kindAt (h : d.kindAt k ≠ .sheet) : k ≠ root := by
  rintro rfl
  exact h hd.root_kind

theorem remove (key : Key) : (d.remove key).Sound :=
  (hd.toLinked.remove key root).sound hd (by simp)

theorem takeChildren (key : Key) : (d.takeChildren key).1.Sound :=
  (hd.toLinked.takeChildren key root).sound hd (by simp)

end Sound

/-- A node that is there and can be put somewhere else. -/
structure Movable (d : Document) (key : Key) : Prop where
  lt_size : key < d.cells.size
  ne_root : key ≠ root

theorem Movable.mono (h : d.Movable key) (hsize : d.cells.size ≤ d'.cells.size) : d'.Movable key :=
  ⟨h.lt_size.trans_le hsize, h.ne_root⟩

theorem Sound.movable_of_parent? (hd : d.Sound) {p : Key} (h : d.parent? k = some p) :
    d.Movable k :=
  ⟨lt_size_of_parent? h, hd.ne_root_of_parent? h⟩

theorem Sound.movable_of_kindAt (hd : d.Sound) (h : d.kindAt k ≠ .sheet) : d.Movable k :=
  ⟨lt_size_of_kindAt h, hd.ne_root_of_kindAt h⟩

theorem Fresh.movable {keys : List Key} (h : Fresh d d' keys) (hd : d.Sound) (hk : k ∈ keys) :
    d'.Movable k :=
  ⟨h.lt_size k hk, h.ne_root hd hk⟩

end Document

/-! ## Computations -/

/-- Run on `d`, a computation leaves a sound document with no fewer nodes, also if it fails; and if
it succeeds, `post` holds of its result and the document. -/
structure Keeps (d : Document) (editing : Editing α) (post : α → Document → Prop) : Prop where
  sound : (editing d).2.Sound
  size_le : d.cells.size ≤ (editing d).2.cells.size
  post : ∀ a, (editing d).1 = .ok a → post a (editing d).2

/-- A computation that keeps every document sound and, if it succeeds, turns it into one that stands
in the relation `R` to it. -/
def Leads (R : Document → Document → Prop) (editing : Editing α) : Prop :=
  ∀ d : Document, d.Sound → Keeps d editing fun _ d' => R d d'

/-- A computation that keeps every document sound. -/
abbrev Safe (editing : Editing α) : Prop :=
  Leads (fun _ _ => True) editing

namespace Keeps

variable {m : Editing α} {f : α → Editing β} {mid : α → Document → Prop}
  {post : β → Document → Prop} (keysOf : β → List Key)

theorem pure {a : β} (hd : d.Sound) (h : post a d) : Keeps d (Pure.pure a) post where
  sound := hd
  size_le := le_rfl
  post b hb := by
    cases hb
    exact h

theorem bind (hm : Keeps d m mid)
    (hf : ∀ a d', d'.Sound → d.cells.size ≤ d'.cells.size → mid a d' → Keeps d' (f a) post) :
    Keeps d (m >>= f) post := by
  have hbind : (m >>= f) d = ExceptT.bindCont f (m d).1 (m d).2 := rfl
  obtain ⟨hsound, hsize, hpost⟩ := hm
  generalize m d = run at hbind hsound hsize hpost
  obtain ⟨outcome, d'⟩ := run
  cases outcome with
  | error e =>
    refine ⟨hbind ▸ hsound, hbind ▸ hsize, fun a ha => ?_⟩
    rw [hbind] at ha
    cases ha
  | ok a =>
    obtain ⟨hsound', hsize', hpost'⟩ := hf a d' hsound hsize (hpost a rfl)
    exact ⟨hbind ▸ hsound', hbind ▸ hsize.trans hsize', hbind ▸ hpost'⟩

theorem weaken {post' : β → Document → Prop} {m : Editing β} (hm : Keeps d m post)
    (h : ∀ b d', d'.Sound → d.cells.size ≤ d'.cells.size → post b d' → post' b d') :
    Keeps d m post' :=
  ⟨hm.sound, hm.size_le, fun b hb => h b _ hm.sound hm.size_le (hm.post b hb)⟩

theorem forget (hm : Keeps d m mid) : Keeps d m fun _ _ => True :=
  hm.weaken fun _ _ _ _ _ => trivial

theorem done {f : α → β} (hm : Keeps d m mid) :
    Keeps d (do Pure.pure (f (← m))) fun _ _ => True :=
  hm.bind fun _ _ hd' _ _ => pure hd' trivial

/-- What was read is known to be what the document said. -/
theorem look_bind {read : Document → α} (h : Keeps d (f (read d)) post) :
    Keeps d (Editing.look read >>= f) post :=
  ⟨h.sound, h.size_le, h.post⟩

theorem edit {post : Unit → Document → Prop} (hd : (change d).Sound)
    (hsize : d.cells.size ≤ (change d).cells.size) (h : post () (change d)) :
    Keeps d (Editing.edit change) post where
  sound := hd
  size_le := hsize
  post _ _ := h

theorem edit_bind {f : Unit → Editing β} (hsize : d.cells.size ≤ (change d).cells.size)
    (h : Keeps (change d) (f ()) post) : Keeps d (Editing.edit change >>= f) post :=
  ⟨h.sound, hsize.trans h.size_le, h.post⟩

theorem make_bind {change : Document → Document × α}
    (hsize : d.cells.size ≤ (change d).1.cells.size)
    (h : Keeps (change d).1 (f (change d).2) post) : Keeps d (Editing.make change >>= f) post :=
  ⟨h.sound, hsize.trans h.size_le, h.post⟩

theorem failAt {cause : Cause} (hd : d.Sound) : Keeps d (Editing.failAt key cause) post :=
  ⟨hd, le_rfl, nofun⟩

theorem ofExcept {outcome : Except Error β} (hd : d.Sound) :
    Keeps d (Editing.ofExcept outcome) fun b d' => outcome = .ok b ∧ d' = d :=
  ⟨hd, le_rfl, fun _ hb => ⟨hb, rfl⟩⟩

theorem ofResult {result : Except EvalError β} (hd : d.Sound) :
    Keeps d (Editing.ofResult key result) fun b d' => result = .ok b ∧ d' = d := by
  cases result with
  | error error => exact failAt hd
  | ok b => exact pure hd ⟨rfl, rfl⟩

theorem ite {c : Prop} [Decidable c] {m m' : Editing β} (h : c → Keeps d m post)
    (h' : ¬ c → Keeps d m' post) : Keeps d (if c then m else m') post := by
  split
  · exact h ‹_›
  · exact h' ‹_›

/-! ## Loops -/

/-- What every round of a loop keeps, the loop keeps.  The invariant may speak of what is still to
come. -/
theorem forM {f : α → Editing PUnit} (inv : List α → Document → Prop)
    (hstep : ∀ a rest d', d'.Sound → inv (a :: rest) d' → Keeps d' (f a) fun _ d'' => inv rest d'')
    (as : List α) (hd : d.Sound) (h : inv as d) :
    Keeps d (as.forM f) fun _ d' => inv [] d' := by
  induction as generalizing d with
  | nil => exact pure hd h
  | cons a rest ih =>
    exact (hstep a rest d hd h).bind fun _ d' hd' _ hinv => ih hd' hinv

theorem foldlM {f : β → α → Editing β} (inv : List α → β → Document → Prop)
    (hstep : ∀ a rest b d', d'.Sound → inv (a :: rest) b d' →
      Keeps d' (f b a) fun b' d'' => inv rest b' d'')
    (as : List α) {b : β} (hd : d.Sound) (h : inv as b d) :
    Keeps d (as.foldlM f b) fun b' d' => inv [] b' d' := by
  induction as generalizing b d with
  | nil => exact pure hd h
  | cons a rest ih =>
    exact (hstep a rest b d hd h).bind fun b' d' hd' _ hinv => ih hd' hinv

/-- A loop that makes new nodes in every round: all of them are new and different. -/
theorem mapM_fresh (hstep : ∀ a d, d.Sound → Keeps d (f a) fun b d' => Fresh d d' (keysOf b))
    (as : List α) (hd : d.Sound) :
    Keeps d (as.mapM f) fun bs d' => Fresh d d' (bs.flatMap keysOf) := by
  induction as generalizing d with
  | nil =>
    rw [mapM_nil]
    exact pure hd (.nil (.refl d))
  | cons a rest ih =>
    rw [mapM_cons]
    refine (hstep a d hd).bind fun b d' hd' _ hb => (ih hd').bind fun bs d'' hd'' _ hbs => ?_
    exact pure hd'' (hb.append hbs)

/-- A loop that gives nodes that can be put somewhere else. -/
theorem mapM_movable {as : List α}
    (hstep : ∀ a ∈ as, ∀ d', d'.Sound → d.cells.size ≤ d'.cells.size →
      Keeps d' (f a) fun b d'' => ∀ k ∈ keysOf b, d''.Movable k)
    (hd : d.Sound) : Keeps d (as.mapM f) fun bs d' => ∀ k ∈ bs.flatMap keysOf, d'.Movable k := by
  induction as generalizing d with
  | nil =>
    rw [mapM_nil]
    exact pure hd (by simp)
  | cons a rest ih =>
    rw [forall_mem_cons] at hstep
    rw [mapM_cons]
    refine (hstep.1 d hd le_rfl).bind fun b d' hd' hsize hb => ?_
    refine (ih (fun a ha d'' hd'' hsize' => hstep.2 a ha d'' hd'' (hsize.trans hsize'))
      hd').bind fun bs d'' hd'' hsize' hbs => pure hd'' fun k hk => ?_
    rw [flatMap_cons, mem_append] at hk
    rcases hk with hk | hk
    · exact (hb k hk).mono hsize'
    · exact hbs k hk

end Keeps

namespace Leads

variable {R : Document → Document → Prop} {m : Editing α} {f : α → Editing β}

theorem safe (h : Leads R m) : Safe m := fun d hd => (h d hd).forget

theorem failAt (key : Key) (cause : Cause) : Leads R (Editing.failAt key cause : Editing α) :=
  fun _ hd => .failAt hd

theorem look_bind {read : Document → α} (hf : ∀ a, Leads R (f a)) :
    Leads R (Editing.look read >>= f) :=
  fun d hd => .look_bind (hf (read d) d hd)

theorem edit (h : ∀ d, d.Sound → (change d).Sound)
    (hsize : ∀ d, (change d).cells.size = d.cells.size) (hR : ∀ d, d.Sound → R d (change d)) :
    Leads R (Editing.edit change) := fun d hd =>
  .edit (h d hd) (hsize d).ge (hR d hd)

theorem pure [Std.Refl R] (a : α) : Leads R (Pure.pure a) := fun d hd =>
  .pure hd (Std.Refl.refl d)

variable [IsTrans Document R]

theorem bind (hm : Leads R m) (hf : ∀ a, Leads R (f a)) : Leads R (m >>= f) := fun d hd =>
  (hm d hd).bind fun a d' hd' _ h =>
    (hf a d' hd').weaken fun _ _ _ _ h' => IsTrans.trans _ _ _ h h'

variable [Std.Refl R]

theorem forM {f : α → Editing PUnit} {as : List α} (h : ∀ a, Leads R (f a)) :
    Leads R (as.forM f) := by
  induction as with
  | nil => exact pure ()
  | cons a rest ih => exact (h a).bind fun _ => ih

theorem mapM {as : List α} (h : ∀ a, Leads R (f a)) : Leads R (as.mapM f) := by
  induction as with
  | nil =>
    rw [mapM_nil]
    exact pure []
  | cons a rest ih =>
    rw [mapM_cons]
    exact (h a).bind fun b => ih.bind fun bs => pure (b :: bs)

end Leads

namespace Safe

instance : Std.Refl fun _ _ : Document => True :=
  ⟨fun _ => trivial⟩

instance : IsTrans Document fun _ _ => True :=
  ⟨fun _ _ _ _ _ => trivial⟩

theorem ofExcept (outcome : Except Error α) : Safe (Editing.ofExcept outcome) := fun _ hd =>
  (Keeps.ofExcept hd).forget

theorem remove (key : Key) : Safe (Editing.edit (·.remove key)) :=
  .edit (fun _ hd => hd.remove key) (fun d => size_remove d key) fun _ _ => trivial

end Safe

/-! ## New nodes -/

/-- New nodes are planted. -/
theorem Keeps.planted {tree : Node} {f : Document → Document × Key} (hd : d.Sound)
    (h : Planted d (f d).1 (f d).2 tree) : Keeps d (make f) fun key d' => Planted d d' key tree :=
  ⟨h.sound hd, h.toExtends.size_le, fun key hkey => by
    cases hkey
    exact h⟩

theorem Keeps.push (label : Label) (hd : d.Sound) :
    Keeps d (make (·.push label)) fun key d' => Planted d d' key (.mk label []) :=
  .planted hd (hd.toLinked.push label)

theorem Keeps.plant (tree : Node) (hd : d.Sound) :
    Keeps d (make (·.plant tree)) fun key d' => Planted d d' key tree :=
  .planted hd (hd.toLinked.plant tree)

theorem Keeps.deepClone (key : Key) (hd : d.Sound) :
    Keeps d (make (·.deepClone key)) fun copy d' => Planted d d' copy (d.view key).copied :=
  .planted hd (hd.toLinked.deepClone key)

theorem Keeps.deepClones (keys : List Key) (hd : d.Sound) :
    Keeps d (Editing.deepClones keys) fun copies d' => Fresh d d' copies := by
  have hall := Keeps.mapM_fresh (fun key => [key])
    (fun key d hd => (Keeps.deepClone key hd).weaken fun _ _ _ _ h => h.fresh) keys hd
  exact hall.weaken fun copies d' _ _ h => by simpa using h

/-- Putting a node behind the children of another one, in a named place. -/
theorem Keeps.appendAs {parent : Key} {relation : Relation} (hd : d.Sound) (hkey : d.Movable key)
    (hparent : parent < d.cells.size) (h : ¬ d.Above key parent) :
    Keeps d (Editing.edit (·.appendAs parent key relation)) fun _ d' =>
      Rearranges d d' [key] parent ∧
        ∀ k, d'.parent? k = if k = key then some parent else d.parent? k := by
  have happend := (hd.toLinked.append hkey.lt_size hparent h).setRelation key (some relation)
  refine .edit (happend.sound hd ?_) happend.size_eq.ge ⟨happend, fun k => ?_⟩
  · simpa using Ne.symm hkey.ne_root
  · rw [Document.appendAs, setRelation, parent?_relabel, parent?_append parent hkey.lt_size]

theorem Keeps.append {parent : Key} (hd : d.Sound) (hkey : d.Movable key)
    (hparent : parent < d.cells.size) (h : ¬ d.Above key parent) :
    Keeps d (Editing.edit (·.append parent key)) fun _ d' =>
      Rearranges d d' [key] parent ∧
        ∀ k, d'.parent? k = if k = key then some parent else d.parent? k := by
  have happend := hd.toLinked.append hkey.lt_size hparent h
  refine .edit (happend.sound hd ?_) happend.size_eq.ge
    ⟨happend, parent?_append parent hkey.lt_size⟩
  simpa using Ne.symm hkey.ne_root

/-- **A new rule around statements.**  Besides the statements no node gets another parent. -/
theorem Keeps.enclose (label : Label) {statements : List Key} (hd : d.Sound)
    (h : ∀ key ∈ statements, d.Movable key) :
    Keeps d (Editing.enclose label statements) fun rule d' =>
      rule = d.cells.size ∧ rule < d'.cells.size ∧
        Preserves d.cells.size (· ∈ statements) d d' := by
  refine (Keeps.push label hd).bind fun rule d₁ hd₁ _ hrule => ?_
  refine (Keeps.push _ hd₁).bind fun block d₂ hd₂ hsize₂ hblock => ?_
  have hnew : d.cells.size ≤ rule := hrule.key_eq.ge
  have hlt : rule < block := hblock.key_eq ▸ hrule.key_lt
  have hnew' : d.cells.size ≤ block := hnew.trans hlt.le
  have htop : d₂.parent? rule = none :=
    hblock.toExtends.parent?_eq_none hrule.key_lt hrule.parent?_key
  refine (Keeps.appendAs hd₂ (hblock.fresh.movable hd₁ (by simp))
    (hrule.key_lt.trans_le hsize₂) fun habove =>
    hlt.ne' (habove.eq_of_parent?_eq_none htop)).bind fun _ d₃ hd₃ _ ⟨hplaced, hparent₃⟩ => ?_
  -- the way up from the block is the block and the rule, both new
  refine (Keeps.forM (fun rest d' => (∀ key ∈ rest, key ∈ statements) ∧
      d'.parent? block = some rule ∧ d'.parent? rule = none ∧
      Preserves d.cells.size (· ∈ statements) d d')
    (fun key rest d' hd' hinv => ?_) statements hd₃ ?_).bind fun _ d' hd' _ hinv => ?_
  · obtain ⟨hmem, hblock', hrule', hinv⟩ := hinv
    rw [forall_mem_cons] at hmem
    have hkey := h key hmem.1
    have hkr : key < rule := hkey.lt_size.trans_le hnew
    have hkb : key < block := hkr.trans hlt
    have habove : ¬ d'.Above key block := by
      intro habove
      cases habove with
      | self => exact Nat.lt_irrefl _ hkb
      | step hp habove =>
        rw [hblock'] at hp
        cases hp
        exact hkr.ne (habove.eq_of_parent?_eq_none hrule')
    refine (Keeps.append hd' (hkey.mono hinv.size_le) (lt_size_of_parent? hblock') habove).weaken
      fun _ d'' _ _ ⟨hplaced, hparent⟩ => ⟨hmem.2, ?_, ?_, hinv.trans (hplaced.preserves ?_)⟩
    · rw [hparent, if_neg hkb.ne', hblock']
    · rw [hparent, if_neg hkr.ne', hrule']
    · exact forall_mem_singleton.2 (.inr ⟨hnew', hmem.1⟩)
  · refine ⟨fun _ => id, by rw [hparent₃, if_pos rfl], ?_, ?_⟩
    · rw [hparent₃, if_neg hlt.ne, htop]
    · exact ((hrule.toExtends.trans hblock.toExtends).mono le_rfl fun _ _ => False.elim).trans
        (hplaced.preserves (forall_mem_singleton.2 (.inl hnew')))
  · exact .pure hd' ⟨hrule.key_eq, hd'.lt_size_of_parent? hinv.2.1, hinv.2.2.2⟩

end Cascade
