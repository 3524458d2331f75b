import Cascade.Document
import Mathlib.Data.List.Nodup

/-!
# Links of a document

In a document every node names its parent and its children.  This file says when the two agree, and
that the edits keep it so.  A node may be put below another one if it is not above it; then no way
up ever closes.
-/

set_option autoImplicit false

namespace Cascade

open List

variable {target a : Key} {moved : List Key}

namespace Document

variable {d d' : Document} {k p key : Key} {α : Type}

/-! ## Single changes -/

@[simp] theorem size_update (d : Document) (key : Key) (change : Cell → Cell) :
    (d.update key change).cells.size = d.cells.size :=
  Array.size_modify

theorem cells_update (d : Document) (key k : Key) (change : Cell → Cell) :
    (d.update key change).cells[k]? = if key = k then d.cells[k]?.map change else d.cells[k]? :=
  Array.getElem?_modify

/-- What a change leaves as it is, it leaves as it is in all nodes. -/
theorem cells_update_of_eq (d : Document) (key k : Key) (change : Cell → Cell)
    (read : Option Cell → α) (h : ∀ cell, read (some (change cell)) = read (some cell)) :
    read (d.update key change).cells[k]? = read d.cells[k]? := by
  rw [cells_update]
  split
  · cases d.cells[k]? with
    | none => rfl
    | some cell => exact h cell
  · rfl

theorem parent?_eq_none_of_size_le (h : d.cells.size ≤ k) : d.parent? k = none := by
  rw [parent?, Array.getElem?_eq_none h]
  rfl

theorem lt_size_of_parent? (h : d.parent? k = some p) : k < d.cells.size := by
  by_contra hlt
  rw [parent?_eq_none_of_size_le (Nat.not_lt.1 hlt)] at h
  cases h

theorem childKeys_eq_nil_of_size_le (h : d.cells.size ≤ p) : d.childKeys p = [] := by
  rw [childKeys, Array.getElem?_eq_none h]
  rfl

theorem lt_size_of_mem_childKeys (h : k ∈ d.childKeys p) : p < d.cells.size := by
  by_contra hlt
  rw [childKeys_eq_nil_of_size_le (Nat.not_lt.1 hlt)] at h
  cases h

/-- A key whose kind is not that of a stylesheet has been given out. -/
theorem lt_size_of_kindAt (h : d.kindAt k ≠ .sheet) : k < d.cells.size := by
  by_contra hlt
  refine h ?_
  rw [kindAt, labelAt, label?, Array.getElem?_eq_none (Nat.not_lt.1 hlt)]
  rfl

/-- What a change sets, it sets in one node. -/
theorem cells_update_of_const {a : α} (change : Cell → Cell) (read : Option Cell → α)
    (hkey : key < d.cells.size) (h : ∀ cell, read (some (change cell)) = a) (k : Key) :
    read (d.update key change).cells[k]? = if k = key then a else read d.cells[k]? := by
  rw [cells_update]
  by_cases hk : k = key
  · subst hk
    rw [if_pos rfl, if_pos rfl, Array.getElem?_eq_getElem hkey]
    exact h _
  · rw [if_neg (Ne.symm hk), if_neg hk]

theorem parent?_setParent (parent : Option Key) (h : key < d.cells.size) (k : Key) :
    (d.setParent key parent).parent? k = if k = key then parent else d.parent? k :=
  cells_update_of_const (fun cell => { cell with parent }) (fun cell => cell.bind Cell.parent) h
    (fun _ => rfl) k

theorem childKeys_setChildren (children : List Key) (h : key < d.cells.size) (k : Key) :
    (d.setChildren key children).childKeys k = if k = key then children else d.childKeys k :=
  cells_update_of_const (fun cell => { cell with children })
    (fun cell => (cell.map Cell.children).getD []) h (fun _ => rfl) k

section

variable (d : Document) (key : Key) (parent : Option Key) (children : List Key)
  (change : Label → Label) (k : Key)

@[simp] theorem size_setParent : (d.setParent key parent).cells.size = d.cells.size :=
  size_update ..

@[simp] theorem size_setChildren : (d.setChildren key children).cells.size = d.cells.size :=
  size_update ..

@[simp] theorem size_relabel : (d.relabel key change).cells.size = d.cells.size :=
  size_update ..

@[simp] theorem childKeys_setParent : (d.setParent key parent).childKeys k = d.childKeys k :=
  cells_update_of_eq d key k (fun cell => { cell with parent })
    (fun cell => (cell.map Cell.children).getD []) fun _ => rfl

/-- A node loses its parent, whether it has been given out or not. -/
theorem parent?_setParent_none :
    (d.setParent key none).parent? k = if k = key then none else d.parent? k := by
  by_cases h : key < d.cells.size
  · exact parent?_setParent none h k
  · have hsize : d.cells.size ≤ key := Nat.not_lt.1 h
    by_cases hk : k = key
    · subst hk
      rw [if_pos rfl, parent?_eq_none_of_size_le (by rwa [size_setParent])]
    · rw [if_neg hk, parent?, parent?, setParent, cells_update, if_neg (Ne.symm hk)]

@[simp] theorem parent?_setChildren : (d.setChildren key children).parent? k = d.parent? k :=
  cells_update_of_eq d key k (fun cell => { cell with children })
    (fun cell => cell.bind Cell.parent) fun _ => rfl

@[simp] theorem parent?_relabel : (d.relabel key change).parent? k = d.parent? k :=
  cells_update_of_eq d key k (fun cell => { cell with label := change cell.label })
    (fun cell => cell.bind Cell.parent) fun _ => rfl

@[simp] theorem childKeys_relabel : (d.relabel key change).childKeys k = d.childKeys k :=
  cells_update_of_eq d key k (fun cell => { cell with label := change cell.label })
    (fun cell => (cell.map Cell.children).getD []) fun _ => rfl

@[simp] theorem label?_setParent : (d.setParent key parent).label? k = d.label? k :=
  cells_update_of_eq d key k (fun cell => { cell with parent })
    (fun cell => cell.map Cell.label) fun _ => rfl

@[simp] theorem label?_setChildren : (d.setChildren key children).label? k = d.label? k :=
  cells_update_of_eq d key k (fun cell => { cell with children })
    (fun cell => cell.map Cell.label) fun _ => rfl

@[simp] theorem kindAt_setParent : (d.setParent key parent).kindAt k = d.kindAt k := by
  rw [kindAt, kindAt, labelAt, labelAt, label?_setParent]

@[simp] theorem kindAt_setChildren : (d.setChildren key children).kindAt k = d.kindAt k := by
  rw [kindAt, kindAt, labelAt, labelAt, label?_setChildren]

end

/-- A change of labels leaves the kinds as they are if it leaves those as they are that occur. -/
theorem kindAt_relabel (change : Label → Label) (h : (change (d.labelAt key)).kind = d.kindAt key)
    (k : Key) : (d.relabel key change).kindAt k = d.kindAt k := by
  rw [kindAt, kindAt, labelAt, labelAt, label?, label?, relabel, cells_update]
  split
  · rename_i hk
    subst hk
    rw [kindAt, labelAt, label?] at h
    cases hcell : d.cells[key]? with
    | none => rfl
    | some cell =>
      rw [hcell] at h
      exact h
  · rfl

@[simp] theorem kindAt_setRelation (d : Document) (key : Key) (relation : Option Relation)
    (k : Key) : (d.setRelation key relation).kindAt k = d.kindAt k :=
  kindAt_relabel (fun label => { label with relation }) rfl k

@[simp] theorem size_push (d : Document) (label : Label) :
    (d.push label).1.cells.size = d.cells.size + 1 :=
  Array.size_push ..

theorem cells_push (label : Label) (h : k < d.cells.size) :
    (d.push label).1.cells[k]? = d.cells[k]? :=
  Array.getElem?_push_lt h ▸ (Array.getElem?_eq_getElem h).symm

/-- As long as its label is not read, a new node is as if it were not there. -/
theorem cells_push_of_eq (d : Document) (label : Label) (k : Key) (read : Option Cell → α)
    (h : read (some { label }) = read none) :
    read (d.push label).1.cells[k]? = read d.cells[k]? := by
  rcases Nat.lt_trichotomy k d.cells.size with hk | rfl | hk
  · rw [cells_push label hk]
  · rw [push, Array.getElem?_push_size, Array.getElem?_eq_none (Nat.le_refl _), h]
  · rw [Array.getElem?_eq_none (Nat.le_of_lt hk), Array.getElem?_eq_none]
    rw [size_push]
    omega

@[simp] theorem parent?_push (d : Document) (label : Label) (k : Key) :
    (d.push label).1.parent? k = d.parent? k :=
  cells_push_of_eq d label k (fun cell => cell.bind Cell.parent) rfl

@[simp] theorem childKeys_push (d : Document) (label : Label) (k : Key) :
    (d.push label).1.childKeys k = d.childKeys k :=
  cells_push_of_eq d label k (fun cell => (cell.map Cell.children).getD []) rfl

/-- What every step of a loop leaves as it is, the loop leaves as it is. -/
theorem foldl_eq_of_step (read : Document → α) (step : Document → Key → Document)
    (h : ∀ d key, read (step d key) = read d) (keys : List Key) (d : Document) :
    read (keys.foldl step d) = read d := by
  induction keys generalizing d with
  | nil => rfl
  | cons key rest ih => rw [foldl_cons, ih, h]

/-- If every step of a loop sets one parent, the loop sets all of them. -/
theorem parent?_foldl (parent : Option Key) {step : Document → Key → Document}
    (hsize : ∀ d key, (step d key).cells.size = d.cells.size)
    (h : ∀ d key, key < d.cells.size → ∀ k,
      (step d key).parent? k = if k = key then parent else d.parent? k)
    (keys : List Key) (d : Document) (hkeys : ∀ key ∈ keys, key < d.cells.size) (k : Key) :
    (keys.foldl step d).parent? k = if k ∈ keys then parent else d.parent? k := by
  induction keys generalizing d with
  | nil => simp
  | cons key rest ih =>
    rw [forall_mem_cons] at hkeys
    rw [foldl_cons, ih _ (by simpa [hsize] using hkeys.2), h d key hkeys.1]
    by_cases hk : k = key
    · simp [hk]
    · simp [hk]

/-! ## The way up -/

/-- `a` is `key` or one of the nodes above it. -/
inductive Above (d : Document) (a : Key) : Key → Prop
  | self : d.Above a a
  | step {key parent : Key} : d.parent? key = some parent → d.Above a parent → d.Above a key

/-- Following parents from a node comes to an end. -/
inductive Ends (d : Document) : Key → Prop
  | top {key : Key} : d.parent? key = none → d.Ends key
  | step {key parent : Key} : d.parent? key = some parent → d.Ends parent → d.Ends key

theorem Above.parent (h : d.parent? key = some a) : d.Above a key :=
  .step h .self

theorem Above.trans {b c : Key} (hab : d.Above a b) (hbc : d.Above b c) : d.Above a c := by
  induction hbc with
  | self => exact hab
  | step h _ ih => exact .step h ih

/-- A node without a parent has nothing above it. -/
theorem Above.eq_of_parent?_eq_none (h : d.Above a key) (hkey : d.parent? key = none) :
    a = key := by
  cases h with
  | self => rfl
  | step hp _ =>
    rw [hkey] at hp
    cases hp

/-- A way up that ends does not come back. -/
theorem Ends.not_above (h : d.Ends key) (hp : d.parent? key = some p) : ¬ d.Above key p := by
  induction h generalizing p with
  | top hnone =>
    rw [hnone] at hp
    cases hp
  | step hq _ ih =>
    rw [hq] at hp
    cases hp
    intro habove
    cases habove with
    | self => exact ih hq .self
    | step hr habove => exact ih hr ((Above.parent hq).trans habove)

/-- `d'` differs from `d` in that some nodes have no parent any more and the nodes in `moved` have
the parent `target`. -/
def Moves (d d' : Document) (moved : List Key) (target : Key) : Prop :=
  ∀ k p, d'.parent? k = some p → d.parent? k = some p ∨ k ∈ moved ∧ p = target

/-- The nodes in `moved` get the parent `target` and those in `gone` lose theirs. -/
theorem Moves.of_eq {gone : List Key} (h : ∀ k, d'.parent? k =
    if k ∈ moved then some target else if k ∈ gone then none else d.parent? k) :
    Moves d d' moved target := by
  intro k p hp
  rw [h] at hp
  by_cases hmoved : k ∈ moved
  · rw [if_pos hmoved] at hp
    exact .inr ⟨hmoved, (Option.some.inj hp).symm⟩
  · rw [if_neg hmoved] at hp
    by_cases hgone : k ∈ gone
    · rw [if_pos hgone] at hp
      cases hp
    · rw [if_neg hgone] at hp
      exact .inl hp

/-- A node that is not moved gets no parent. -/
theorem Moves.parent?_eq_none (h : Moves d d' moved target) (hk : k ∉ moved)
    (hnone : d.parent? k = none) : d'.parent? k = none := by
  refine Option.eq_none_iff_forall_ne_some.2 fun p hp => ?_
  rcases h k p hp with hp | ⟨hmoved, -⟩
  · rw [hnone] at hp
    cases hp
  · exact hk hmoved

/-- Unless a moved node is above it, nothing new comes to be above a node. -/
theorem Moves.above (h : Moves d d' moved target) (hkey : ∀ x ∈ moved, ¬ d.Above x key)
    (ha : d'.Above a key) : d.Above a key := by
  induction ha with
  | self => exact .self
  | @step key parent hp _ ih =>
    rcases h key parent hp with hp | ⟨hmoved, -⟩
    · exact .step hp (ih fun x hx hx' => hkey x hx (.step hp hx'))
    · exact absurd .self (hkey key hmoved)

/-- Induction along a way up. -/
theorem Ends.ind {motive : Key → Prop} (h : d.Ends key)
    (step : ∀ k, (∀ p, d.parent? k = some p → motive p) → motive k) : motive key := by
  induction h with
  | top hnone =>
    refine step _ fun p hp => ?_
    rw [hnone] at hp
    cases hp
  | step hq _ ih =>
    refine step _ fun p hp => ?_
    rw [hq] at hp
    cases hp
    exact ih

theorem Ends.of_parent (h : ∀ p, d.parent? k = some p → d.Ends p) : d.Ends k := by
  cases hp : d.parent? k with
  | none => exact .top hp
  | some p => exact .step hp (h p hp)

/-- Every way up still ends if no moved node is above its new parent. -/
theorem Moves.ends (h : Moves d d' moved target) (htarget : ∀ x ∈ moved, ¬ d.Above x target)
    (hd : ∀ k, d.Ends k) (key : Key) : d'.Ends key := by
  -- first for the nodes that no moved node is above, and so for the target
  have hfree : ∀ k, (∀ x ∈ moved, ¬ d.Above x k) → d'.Ends k := by
    refine fun k => (hd k).ind (motive := fun k => (∀ x ∈ moved, ¬ d.Above x k) → d'.Ends k)
      fun k ih hk => .of_parent fun p hp => ?_
    rcases h k p hp with hp | ⟨hmoved, -⟩
    · exact ih p hp fun x hx hx' => hk x hx (.step hp hx')
    · exact absurd .self (hk k hmoved)
  refine (hd key).ind fun k ih => Ends.of_parent fun p hp => ?_
  rcases h k p hp with hp | ⟨-, rfl⟩
  · exact ih p hp
  · exact hfree p htarget

/-! ## Linked documents -/

/-- The nodes of a document name each other as parent and child, each child once, and every way up
has an end. -/
structure Linked (d : Document) : Prop where
  mem_childKeys : ∀ {p c : Key}, c ∈ d.childKeys p ↔ d.parent? c = some p
  nodup : ∀ p, (d.childKeys p).Nodup
  ends : ∀ k, d.Ends k

/-- **A sound document**: a linked one whose root is a stylesheet and has no parent. -/
structure Sound (d : Document) : Prop extends Linked d where
  root_lt : root < d.cells.size
  root_kind : d.kindAt root = .sheet
  root_parent : d.parent? root = none

namespace Linked

/-- A document with the same parents and children is linked as well. -/
theorem of_eq (hd : d.Linked) (hparent : ∀ k, d'.parent? k = d.parent? k)
    (hchildren : ∀ k, d'.childKeys k = d.childKeys k) : d'.Linked where
  mem_childKeys {p c} := by rw [hchildren, hparent, hd.mem_childKeys]
  nodup p := by
    rw [hchildren]
    exact hd.nodup p
  ends := by
    have hmoves : Moves d d' [] root := fun k p hp => .inl (hparent k ▸ hp)
    exact hmoves.ends (by simp) hd.ends

theorem lt_size_of_parent? (hd : d.Linked) (h : d.parent? k = some p) : p < d.cells.size :=
  lt_size_of_mem_childKeys (hd.mem_childKeys.2 h)

theorem not_above_of_parent? (hd : d.Linked) (h : d.parent? k = some p) : ¬ d.Above k p :=
  (hd.ends k).not_above h

/-- Nothing but given out keys is above a given out key. -/
theorem lt_size_of_above (hd : d.Linked) (h : d.Above a key) (hkey : key < d.cells.size) :
    a < d.cells.size := by
  induction h with
  | self => exact hkey
  | step hp _ ih => exact ih (hd.lt_size_of_parent? hp)

/-- The position of a node among the children of its parent. -/
theorem exists_position (hd : d.Linked) (h : d.parent? key = some p) :
    ∃ before after, d.childKeys p = before ++ [key] ++ after ∧
      (before ++ after).Nodup ∧ key ∉ before ++ after ∧ d.indexOf? key = some before.length := by
  obtain ⟨before, after, hchildren⟩ := append_of_mem (hd.mem_childKeys.2 h)
  have hnodup : (key :: (before ++ after)).Nodup := by
    have hnodup := hd.nodup p
    rw [hchildren] at hnodup
    exact (perm_middle.nodup_iff).1 hnodup
  rw [nodup_cons] at hnodup
  refine ⟨before, after, by rw [hchildren]; simp, hnodup.2, hnodup.1, ?_⟩
  rw [indexOf?, h, Option.bind_some, hchildren, findIdx?_append]
  have hbefore : before.findIdx? (· == key) = none := by
    rw [findIdx?_eq_none_iff]
    intro x hx
    exact beq_eq_false_iff_ne.2 fun hxk => hnodup.1 (mem_append_left _ (hxk ▸ hx))
  simp [hbefore, findIdx?_cons]

end Linked

/-! ## Edits -/

/-- `d'` has the nodes of `d` in another arrangement: it is linked, and the only nodes with another
parent than before are those in `moved`, now below `target`. -/
structure Rearranges (d d' : Document) (moved : List Key) (target : Key) : Prop where
  linked : d'.Linked
  moves : Moves d d' moved target
  size_eq : d'.cells.size = d.cells.size
  kindAt_eq : ∀ k, d'.kindAt k = d.kindAt k

/-- A rearrangement that does not move the root keeps documents sound. -/
theorem Rearranges.sound (h : Rearranges d d' moved target) (hd : d.Sound) (hroot : root ∉ moved) :
    d'.Sound where
  toLinked := h.linked
  root_lt := h.size_eq ▸ hd.root_lt
  root_kind := by rw [h.kindAt_eq, hd.root_kind]
  root_parent := h.moves.parent?_eq_none hroot hd.root_parent

/-- If nothing is moved, it does not matter where to. -/
theorem Rearranges.retarget (h : Rearranges d d' [] target) (moved : List Key) (target' : Key) :
    Rearranges d d' moved target' where
  linked := h.linked
  moves k p hp := .inl ((h.moves k p hp).resolve_right (by simp))
  size_eq := h.size_eq
  kindAt_eq := h.kindAt_eq

theorem Rearranges.trans {d₁ : Document} (h : Rearranges d d₁ [] target)
    (h' : Rearranges d₁ d' moved target) : Rearranges d d' moved target where
  linked := h'.linked
  moves k p hp := by
    rcases h'.moves k p hp with hp | hmoved
    · exact .inl ((h.moves k p hp).resolve_right (by simp))
    · exact .inr hmoved
  size_eq := h'.size_eq.trans h.size_eq
  kindAt_eq k := (h'.kindAt_eq k).trans (h.kindAt_eq k)

/-- A node that changes its place among the children of its parent is not moved. -/
theorem Rearranges.setRelation (h : Rearranges d d' moved target) (key : Key)
    (relation : Option Relation) : Rearranges d (d'.setRelation key relation) moved target where
  linked := h.linked.of_eq (parent?_relabel d' key _) (childKeys_relabel d' key _)
  moves k p hp := h.moves k p (parent?_relabel d' key _ k ▸ hp)
  size_eq := by rw [Document.setRelation, size_relabel, h.size_eq]
  kindAt_eq k := by rw [kindAt_setRelation, h.kindAt_eq]

/-- **Nodes put among the children of another one.**  In the children of `target`, the nodes in
`moved`, which had no parent, take the place of those in `gone`. -/
theorem Linked.rearrange {before gone after : List Key} (hd : d.Linked)
    (htarget : d.childKeys target = before ++ gone ++ after) (hnodup : moved.Nodup)
    (hmoved : ∀ x ∈ moved, d.parent? x = none ∧ ¬ d.Above x target) (hparent : ∀ k, d'.parent? k =
      if k ∈ moved then some target else if k ∈ gone then none else d.parent? k)
    (hchildren : ∀ p, d'.childKeys p =
      if p = target then before ++ moved ++ after else d.childKeys p)
    (hsize : d'.cells.size = d.cells.size) (hkind : ∀ k, d'.kindAt k = d.kindAt k) :
    Rearranges d d' moved target := by
  have hmem : ∀ c, d.parent? c = some target ↔ c ∈ before ∨ c ∈ gone ∨ c ∈ after := by
    intro c
    rw [← hd.mem_childKeys, htarget, mem_append, mem_append, or_assoc]
  have hold : (before ++ gone ++ after).Nodup := htarget ▸ hd.nodup target
  have hout : ∀ c ∈ moved, c ∉ before ∧ c ∉ gone ∧ c ∉ after := by
    intro c hc
    have hnot := mt (hmem c).2 (by rw [(hmoved c hc).1]; exact nofun)
    exact ⟨fun h => hnot (.inl h), fun h => hnot (.inr (.inl h)), fun h => hnot (.inr (.inr h))⟩
  refine ⟨⟨?_, ?_, ?_⟩, .of_eq hparent, hsize, hkind⟩
  · intro p c
    rw [hchildren, hparent]
    by_cases hp : p = target
    · subst hp
      rw [if_pos rfl]
      by_cases hc : c ∈ moved
      · simp [hc]
      · by_cases hg : c ∈ gone
        · simp only [nodup_append, mem_append] at hold
          have hb : c ∉ before := fun h => hold.1.2.2 c h c hg rfl
          have ha : c ∉ after := fun h => hold.2.2 c (.inr hg) c h rfl
          simp [hc, hg, hb, ha]
        · simp [hc, hg, hmem]
    · rw [if_neg hp, hd.mem_childKeys]
      by_cases hc : c ∈ moved
      · simp [hc, (hmoved c hc).1, Ne.symm hp]
      · by_cases hg : c ∈ gone
        · simp [hc, hg, (hmem c).2 (.inr (.inl hg)), Ne.symm hp]
        · simp [hc, hg]
  · intro p
    rw [hchildren]
    split
    · simp only [nodup_append, mem_append] at hold ⊢
      refine ⟨⟨hold.1.1, hnodup, ?_⟩, hold.2.1, ?_⟩
      · rintro a ha b hb rfl
        exact (hout a hb).1 ha
      · rintro a (ha | ha) b hb rfl
        · exact hold.2.2 a (.inl ha) a hb rfl
        · exact (hout a ha).2.2 hb
    · exact hd.nodup p
  · exact (Moves.of_eq hparent).ends (fun x hx => (hmoved x hx).2) hd.ends

/-! ### Taking out -/

theorem remove_of_parent?_eq_none (h : d.parent? key = none) : d.remove key = d := by
  rw [remove, h]

theorem remove_of_parent?_eq_some (h : d.parent? key = some p) :
    d.remove key =
      (d.setParent key none).setChildren p ((d.childKeys p).filter (· != key)) := by
  rw [remove, h]
  show (d.setParent key none).setChildren p (((d.setParent key none).childKeys p).filter _) = _
  rw [childKeys_setParent]

theorem parent?_remove (d : Document) (key k : Key) :
    (d.remove key).parent? k = if k = key then none else d.parent? k := by
  cases h : d.parent? key with
  | none =>
    rw [remove_of_parent?_eq_none h]
    split
    · rename_i hk
      rw [hk, h]
    · rfl
  | some p => rw [remove_of_parent?_eq_some h, parent?_setChildren, parent?_setParent_none]

@[simp] theorem size_remove (d : Document) (key : Key) :
    (d.remove key).cells.size = d.cells.size := by
  cases h : d.parent? key with
  | none => rw [remove_of_parent?_eq_none h]
  | some p => rw [remove_of_parent?_eq_some h, size_setChildren, size_setParent]

variable (hd : d.Linked)

include hd

theorem Linked.remove (key target : Key) : Rearranges d (d.remove key) [] target := by
  cases h : d.parent? key with
  | none =>
    rw [remove_of_parent?_eq_none h]
    exact ⟨hd, fun _ _ => .inl, rfl, fun _ => rfl⟩
  | some p =>
    obtain ⟨before, after, hchildren, -, hkey, -⟩ := hd.exists_position h
    have hparent := hd.lt_size_of_parent? h
    have hfilter : (d.childKeys p).filter (· != key) = before ++ [] ++ after := by
      have hne : ∀ x ∈ before ++ after, (x != key) = true := fun x hx =>
        bne_iff_ne.2 fun hxk => hkey (hxk ▸ hx)
      rw [hchildren, filter_append, filter_append, append_nil,
        filter_eq_self.2 fun x hx => hne x (mem_append_left _ hx),
        filter_eq_self.2 fun x hx => hne x (mem_append_right _ hx)]
      simp
    have hremove : Rearranges d (d.remove key) [] p := by
      refine hd.rearrange hchildren nodup_nil (by simp) ?_ ?_ ?_ ?_
      · intro k
        simp [parent?_remove]
      · intro q
        rw [remove_of_parent?_eq_some h, childKeys_setChildren _ (by simpa using hparent), hfilter,
          childKeys_setParent]
      · rw [size_remove]
      · intro k
        rw [remove_of_parent?_eq_some h]
        simp
    exact hremove.retarget [] target

/-- Several nodes taken away from their parents. -/
theorem Linked.removeAll (keys : List Key) (target : Key) :
    Rearranges d (keys.foldl Document.remove d) [] target := by
  induction keys generalizing d with
  | nil => exact ⟨hd, fun _ _ => .inl, rfl, fun _ => rfl⟩
  | cons key rest ih =>
    have hremove := hd.remove key target
    exact hremove.trans (ih hremove.linked)

/-! ### Putting in -/

omit hd in
theorem parent?_insert (parent : Key) (index : Nat) (hkey : key < d.cells.size) (k : Key) :
    (d.insert parent index key).parent? k = if k = key then some parent else d.parent? k := by
  rw [Document.insert, parent?_setParent _ (by simpa using hkey)]
  split
  · rfl
  · rename_i hk
    rw [parent?_setChildren, parent?_remove, if_neg hk]

theorem Linked.insert {parent : Key} (index : Nat) (hkey : key < d.cells.size)
    (hparent : parent < d.cells.size) (h : ¬ d.Above key parent) :
    Rearranges d (d.insert parent index key) [key] parent := by
  have hremove := hd.remove key parent
  refine hremove.trans ?_
  have hkey' : key < (d.remove key).cells.size := by rwa [hremove.size_eq]
  have hparent' : parent < (d.remove key).cells.size := by rwa [hremove.size_eq]
  have hchildren : (d.remove key).childKeys parent =
      ((d.remove key).childKeys parent).take index ++ [] ++
        ((d.remove key).childKeys parent).drop index := by simp
  refine hremove.linked.rearrange hchildren (nodup_singleton key) ?_ ?_ ?_ ?_ ?_
  · intro x hx
    rw [mem_singleton] at hx
    subst hx
    exact ⟨by rw [parent?_remove, if_pos rfl], fun habove =>
      h (hremove.moves.above (by simp) habove)⟩
  · intro k
    rw [Document.insert, parent?_setParent _ (by simpa using hkey')]
    simp
  · intro p
    rw [Document.insert, childKeys_setParent, childKeys_setChildren _ hparent']
    simp
  · rw [Document.insert]
    simp
  · intro k
    rw [Document.insert]
    simp

omit hd in
/-- A node goes behind the others as if it were inserted there. -/
theorem append_eq_insert (d : Document) (parent key : Key) :
    d.append parent key =
      d.insert parent ((d.remove key).childKeys parent).length key := by
  rw [append, Document.insert]
  simp

omit hd in
theorem parent?_append (parent : Key) (hkey : key < d.cells.size) (k : Key) :
    (d.append parent key).parent? k = if k = key then some parent else d.parent? k := by
  rw [append_eq_insert, parent?_insert _ _ hkey]

theorem Linked.append {parent : Key} (hkey : key < d.cells.size) (hparent : parent < d.cells.size)
    (h : ¬ d.Above key parent) : Rearranges d (d.append parent key) [key] parent := by
  rw [append_eq_insert]
  exact hd.insert _ hkey hparent h

/-! ### Putting in the place of others -/

theorem Linked.replace (old : Key) {new : Key} (hnew : new < d.cells.size) (h : ¬ d.Above new old) :
    Rearranges d (d.replace old new) [new] ((d.parent? old).getD root) := by
  have hne : old ≠ new := fun heq => h (heq ▸ .self)
  have hremove := hd.remove new ((d.parent? old).getD root)
  have hold : (d.remove new).parent? old = d.parent? old := by rw [parent?_remove, if_neg hne]
  rw [Document.replace, if_neg hne]
  cases hp : d.parent? old with
  | none =>
    simp only [hold, hp]
    exact hremove.retarget [new] root
  | some parent =>
    rw [hp] at hremove hold
    obtain ⟨before, after, hchildren, -, -, hindex⟩ := hremove.linked.exists_position hold
    have hparent : parent < (d.remove new).cells.size := hremove.linked.lt_size_of_parent? hold
    have hnew' : new < (d.remove new).cells.size := by rwa [hremove.size_eq]
    simp only [hold, hindex, Option.getD_some]
    refine hremove.trans (hremove.linked.rearrange hchildren (nodup_singleton new) ?_ ?_ ?_ ?_ ?_)
    · intro x hx
      rw [mem_singleton] at hx
      subst hx
      refine ⟨by rw [parent?_remove, if_pos rfl], fun habove => h ?_⟩
      exact hremove.moves.above (by simp) (.step hold habove)
    · intro k
      rw [parent?_setParent_none, setRelation, parent?_relabel,
        parent?_setParent _ (by simpa using hnew'), parent?_setChildren]
      by_cases hk : k = new
      · subst hk
        simp [Ne.symm hne]
      · simp [hk]
    · intro p
      rw [childKeys_setParent, setRelation, childKeys_relabel, childKeys_setParent,
        childKeys_setChildren _ hparent, hchildren]
      simp
    · simp [setRelation]
    · intro k
      simp

theorem Linked.splice (old : Key) {new : List Key} (hnodup : new.Nodup)
    (hnew : ∀ x ∈ new, x < d.cells.size ∧ ¬ d.Above x old) :
    Rearranges d (d.splice old new) new ((d.parent? old).getD root) := by
  have hold : old ∉ new := fun h => (hnew old h).2 .self
  have hremove := hd.removeAll new ((d.parent? old).getD root)
  have hparents := parent?_foldl none size_remove (fun d key _ => parent?_remove d key) new d
    fun x hx => (hnew x hx).1
  have hparent : (new.foldl Document.remove d).parent? old = d.parent? old := by
    rw [hparents, if_neg hold]
  rw [Document.splice]
  cases hp : d.parent? old with
  | none =>
    simp only [hparent, hp]
    exact hremove.retarget new root
  | some parent =>
    rw [hp] at hremove hparent
    obtain ⟨before, after, hchildren, -, -, hindex⟩ := hremove.linked.exists_position hparent
    have hlt : parent < (new.foldl Document.remove d).cells.size :=
      hremove.linked.lt_size_of_parent? hparent
    simp only [hparent, hindex, Option.getD_some]
    refine hremove.trans (hremove.linked.rearrange hchildren hnodup ?_ ?_ ?_ ?_ ?_)
    · intro x hx
      refine ⟨by rw [hparents, if_pos hx], fun habove => (hnew x hx).2 ?_⟩
      exact hremove.moves.above (by simp) (.step hparent habove)
    · intro k
      rw [parent?_setParent_none, parent?_setChildren, parent?_foldl (some parent)
        (by simp [setRelation])
        (fun d key hkey k => by rw [setRelation, parent?_relabel, parent?_setParent _ hkey]) new _
        fun x hx => by rw [hremove.size_eq]; exact (hnew x hx).1]
      by_cases hk : k = old
      · subst hk
        simp [hold]
      · simp [hk]
    · intro p
      have hkeys := fun k => foldl_eq_of_step (fun d => d.childKeys k)
        (fun d key => (d.setParent key (some parent)).setRelation key none) (by simp [setRelation]) new (new.foldl Document.remove d)
      rw [childKeys_setParent, childKeys_setChildren, hkeys, hkeys, hchildren]
      · simp
      · rwa [foldl_eq_of_step (fun d => d.cells.size) _ (by simp [setRelation])]
    · rw [size_setParent, size_setChildren]
      exact foldl_eq_of_step (fun d => d.cells.size) _ (by simp [setRelation]) new _
    · intro k
      rw [kindAt_setParent, kindAt_setChildren]
      exact foldl_eq_of_step (fun d => d.kindAt k) _ (by simp) new _

/-! ### Taking all children -/

theorem Linked.parent?_takeChildren (key k : Key) :
    (d.takeChildren key).1.parent? k = if d.parent? k = some key then none else d.parent? k := by
  show (List.foldl _ (d.setChildren key []) (d.childKeys key)).parent? k = _
  rw [parent?_foldl none (by simp) (fun d key _ => parent?_setParent_none d key) _ _ fun child hchild => by
    simpa using Document.lt_size_of_parent? (hd.mem_childKeys.1 hchild), parent?_setChildren]
  simp only [hd.mem_childKeys]

theorem Linked.takeChildren (key target : Key) : Rearranges d (d.takeChildren key).1 [] target := by
  suffices htake : Rearranges d (d.takeChildren key).1 [] key from htake.retarget [] target
  have hchildren : d.childKeys key = [] ++ d.childKeys key ++ [] := by simp
  refine hd.rearrange hchildren nodup_nil (by simp) ?_ ?_ ?_ ?_
  · intro k
    rw [hd.parent?_takeChildren]
    simp only [not_mem_nil, if_false, hd.mem_childKeys]
  · intro p
    show (List.foldl _ (d.setChildren key []) (d.childKeys key)).childKeys p = _
    rw [foldl_eq_of_step (fun d => d.childKeys p) _ (by simp)]
    by_cases hkey : key < d.cells.size
    · rw [childKeys_setChildren _ hkey]
      rfl
    · have hsize : d.cells.size ≤ key := Nat.not_lt.1 hkey
      by_cases hp : p = key
      · rw [if_pos hp, hp, childKeys_eq_nil_of_size_le (by simpa using hsize)]
        rfl
      · rw [if_neg hp, childKeys, childKeys, setChildren, cells_update, if_neg (Ne.symm hp)]
  · show (List.foldl _ (d.setChildren key []) (d.childKeys key)).cells.size = _
    rw [foldl_eq_of_step (fun d => d.cells.size) _ (by simp), size_setChildren]
  · intro k
    show (List.foldl _ (d.setChildren key []) (d.childKeys key)).kindAt k = _
    rw [foldl_eq_of_step (fun d => d.kindAt k) _ (by simp), kindAt_setChildren]

end Document

end Cascade
