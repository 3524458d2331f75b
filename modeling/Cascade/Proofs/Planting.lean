import Cascade.Proofs.Grammar
import Cascade.Proofs.Links
import Mathlib.Data.Finset.Card

/-!
# New nodes in a document

New nodes have no parent and leave those that are there as they are.  A new tree is planted node by
node, and the document stays linked at every step.
-/

set_option autoImplicit false

namespace Cascade

open List

namespace Document

variable {d d' d'' : Document} {k p key a b parent : Key} {n : Nat} {tree : Node}

/-! ## The tree below a node -/

theorem Above.lt_size (h : d.Above a k) (ha : a < d.cells.size) : k < d.cells.size := by
  cases h with
  | self => exact ha
  | step hp _ => exact lt_size_of_parent? hp

/-- Of two nodes above a third one, one is above the other. -/
theorem Above.total (ha : d.Above a k) (hb : d.Above b k) : d.Above a b ∨ d.Above b a := by
  induction ha with
  | self => exact .inr hb
  | step hp ha ih =>
    cases hb with
    | self => exact .inl (.step hp ha)
    | step hp' hb =>
      rw [hp] at hp'
      cases hp'
      exact ih hb

open Classical in
/-- The nodes below a node, itself included. -/
noncomputable def below (d : Document) (key : Key) : Finset Key :=
  (Finset.range d.cells.size).filter (d.Above key)

open Classical in
theorem mem_below : k ∈ d.below key ↔ k < d.cells.size ∧ d.Above key k := by
  rw [below, Finset.mem_filter, Finset.mem_range]

open Classical in
theorem card_below_le (d : Document) (key : Key) : (d.below key).card ≤ d.cells.size :=
  (Finset.card_filter_le _ _).trans_eq (Finset.card_range _)

namespace Linked

theorem card_below_lt (hd : d.Linked) (h : d.parent? key = some p) :
    (d.below key).card < (d.below p).card := by
  refine Finset.card_lt_card ((Finset.ssubset_iff_of_subset fun k hk => ?_).2 ⟨p, ?_, fun hp => ?_⟩)
  · exact mem_below.2 ⟨(mem_below.1 hk).1, (Above.parent h).trans (mem_below.1 hk).2⟩
  · exact mem_below.2 ⟨hd.lt_size_of_parent? h, .self⟩
  · exact hd.not_above_of_parent? h (mem_below.1 hp).2

/-- **Induction on documents**: on what is below a node. -/
@[elab_as_elim]
theorem ind (hd : d.Linked) {motive : Key → Prop}
    (mk : ∀ key, (∀ c ∈ d.childKeys key, motive c) → motive key) (key : Key) : motive key := by
  induction hn : (d.below key).card using Nat.strong_induction_on generalizing key with
  | _ n ih =>
    exact mk key fun c hc => ih _ (hn ▸ hd.card_below_lt (hd.mem_childKeys.1 hc)) c rfl

section Depth

variable {β : Type} {r : Nat → Key → β} {f : Key → List β → β}
  (hd : d.Linked) (hleaf : ∀ key, r 0 key = f key [])
  (hnode : ∀ n key, r (n + 1) key = f key ((d.childKeys key).map (r n)))
include hd hleaf hnode

/-- No way down is longer than there are nodes below. -/
theorem run_succ (h : (d.below key).card ≤ n + 1) : r (n + 1) key = r n key := by
  induction n generalizing key with
  | zero =>
    have hnil : d.childKeys key = [] := eq_nil_iff_forall_not_mem.2 fun c hc => by
      have hp := hd.mem_childKeys.1 hc
      have hself : c ∈ d.below c := mem_below.2 ⟨Document.lt_size_of_parent? hp, .self⟩
      have hlt := hd.card_below_lt hp
      have hpos := Finset.card_pos.2 ⟨c, hself⟩
      omega
    rw [hnode, hleaf, hnil, map_nil]
  | succ n ih =>
    rw [hnode, hnode]
    refine congrArg _ (map_congr_left fun c hc => ih ?_)
    have hlt := hd.card_below_lt (hd.mem_childKeys.1 hc)
    omega

theorem run_add (h : (d.below key).card ≤ n + 1) (m : Nat) : r (n + m) key = r n key := by
  induction m with
  | zero => rfl
  | succ m ih => rw [← Nat.add_assoc, hd.run_succ hleaf hnode (by omega), ih]

theorem run_eq (h : d.cells.size ≤ n + 1) : r n key = r d.cells.size key := by
  have hcard := d.card_below_le key
  rw [← hd.run_add hleaf hnode (hcard.trans h) d.cells.size, Nat.add_comm,
    hd.run_add hleaf hnode (hcard.trans (Nat.le_succ _))]

/-- What goes down to any depth takes a node with what it gives for the children. -/
theorem run_unfold (key : Key) :
    r d.cells.size key = f key ((d.childKeys key).map (r d.cells.size)) := by
  rw [← hd.run_eq hleaf hnode (n := d.cells.size + 1) (by omega), hnode]

end Depth

variable (hd : d.Linked)

include hd

theorem viewTo_eq (h : d.cells.size ≤ n + 1) : d.viewTo n key = d.view key :=
  hd.run_eq (r := d.viewTo) (f := fun key => .mk (d.labelAt key)) (fun _ => rfl) (fun _ _ => rfl) h

/-- A node is seen with the trees below its children. -/
theorem view_eq (key : Key) : d.view key = .mk (d.labelAt key) ((d.childKeys key).map d.view) :=
  hd.run_unfold (r := d.viewTo) (f := fun key => .mk (d.labelAt key)) (fun _ => rfl) (fun _ _ => rfl) key

theorem preorder_eq (key : Key) : d.preorder key = key :: (d.childKeys key).flatMap d.preorder :=
  hd.run_unfold (f := fun key lists => key :: lists.flatten) (fun _ => rfl) (fun _ _ => rfl) key

theorem postorder_eq (key : Key) :
    d.postorder key = (d.childKeys key).flatMap d.postorder ++ [key] :=
  hd.run_unfold (f := fun key lists => lists.flatten ++ [key]) (fun _ => rfl) (fun _ _ => rfl) key

theorem above_iff : d.Above a k ↔ k = a ∨ ∃ c ∈ d.childKeys a, d.Above c k := by
  constructor
  · intro h
    induction h with
    | self => exact .inl rfl
    | @step k p hp _ ih =>
      obtain rfl | ⟨c, hc, h⟩ := ih
      · exact .inr ⟨k, hd.mem_childKeys.2 hp, .self⟩
      · exact .inr ⟨c, hc, .step hp h⟩
  · rintro (rfl | ⟨c, hc, h⟩)
    · exact .self
    · exact (Above.parent (hd.mem_childKeys.1 hc)).trans h

/-- The list of the keys below a node has all of them. -/
theorem mem_preorder : k ∈ d.preorder a ↔ d.Above a k := by
  induction a using hd.ind with
  | mk a ih =>
    rw [hd.preorder_eq, hd.above_iff, mem_cons, mem_flatMap]
    exact or_congr_right (exists_congr fun c => and_congr_right fun hc => ih c hc)

/-- What is seen depends on the nodes below alone. -/
theorem viewTo_congr
    (h : ∀ k, d.Above key k → d'.label? k = d.label? k ∧ d'.childKeys k = d.childKeys k) (n : Nat) :
    d'.viewTo n key = d.viewTo n key := by
  have hlabel : d'.labelAt key = d.labelAt key := by rw [labelAt, labelAt, (h key .self).1]
  induction n generalizing key with
  | zero => rw [viewTo, viewTo, hlabel]
  | succ n ih =>
    rw [viewTo, viewTo, hlabel, (h key .self).2]
    refine congrArg _ (map_congr_left fun c hc => ?_)
    have hbelow : ∀ k, d.Above c k → d.Above key k :=
      fun k hk => (Above.parent (hd.mem_childKeys.1 hc)).trans hk
    exact ih (fun k hk => h k (hbelow k hk))
      (by rw [labelAt, labelAt, (h c (hbelow c .self)).1])

end Linked

/-! ## More nodes -/

/-- The nodes with keys below `base` stand for what they stood for, and none of them has another parent
than before, except that those in `zone` may be below later nodes. -/
structure Preserves (base : Nat) (zone : Key → Prop) (d d' : Document) : Prop where
  size_le : d.cells.size ≤ d'.cells.size
  kindAt_eq : ∀ k < base, d'.kindAt k = d.kindAt k
  moves : ∀ k < base, ∀ p, d'.parent? k = some p → d.parent? k = some p ∨ base ≤ p ∧ zone k

/-- `d'` has the nodes of `d`, and perhaps more nodes. -/
abbrev Extends (d d' : Document) : Prop :=
  Preserves d.cells.size (fun _ => False) d d'

namespace Preserves

variable {base : Nat} {zone : Key → Prop}

theorem refl (d : Document) : Preserves base zone d d :=
  ⟨le_rfl, fun _ _ => rfl, fun _ _ _ => .inl⟩

theorem trans (h : Preserves base zone d d') (h' : Preserves base zone d' d'') :
    Preserves base zone d d'' where
  size_le := h.size_le.trans h'.size_le
  kindAt_eq k hk := (h'.kindAt_eq k hk).trans (h.kindAt_eq k hk)
  moves k hk p hp := (h'.moves k hk p hp).elim (h.moves k hk p) .inr

theorem mono {base' : Nat} {zone' : Key → Prop} (h : Preserves base zone d d')
    (hbase : base' ≤ base) (hzone : ∀ k < base', zone k → zone' k) :
    Preserves base' zone' d d' where
  size_le := h.size_le
  kindAt_eq k hk := h.kindAt_eq k (hk.trans_le hbase)
  moves k hk p hp := (h.moves k (hk.trans_le hbase) p hp).imp_right fun hnew =>
    ⟨hbase.trans hnew.1, hzone k hk hnew.2⟩

/-- Nothing new is above an old node that is not below one of the zone. -/
theorem above (h : Preserves d.cells.size zone d d') (hd : d.Linked) (hkey : key < d.cells.size)
    (hzone : ∀ x, d.Above x key → ¬ zone x) (ha : d'.Above a key) : d.Above a key := by
  induction ha with
  | self => exact .self
  | @step key parent hp _ ih =>
    rcases h.moves key hkey parent hp with hp | ⟨-, hkey⟩
    · exact .step hp (ih (hd.lt_size_of_parent? hp) fun x hx => hzone x (.step hp hx))
    · exact absurd hkey (hzone key .self)

end Preserves

namespace Extends

theorem trans (h : Extends d d') (h' : Extends d' d'') : Extends d d'' :=
  Preserves.trans h (h'.mono h.size_le fun _ _ => id)

theorem parent?_eq_none (h : Extends d d') (hk : k < d.cells.size) (hnone : d.parent? k = none) :
    d'.parent? k = none := by
  have hmoves : ∀ p, d'.parent? k ≠ some p := fun p hp => by
    simpa [hnone] using h.moves k hk p hp
  exact Option.eq_none_iff_forall_ne_some.2 hmoves

theorem not_above (h : Extends d d') (hd : d.Linked) (hkey : key < d.cells.size)
    (ha : d.cells.size ≤ a) : ¬ d'.Above a key := fun habove =>
  not_lt.2 ha (hd.lt_size_of_above (h.above hd hkey (fun _ _ => id) habove) hkey)

end Extends

/-- Later nodes may be moved, and those in the zone below later nodes. -/
theorem Rearranges.preserves {base : Nat} {zone : Key → Prop} {moved : List Key} {target : Key}
    (h : Rearranges d d' moved target)
    (hmoved : ∀ x ∈ moved, base ≤ x ∨ base ≤ target ∧ zone x) : Preserves base zone d d' where
  size_le := h.size_eq.ge
  kindAt_eq k _ := h.kindAt_eq k
  moves k hk p hp := (h.moves k p hp).imp_right fun ⟨hmem, htarget⟩ =>
    htarget ▸ (hmoved k hmem).resolve_left (not_le.2 hk)

/-- The keys of different nodes that `d'` has and `d` does not have.  The nodes of `d` are in their
places. -/
structure Fresh (d d' : Document) (keys : List Key) : Prop
    extends Preserves d.cells.size (fun _ => False) d d' where
  nodup : keys.Nodup
  size_le_key : ∀ k ∈ keys, d.cells.size ≤ k
  lt_size : ∀ k ∈ keys, k < d'.cells.size

namespace Fresh

variable {keys keys' : List Key}

theorem nil (h : Extends d d') : Fresh d d' [] :=
  ⟨h, nodup_nil, by simp, by simp⟩

theorem append (h : Fresh d d' keys) (h' : Fresh d' d'' keys') : Fresh d d'' (keys ++ keys') where
  toPreserves := Extends.trans h.toPreserves h'.toPreserves
  nodup := by
    refine nodup_append.2 ⟨h.nodup, h'.nodup, ?_⟩
    rintro a ha b hb rfl
    exact not_lt.2 (h'.size_le_key a hb) (h.lt_size a ha)
  size_le_key k hk := by
    rcases mem_append.1 hk with hk | hk
    · exact h.size_le_key k hk
    · exact h.size_le.trans (h'.size_le_key k hk)
  lt_size k hk := by
    rcases mem_append.1 hk with hk | hk
    · exact (h.lt_size k hk).trans_le h'.size_le
    · exact h'.lt_size k hk

theorem not_above (h : Fresh d d' keys) (hd : d.Linked) (hkey : key < d.cells.size) {x : Key}
    (hx : x ∈ keys) : ¬ d'.Above x key :=
  Extends.not_above h.toPreserves hd hkey (h.size_le_key x hx)

theorem ne_root (h : Fresh d d' keys) (hd : d.Sound) {x : Key} (hx : x ∈ keys) : x ≠ root :=
  fun heq => not_lt.2 (h.size_le_key x hx) (heq ▸ hd.root_lt)

end Fresh

/-! ## Planting -/

/-- A tree has been planted at `key`. -/
structure Planted (d d' : Document) (key : Key) (tree : Node) : Prop where
  linked : d'.Linked
  file_eq : d'.file = d.file
  key_eq : key = d.cells.size
  key_lt : key < d'.cells.size
  parent?_key : d'.parent? key = none
  view_key : d'.view key = tree
  cells_eq : ∀ k < d.cells.size, d'.cells[k]? = d.cells[k]?

theorem Linked.push (hd : d.Linked) (label : Label) :
    Planted d (d.push label).1 (d.push label).2 (.mk label []) := by
  have hlinked := hd.of_eq (parent?_push d label) (childKeys_push d label)
  refine ⟨hlinked, rfl, rfl, ?_, ?_, ?_, fun _ hk => cells_push label hk⟩
  · rw [size_push]
    exact Nat.lt_succ_self _
  · rw [parent?_push]
    exact parent?_eq_none_of_size_le le_rfl
  · have hnil : d.childKeys (d.push label).2 = [] := childKeys_eq_nil_of_size_le le_rfl
    rw [hlinked.view_eq, childKeys_push, hnil]
    show Node.mk (((d.cells.push { label })[d.cells.size]?.map Cell.label).getD default) _ = _
    rw [Array.getElem?_push_size]
    rfl

section

variable (hnone : d.parent? key = none)

include hnone

/-- A new node put behind the children of another one changes only the two of them. -/
theorem cells_append (hk : k ≠ key) (hkp : k ≠ parent) :
    (d.append parent key).cells[k]? = d.cells[k]? := by
  rw [append, remove_of_parent?_eq_none hnone]
  show ((d.setChildren parent _).setParent key (some parent)).cells[k]? = _
  rw [setParent, cells_update, if_neg (Ne.symm hk), setChildren, cells_update, if_neg (Ne.symm hkp)]

theorem label?_append (k : Key) : (d.append parent key).label? k = d.label? k := by
  rw [append, remove_of_parent?_eq_none hnone]
  show ((d.setChildren parent _).setParent key (some parent)).label? k = _
  rw [label?_setParent, label?_setChildren]

theorem file_append : (d.append parent key).file = d.file := by
  rw [append, remove_of_parent?_eq_none hnone]
  rfl

theorem childKeys_append (hparent : parent < d.cells.size) (k : Key) :
    (d.append parent key).childKeys k =
      if k = parent then d.childKeys parent ++ [key] else d.childKeys k := by
  rw [append, remove_of_parent?_eq_none hnone]
  show ((d.setChildren parent _).setParent key (some parent)).childKeys k = _
  rw [childKeys_setParent, childKeys_setChildren _ hparent]

end

/-- What is below a node looks the same if none of it has changed. -/
theorem Linked.view_congr (hd : d.Linked) (hsize : d.cells.size ≤ d'.cells.size)
    (h : ∀ k, d.Above key k → d'.label? k = d.label? k ∧ d'.childKeys k = d.childKeys k) :
    d'.view key = d.view key := by
  rw [view, hd.viewTo_congr h, hd.viewTo_eq (hsize.trans (Nat.le_succ _))]

namespace Planted

variable {tree : Node}

theorem toExtends (h : Planted d d' key tree) : Extends d d' where
  size_le := (h.key_eq ▸ h.key_lt).le
  kindAt_eq k hk := by rw [kindAt, kindAt, labelAt, labelAt, label?, label?, h.cells_eq k hk]
  moves k hk p hp := .inl (by rwa [parent?, h.cells_eq k hk] at hp)

theorem fresh (h : Planted d d' key tree) : Fresh d d' [key] where
  toPreserves := h.toExtends
  nodup := nodup_singleton key
  size_le_key := forall_mem_singleton.2 h.key_eq.ge
  lt_size := forall_mem_singleton.2 h.key_lt

end Planted

/-- `d'` has the nodes of `d`, with the same labels and parents, and perhaps more.  Those in `touched`
may have new children. -/
structure Grows (touched : List Key) (d d' : Document) : Prop where
  linked : d'.Linked
  file_eq : d'.file = d.file
  size_le : d.cells.size ≤ d'.cells.size
  label?_eq : ∀ k < d.cells.size, d'.label? k = d.label? k
  parent?_eq : ∀ k < d.cells.size, d'.parent? k = d.parent? k
  cells_eq : ∀ k < d.cells.size, k ∉ touched → d'.cells[k]? = d.cells[k]?

namespace Grows

variable {touched touched' all : List Key}

theorem refl (hd : d.Linked) : Grows touched d d :=
  ⟨hd, rfl, le_rfl, fun _ _ => rfl, fun _ _ => rfl, fun _ _ _ => rfl⟩

theorem trans (h : Grows touched d d') (h' : Grows touched' d' d'') (hall : touched ⊆ all)
    (hnew : ∀ k ∈ touched', k < d.cells.size → k ∈ all) : Grows all d d'' where
  linked := h'.linked
  file_eq := h'.file_eq.trans h.file_eq
  size_le := h.size_le.trans h'.size_le
  label?_eq k hk := (h'.label?_eq k (hk.trans_le h.size_le)).trans (h.label?_eq k hk)
  parent?_eq k hk := (h'.parent?_eq k (hk.trans_le h.size_le)).trans (h.parent?_eq k hk)
  cells_eq k hk hnot := by
    rw [h'.cells_eq k (hk.trans_le h.size_le) fun hmem => hnot (hnew k hmem hk),
      h.cells_eq k hk fun hmem => hnot (hall hmem)]

/-- A tree in which no node has new children looks the same. -/
theorem view_eq (h : Grows touched d d') (hd : d.Linked) (hkey : key < d.cells.size)
    (hnot : ∀ k ∈ touched, ¬ d.Above key k) : d'.view key = d.view key := by
  refine hd.view_congr h.size_le fun k hk => ?_
  have hcell := h.cells_eq k (hk.lt_size hkey) fun hmem => hnot k hmem hk
  rw [label?, label?, childKeys, childKeys, hcell]
  exact ⟨rfl, rfl⟩

end Grows

/-- A planted tree put behind the children of an old node. -/
theorem Planted.append (h : Planted d d' key tree) (hd : d.Linked) (hparent : parent < d.cells.size) :
    Grows [parent] d (d'.append parent key) ∧
      (d'.append parent key).childKeys parent = d.childKeys parent ++ [key] ∧
      (d'.append parent key).view key = tree ∧
      key < (d'.append parent key).cells.size := by
  have hsize : d.cells.size < d'.cells.size := h.key_eq ▸ h.key_lt
  have hapart : ¬ d'.Above key parent := h.toExtends.not_above hd hparent h.key_eq.ge
  have happend := h.linked.append h.key_lt (hparent.trans hsize) hapart
  have hkeys := childKeys_append h.parent?_key (hparent.trans hsize)
  have hold {k : Key} (hk : k < d.cells.size) : k ≠ key := h.key_eq ▸ hk.ne
  refine ⟨⟨happend.linked, ?_, ?_, fun k hk => ?_, fun k hk => ?_, fun k hk hnot => ?_⟩, ?_, ?_, ?_⟩
  · rw [file_append h.parent?_key, h.file_eq]
  · rw [happend.size_eq]
    exact hsize.le
  · rw [label?_append h.parent?_key, label?, h.cells_eq k hk, label?]
  · rw [parent?_append parent h.key_lt, if_neg (hold hk), parent?, h.cells_eq k hk, parent?]
  · rw [cells_append h.parent?_key (hold hk) (by simpa using hnot), h.cells_eq k hk]
  · rw [hkeys, if_pos rfl, childKeys, h.cells_eq parent hparent, childKeys]
  · rw [h.linked.view_congr happend.size_eq.ge, h.view_key]
    refine fun k hk => ⟨label?_append h.parent?_key k, ?_⟩
    rw [hkeys, if_neg]
    rintro rfl
    exact hapart hk
  · rw [happend.size_eq]
    exact h.key_lt

/-- Trees planted below a node leave all other nodes as they are. -/
theorem Linked.plantAll {nodes : List Node}
    (h : ∀ node ∈ nodes, ∀ d : Document, d.Linked → Planted d (d.plant node).1 (d.plant node).2 node)
    (hd : d.Linked) (hparent : parent < d.cells.size) : Grows [parent] d (d.plantAll parent nodes) ∧
      ∃ keys, (d.plantAll parent nodes).childKeys parent = d.childKeys parent ++ keys ∧
        keys.map (d.plantAll parent nodes).view = nodes := by
  induction nodes generalizing d with
  | nil => exact ⟨.refl hd, [], by simp [Document.plantAll]⟩
  | cons node rest ih =>
    rw [forall_mem_cons] at h
    obtain ⟨hfirst, hkey, hview, hlt⟩ := (h.1 d hd).append hd hparent
    have hrun : d.plantAll parent (node :: rest) =
        ((d.plant node).1.append parent (d.plant node).2).plantAll parent rest := rfl
    rw [hrun]
    generalize (d.plant node).1.append parent (d.plant node).2 = d₁ at hfirst hkey hview hlt ⊢
    generalize (d.plant node).2 = key at hkey hview hlt
    obtain ⟨hrest, keys, hchildren, hviews⟩ :=
      ih h.2 hfirst.linked (hparent.trans_le hfirst.size_le)
    refine ⟨hfirst.trans hrest (Subset.refl _) fun _ hk _ => hk, key :: keys, ?_, ?_⟩
    · rw [hchildren, hkey, append_assoc, singleton_append]
    · have hbelow : d₁.parent? key = some parent :=
        hfirst.linked.mem_childKeys.1 (hkey ▸ mem_append_right _ mem_cons_self)
      rw [map_cons, hviews, hrest.view_eq hfirst.linked hlt, hview]
      exact forall_mem_singleton.2 (hfirst.linked.not_above_of_parent? hbelow)

/-- **A planted tree** stands for itself and leaves everything else as it is. -/
theorem Linked.plant (hd : d.Linked) (node : Node) :
    Planted d (d.plant node).1 (d.plant node).2 node := by
  induction node using Node.ind generalizing d with
  | mk label children ih =>
    have hpush := hd.push label
    rw [Document.plant]
    generalize hstep : d.push label = step at hpush ⊢
    obtain ⟨d₁, key⟩ := step
    dsimp only at hpush ⊢
    obtain ⟨hgrows, keys, hchildren, hviews⟩ :=
      hpush.linked.plantAll (fun node hnode d hd => ih node hnode hd) hpush.key_lt
    have hroot := hpush.view_key
    rw [hpush.linked.view_eq, Node.mk.injEq, map_eq_nil_iff] at hroot
    refine ⟨hgrows.linked, hgrows.file_eq.trans hpush.file_eq, hpush.key_eq,
      hpush.key_lt.trans_le hgrows.size_le, ?_, ?_, fun k hk => ?_⟩
    · rw [hgrows.parent?_eq key hpush.key_lt, hpush.parent?_key]
    · rw [hgrows.linked.view_eq, labelAt, hgrows.label?_eq key hpush.key_lt, hchildren, hroot.2,
        nil_append, hviews]
      exact congrArg (Node.mk · _) hroot.1
    · have hne : k ∉ [key] := by
        rw [mem_singleton, hpush.key_eq]
        exact hk.ne
      rw [hgrows.cells_eq k (hk.trans_le hpush.toExtends.size_le) hne, hpush.cells_eq k hk]

theorem Planted.sound (h : Planted d d' key tree) (hd : d.Sound) : d'.Sound where
  toLinked := h.linked
  root_lt := hd.root_lt.trans_le h.toExtends.size_le
  root_kind := (h.toExtends.kindAt_eq root hd.root_lt).trans hd.root_kind
  root_parent := h.toExtends.parent?_eq_none hd.root_lt hd.root_parent

/-! ## Whole documents -/

theorem linked_empty (file : Option String) : Linked { file, cells := #[] } where
  mem_childKeys {p c} := by
    rw [childKeys_eq_nil_of_size_le (Nat.zero_le p), parent?_eq_none_of_size_le (Nat.zero_le c)]
    simp
  nodup p := by
    rw [childKeys_eq_nil_of_size_le (Nat.zero_le p)]
    exact nodup_nil
  ends k := .top (parent?_eq_none_of_size_le (Nat.zero_le k))

/-- **The document that holds a stylesheet is sound.** -/
theorem sound_ofTree (file : Option String) (h : tree.kind = .sheet) :
    (ofTree file tree).Sound := by
  have hplant := (linked_empty file).plant tree
  have hroot : (Document.plant { file, cells := #[] } tree).2 = root := hplant.key_eq
  rw [hroot] at hplant
  refine ⟨hplant.linked, hplant.key_lt, ?_, hplant.parent?_key⟩
  have hview := congrArg Node.kind hplant.view_key
  rw [hplant.linked.view_eq] at hview
  exact hview.trans h

/-- The children of a node name it as their parent, and so on down to any depth. -/
theorem Linked.linksHoldTo (hd : d.Linked) (depth : Nat) (key : Key) :
    d.linksHoldTo depth key = true := by
  induction depth generalizing key with
  | zero => rfl
  | succ depth ih =>
    rw [Document.linksHoldTo, all_eq_true]
    intro child hchild
    rw [hd.mem_childKeys.1 hchild, ih child]
    simp

/-- The check of links succeeds on sound documents. -/
theorem Sound.linksHold (hd : d.Sound) : d.linksHold = true := by
  rw [Document.linksHold, hd.linksHoldTo, hd.root_parent]
  rfl

end Document

end Cascade
