import Cascade.Proofs.Planting

/-!
# Copies are faithful

A node is copied with everything below it step by step: a stack holds the nodes whose copies are
still without children.  In the end the copy looks like the original, has no parent, consists of new
nodes alone, and no other node has changed.
-/

set_option autoImplicit false

namespace Cascade

open List

theorem Node.copied_eq_relabeled (n : Node) :
    n.copied = n.relabeled fun l => { l with comments := [] } := by
  induction n using ind with
  | mk l cs ih =>
    rw [copied, copiedAll_eq_map, relabeled_mk]
    exact congrArg _ (map_congr_left ih)

namespace Document

variable {source d d' : Document} {change : Label → Label} {key copy : Key}
  {stack : List (Key × Key)} {count : Nat}

/-! ## One step -/

/-- A node with its copy, which has the changed label and no children yet. -/
structure Started (source : Document) (change : Label → Label) (d : Document)
    (pair : Key × Key) : Prop where
  lt_size : pair.2 < d.cells.size
  label_eq : d.labelAt pair.2 = change (source.labelAt pair.1)
  leaf : d.childKeys pair.2 = []

/-- New copies of the children of a node stand below its copy, and nothing else has changed. -/
structure Stepped (source : Document) (change : Label → Label) (key copy : Key)
    (d d' : Document) : Prop extends Grows [copy] d d' where
  new : ∀ k ∈ d'.childKeys copy, d.cells.size ≤ k
  length_eq : (d'.childKeys copy).length = (source.childKeys key).length
  started : ∀ pair ∈ (source.childKeys key).zip (d'.childKeys copy), Started source change d' pair

theorem Linked.copyChildren (hd : d.Linked) (h : Started source change d (key, copy)) :
    Stepped source change key copy d (d.copyChildren source change key copy) := by
  have hplant := @Linked.plantAll d copy ((source.childKeys key).map fun child =>
    .mk (change (source.labelAt child)) []) (fun node _ d hd => hd.plant node) hd h.lt_size
  rw [← Document.copyChildren] at hplant
  obtain ⟨hgrows, keys, hchildren, hviews⟩ := hplant
  have hleaf : d.childKeys copy = [] := h.leaf
  rw [hleaf, nil_append] at hchildren
  have hlength : keys.length = (source.childKeys key).length := by
    simpa using congrArg length hviews
  refine ⟨hgrows, fun k hk => ?_, ?_, fun pair hpair => ?_⟩
  · -- An old node would have been a child before.
    refine not_lt.1 fun hlt => ?_
    have hk' := hgrows.linked.mem_childKeys.1 hk
    rw [hgrows.parent?_eq k hlt, ← hd.mem_childKeys, hleaf] at hk'
    cases hk'
  · rw [hchildren, hlength]
  · rw [hchildren] at hpair
    have hpairs : ((source.childKeys key).zip keys).map
        ((d.copyChildren source change key copy).view ∘ Prod.snd) =
          ((source.childKeys key).zip keys).map
            ((fun child => .mk (change (source.labelAt child)) []) ∘ Prod.fst) := by
      rw [← map_map, ← map_map, map_snd_zip hlength.le, map_fst_zip hlength.ge, hviews]
    have hview := map_inj_left.1 hpairs pair hpair
    rw [Function.comp_apply, Function.comp_apply, hgrows.linked.view_eq, Node.mk.injEq,
      map_eq_nil_iff] at hview
    have hmem := hgrows.linked.mem_childKeys.1 (hchildren ▸ (of_mem_zip hpair).2)
    exact ⟨Document.lt_size_of_parent? hmem, hview.1, hview.2⟩

/-! ## All steps -/

/-- What is below the nodes on the stack has been copied, and nothing else has changed. -/
structure Filled (source : Document) (change : Label → Label) (stack : List (Key × Key))
    (d d' : Document) : Prop extends Grows (stack.map Prod.snd) d d' where
  views : ∀ pair ∈ stack, d'.view pair.2 = (source.view pair.1).relabeled change

/-- **The whole run**, by induction on the number of steps: every node below those on the stack takes
one. -/
theorem Linked.copySteps (hs : source.Linked) (hd : d.Linked)
    (hstack : ∀ pair ∈ stack, Started source change d pair) (hnodup : (stack.map Prod.snd).Nodup)
    (hcount : (stack.flatMap fun pair => source.preorder pair.1).length ≤ count) :
    Filled source change stack d (copySteps source change count d stack) := by
  induction count generalizing d stack with
  | zero =>
    cases stack with
    | nil => exact ⟨.refl hd, nofun⟩
    | cons pair stack =>
      rw [flatMap_cons, hs.preorder_eq] at hcount
      cases hcount
  | succ count ih =>
    obtain _ | ⟨⟨key, copy⟩, stack⟩ := stack
    · exact ⟨.refl hd, nofun⟩
    obtain ⟨hfirst, hstack⟩ := forall_mem_cons.1 hstack
    obtain ⟨hcopy, hnodup⟩ := nodup_cons.1 hnodup
    have hstep := hd.copyChildren hfirst
    rw [Document.copySteps]
    generalize d.copyChildren source change key copy = d₁ at hstep ⊢
    have hstarted := hstep.started
    have hsnd := map_snd_zip hstep.length_eq.le
    have hfst := map_fst_zip hstep.length_eq.ge
    generalize (source.childKeys key).zip (d₁.childKeys copy) = pairs at hstarted hsnd hfst ⊢
    have hstack₁ : ∀ pair ∈ pairs.reverse ++ stack, Started source change d₁ pair := by
      intro pair hpair
      rcases mem_append.1 hpair with hpair | hpair
      · exact hstarted pair (mem_reverse.1 hpair)
      · have h := hstack pair hpair
        have hcell : d₁.cells[pair.2]? = d.cells[pair.2]? := hstep.cells_eq _ h.lt_size fun heq =>
          hcopy (mem_map.2 ⟨pair, hpair, mem_singleton.1 heq⟩)
        refine ⟨h.lt_size.trans_le hstep.size_le, ?_, ?_⟩
        · rw [← h.label_eq, labelAt, labelAt, label?, label?, hcell]
        · rw [← h.leaf, childKeys, childKeys, hcell]
    have hkeys : (pairs.reverse ++ stack).map Prod.snd =
        (d₁.childKeys copy).reverse ++ stack.map Prod.snd := by
      rw [map_append, map_reverse, hsnd]
    have hnodup₁ : ((pairs.reverse ++ stack).map Prod.snd).Nodup := by
      rw [hkeys]
      refine nodup_append.2 ⟨nodup_reverse.2 (hstep.linked.nodup copy), hnodup, ?_⟩
      rintro k hk _ hk' rfl
      obtain ⟨pair, hpair, rfl⟩ := mem_map.1 hk'
      exact (hstack pair hpair).lt_size.not_ge (hstep.new _ (mem_reverse.1 hk))
    have hrun := ih hstep.linked hstack₁ hnodup₁ ?_
    · generalize Document.copySteps source change count d₁ (pairs.reverse ++ stack) = d₂ at hrun ⊢
      have hnew : ∀ k ∈ (pairs.reverse ++ stack).map Prod.snd, k < d.cells.size →
          k ∈ stack.map Prod.snd := by
        intro k hk hlt
        rw [hkeys, mem_append, mem_reverse] at hk
        exact hk.resolve_left fun hk => hlt.not_ge (hstep.new k hk)
      have hcell : d₂.cells[copy]? = d₁.cells[copy]? :=
        hrun.cells_eq copy (hfirst.lt_size.trans_le hstep.size_le) fun hmem =>
          hcopy (hnew copy hmem hfirst.lt_size)
      refine ⟨hstep.toGrows.trans hrun.toGrows (by simp) fun k hk hlt =>
        mem_cons_of_mem _ (hnew k hk hlt), forall_mem_cons.2 ⟨?_, fun pair hpair =>
          hrun.views pair (mem_append_right _ hpair)⟩⟩
      have hlabel : d₂.labelAt copy = change (source.labelAt key) := by
        rw [← show _ = _ from hfirst.label_eq, labelAt, label?, hcell, ← label?,
          hstep.label?_eq copy hfirst.lt_size, labelAt]
      have hchildren : (d₂.childKeys copy).map d₂.view =
          (source.childKeys key).map (Node.relabeled change ∘ source.view) := by
        rw [childKeys, hcell, ← childKeys, ← hsnd, ← hfst, map_map, map_map]
        exact map_congr_left fun pair hpair =>
          hrun.views pair (mem_append_left _ (mem_reverse.2 hpair))
      rw [hrun.linked.view_eq, hs.view_eq, Node.relabeled_mk, map_map, hlabel, hchildren]
    · have hpairs : (pairs.reverse.flatMap fun pair => source.preorder pair.1).length =
          ((source.childKeys key).flatMap source.preorder).length := by
        rw [← hfst, flatMap_map]
        exact ((reverse_perm pairs).flatMap_right _).length_eq
      rw [flatMap_cons, hs.preorder_eq, length_append, length_cons] at hcount
      rw [flatMap_append, length_append, hpairs]
      dsimp only at hcount
      omega

/-- **A copy is planted** like any other tree. -/
theorem Linked.copyFrom (hd : d.Linked) (hs : source.Linked) (change : Label → Label) (key : Key) :
    Planted d (d.copyFrom source change key).1 (d.copyFrom source change key).2
      ((source.view key).relabeled change) := by
  have hpush := hd.push (change (source.labelAt key))
  rw [Document.copyFrom]
  generalize d.push (change (source.labelAt key)) = step at hpush ⊢
  obtain ⟨d₁, copy⟩ := step
  dsimp only at hpush ⊢
  have hview := hpush.view_key
  rw [hpush.linked.view_eq, Node.mk.injEq, map_eq_nil_iff] at hview
  have hstarted : ∀ pair ∈ [(key, copy)], Started source change d₁ pair :=
    forall_mem_singleton.2 ⟨hpush.key_lt, hview.1, hview.2⟩
  have hcount : ([(key, copy)].flatMap fun pair => source.preorder pair.1).length ≤
      (source.preorder key).length := by
    rw [flatMap_singleton]
  have hrun := hs.copySteps hpush.linked hstarted (nodup_singleton copy) hcount
  refine ⟨hrun.linked, hrun.file_eq.trans hpush.file_eq, hpush.key_eq,
    hpush.key_lt.trans_le hrun.size_le, (hrun.parent?_eq copy hpush.key_lt).trans hpush.parent?_key,
    hrun.views (key, copy) mem_cons_self, fun k hk => ?_⟩
  have hne : k ∉ [(key, copy)].map Prod.snd := by
    rw [map_singleton, mem_singleton, hpush.key_eq]
    exact hk.ne
  rw [hrun.cells_eq k (hk.trans_le hpush.toExtends.size_le) hne, hpush.cells_eq k hk]

/-! ## Copies within a document and from another one -/

theorem Linked.deepClone (hd : d.Linked) (key : Key) :
    Planted d (d.deepClone key).1 (d.deepClone key).2 (d.view key).copied := by
  rw [Node.copied_eq_relabeled]
  exact hd.copyFrom hd _ key

/-- **A faithful copy** of a node of `source`, put into `d`: it looks like the original but for the
change of its labels, belongs to no parent, consists of new nodes which name their parents and
children, and leaves every node of `d` as it is. -/
structure Copies (source : Document) (change : Label → Label) (key : Key) (d d' : Document)
    (copy : Key) : Prop where
  view_eq : d'.view copy = (source.view key).relabeled change
  detached : d'.parent? copy = none
  new : ∀ k, d'.Above copy k → d.cells.size ≤ k ∧ k < d'.cells.size
  linked : d'.Linked
  cells_eq : ∀ k < d.cells.size, d'.cells[k]? = d.cells[k]?

theorem Planted.copies (h : Planted d d' copy ((source.view key).relabeled change))
    (hd : d.Linked) : Copies source change key d d' copy where
  view_eq := h.view_key
  detached := h.parent?_key
  new _ hk := ⟨not_lt.1 fun hlt => h.toExtends.not_above hd hlt h.key_eq.ge hk, hk.lt_size h.key_lt⟩
  linked := h.linked
  cells_eq := h.cells_eq

end Document

open Document

/-- **Copies are faithful**: within a document all but the comments is copied, and from another
document all but the comments and scopes. -/
theorem copies_are_faithful (d other : Document) (hd : d.Linked) (hother : other.Linked) (key : Key) :
    Copies d (fun l => { l with comments := [] }) key d (d.deepClone key).1 (d.deepClone key).2 ∧
    Copies other (fun l => { l with comments := [], scope := none }) key d
      (d.graftFrom other key).1 (d.graftFrom other key).2 :=
  ⟨(hd.copyFrom hd _ key).copies hd, (hd.copyFrom hother _ key).copies hd⟩

/-- A list of two values, in a stylesheet. -/
def listTree : Node :=
  .make .list 2 [.make .null 2, .make (.boolean true) 3]

theorem copies_are_faithful_list :
    let d := ofTree none (.make .sheet 1 [listTree])
    d.Linked ∧ (d.deepClone 1).2 = 4 ∧ (d.deepClone 1).1.view 4 = listTree ∧
      (d.graftFrom d 1).1.view 4 = listTree := by
  intro d
  have hd : d.Linked := (sound_ofTree none rfl).toLinked
  have hcopies := copies_are_faithful d d hd hd 1
  exact ⟨hd, rfl, hcopies.1.view_eq, hcopies.2.view_eq⟩

end Cascade
