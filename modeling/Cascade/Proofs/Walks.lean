import Cascade.Node.Walk
import Cascade.Proofs.Planting

/-!
# Walks go through trees as the recursion does

A walk with a list of steps does the same as the walk by recursion on the tree, whatever the visitor
does and wherever it does not go into the children.  Two steps for each node are enough.

The orders in which the nodes of a document are listed are walks that leave nothing out: every node
below a key stands in them once, and before or after all that is below it.
-/

set_option autoImplicit false

namespace Cascade

open List

namespace Node

variable {σ : Type} {visitor : Visitor σ} {n : Node} {cs : List Node}

/-! ## Steps and recursion -/

/-- The steps change the state by `f` and are done after at most `cost` of them. -/
def Performs (visitor : Visitor σ) (steps : List WalkStep) (cost : Nat) (f : σ → σ) : Prop :=
  ∀ count rest state, cost ≤ count → ∃ left, count ≤ left + cost ∧
    walkSteps visitor count (steps ++ rest) state = walkSteps visitor left rest (f state)

theorem Performs.append {steps steps' : List WalkStep} {cost cost' : Nat} {f f' : σ → σ}
    (h : Performs visitor steps cost f) (h' : Performs visitor steps' cost' f') :
    Performs visitor (steps ++ steps') (cost + cost') (f' ∘ f) := by
  intro count rest state hcount
  obtain ⟨between, hbetween, hfirst⟩ := h count (steps' ++ rest) state (by omega)
  obtain ⟨left, hleft, hsecond⟩ := h' between rest (f state) (by omega)
  exact ⟨left, by omega, by rw [append_assoc, hfirst, hsecond]; rfl⟩

theorem performs_enterAll
    (h : ∀ c ∈ cs, Performs visitor [.enter c] (2 * c.size) (c.traverse visitor)) :
    Performs visitor (cs.map .enter) (2 * sizeAll cs) (traverseAll visitor cs) := by
  induction cs with
  | nil => exact fun count rest state _ => ⟨count, Nat.le_refl _, rfl⟩
  | cons c cs ih =>
    obtain ⟨hc, hcs⟩ := forall_mem_cons.1 h
    rw [sizeAll, Nat.mul_add]
    exact hc.append (ih hcs)

/-- **A step into a node** does what the recursion does. -/
theorem performs_enter (visitor : Visitor σ) (n : Node) :
    Performs visitor [.enter n] (2 * n.size) (n.traverse visitor) := by
  induction n using ind with
  | mk label children ih =>
    have hleave : Performs visitor [.leave (mk label children)] 1
        (visitor.leave (mk label children)) := by
      intro count rest state hcount
      obtain ⟨left, rfl⟩ := Nat.exists_eq_add_of_le' hcount
      exact ⟨left, Nat.le_refl _, rfl⟩
    intro count rest state hcount
    rw [size] at hcount ⊢
    obtain ⟨count, rfl⟩ : ∃ m, count = m + 1 := ⟨count - 1, by omega⟩
    rw [singleton_append, walkSteps, traverse]
    obtain ⟨goes, state⟩ := visitor.enter (mk label children) state
    cases goes with
    | false => exact ⟨count, by omega, rfl⟩
    | true =>
      obtain ⟨left, hleft, hsteps⟩ :=
        (performs_enterAll ih).append hleave count rest state (by omega)
      refine ⟨left, by omega, ?_⟩
      rw [append_assoc] at hsteps
      exact hsteps

theorem walkSteps_eq_traverse (visitor : Visitor σ) (state : σ) {count : Nat}
    (hcount : 2 * n.size ≤ count) :
    walkSteps visitor count [.enter n] state = n.traverse visitor state := by
  obtain ⟨left, -, h⟩ := performs_enter visitor n count [] state hcount
  rw [← append_nil [WalkStep.enter n], h]
  cases left <;> rfl

/-! ## Writing down the nodes -/

/-- The visitor that writes down every node it enters. -/
def entering : Visitor (List Node) where
  enter node nodes := (true, nodes ++ [node])
  leave _ nodes := nodes

/-- The visitor that writes down every node it leaves. -/
def leaving : Visitor (List Node) where
  enter _ nodes := (true, nodes)
  leave node nodes := nodes ++ [node]

theorem traverseAll_append {visitor : Visitor (List Node)} {list : Node → List Node}
    (h : ∀ c ∈ cs, ∀ nodes, c.traverse visitor nodes = nodes ++ list c) (nodes : List Node) :
    traverseAll visitor cs nodes = nodes ++ cs.flatMap list := by
  induction cs generalizing nodes with
  | nil => rw [traverseAll, flatMap_nil, append_nil]
  | cons c cs ih =>
    obtain ⟨hc, hcs⟩ := forall_mem_cons.1 h
    rw [traverseAll, hc, ih hcs, append_assoc, flatMap_cons]

theorem traverse_entering (n : Node) (nodes : List Node) :
    n.traverse entering nodes = nodes ++ n.preorder := by
  induction n using ind generalizing nodes with
  | mk label children ih =>
    rw [traverse, preorder, preorderAll_eq_flatMap]
    refine (traverseAll_append ih _).trans ?_
    rw [append_assoc, singleton_append]

theorem postorder_mk (label : Label) (cs : List Node) :
    (mk label cs).postorder = cs.flatMap postorder ++ [mk label cs] := by
  have hall : ∀ cs, postorderAll cs = cs.flatMap postorder := by
    intro cs
    induction cs with
    | nil => rfl
    | cons c cs ih => rw [postorderAll, ih, flatMap_cons]
  rw [postorder, hall]

theorem traverse_leaving (n : Node) (nodes : List Node) :
    n.traverse leaving nodes = nodes ++ n.postorder := by
  induction n using ind generalizing nodes with
  | mk label children ih =>
    rw [traverse, postorder_mk, ← append_assoc]
    exact congrArg (· ++ [mk label children]) (traverseAll_append ih nodes)

end Node

/-! ## The nodes of a document -/

namespace Document

variable {d : Document} {key p : Key}

namespace Linked

variable (hd : d.Linked)

include hd

theorem preorder_view (key : Key) : (d.view key).preorder = (d.preorder key).map d.view := by
  induction key using hd.ind with
  | mk key ih =>
    rw [hd.preorder_eq, map_cons, hd.view_eq, Node.preorder, Node.preorderAll_eq_flatMap,
      flatMap_map, map_flatMap]
    exact congrArg _ (flatMap_congr ih)

theorem postorder_view (key : Key) : (d.view key).postorder = (d.postorder key).map d.view := by
  induction key using hd.ind with
  | mk key ih =>
    rw [hd.postorder_eq, map_append, map_singleton, hd.view_eq, Node.postorder_mk, flatMap_map,
      map_flatMap]
    exact congrArg (· ++ _) (flatMap_congr ih)

theorem postorder_perm (key : Key) : (d.postorder key).Perm (d.preorder key) := by
  induction key using hd.ind with
  | mk key ih =>
    rw [hd.postorder_eq, hd.preorder_eq]
    exact (perm_append_singleton _ _).trans ((Perm.flatMap_left _ ih).cons key)

theorem eq_of_above {c c' : Key} (hc : d.parent? c = some p) (hc' : d.parent? c' = some p)
    (h : d.Above c c') : c = c' := by
  cases h with
  | self => rfl
  | step hp h =>
    rw [hc'] at hp
    cases hp
    exact (hd.not_above_of_parent? hc h).elim

/-- What is below one child is not above what is below another one. -/
theorem not_above_of_ne {c c' a b : Key} (hc : c ∈ d.childKeys key) (hc' : c' ∈ d.childKeys key)
    (hne : c ≠ c') (ha : d.Above c a) (hb : d.Above c' b) : ¬ d.Above a b := by
  intro habove
  rw [hd.mem_childKeys] at hc hc'
  rcases (ha.trans habove).total hb with h | h
  · exact hne (hd.eq_of_above hc hc' h)
  · exact hne (hd.eq_of_above hc' hc h).symm

theorem not_above_key {c b : Key} (hc : c ∈ d.childKeys key) (hb : d.Above c b) :
    ¬ d.Above b key := fun habove =>
  hd.not_above_of_parent? (hd.mem_childKeys.1 hc) (hb.trans habove)

/-- **No node comes after one that is below it.** -/
theorem pairwise_preorder (key : Key) : (d.preorder key).Pairwise fun a b => ¬ d.Above b a := by
  induction key using hd.ind with
  | mk key ih =>
    rw [hd.preorder_eq]
    refine pairwise_cons.2 ⟨fun b hb => ?_, pairwise_flatMap.2 ⟨ih, ?_⟩⟩
    · obtain ⟨c, hc, hb⟩ := mem_flatMap.1 hb
      exact hd.not_above_key hc (hd.mem_preorder.1 hb)
    · exact (hd.nodup key).imp_of_mem fun hc hc' hne a ha b hb =>
        hd.not_above_of_ne hc' hc hne.symm (hd.mem_preorder.1 hb) (hd.mem_preorder.1 ha)

theorem mem_postorder {k : Key} : k ∈ d.postorder key ↔ d.Above key k :=
  (hd.postorder_perm key).mem_iff.trans hd.mem_preorder

/-- **No node comes before one that is below it.** -/
theorem pairwise_postorder (key : Key) : (d.postorder key).Pairwise fun a b => ¬ d.Above a b := by
  induction key using hd.ind with
  | mk key ih =>
    rw [hd.postorder_eq]
    refine pairwise_append.2 ⟨pairwise_flatMap.2 ⟨ih, ?_⟩, pairwise_singleton _ _, ?_⟩
    · exact (hd.nodup key).imp_of_mem fun hc hc' hne a ha b hb =>
        hd.not_above_of_ne hc hc' hne (hd.mem_postorder.1 ha) (hd.mem_postorder.1 hb)
    · intro a ha b hb
      obtain ⟨c, hc, ha⟩ := mem_flatMap.1 ha
      rw [mem_singleton.1 hb]
      exact hd.not_above_key hc (hd.mem_postorder.1 ha)

theorem nodup_preorder (key : Key) : (d.preorder key).Nodup :=
  (hd.pairwise_preorder key).imp fun {a b} h => by
    rintro rfl
    exact h .self

end Linked

end Document

open Node Document

/-- **A walk is the recursion.**  For every visitor, every tree and every state the list of steps
does what the recursion does, in at most two steps for each node; the state may hold all that
happened so far.  In a linked document the nodes below a key are entered in the order of `preorder`
and left in the order of `postorder`, in which each of them stands once and parents come before
their children or after them. -/
theorem walk_is_traversal :
    (∀ (σ : Type) (visitor : Visitor σ) (n : Node) (state : σ),
      n.walk visitor state = n.traverse visitor state ∧
      ∀ count, 2 * n.size ≤ count →
        walkSteps visitor count [.enter n] state = n.traverse visitor state) ∧
    ∀ (d : Document) (key : Key), d.Linked →
      (d.view key).walk entering [] = (d.preorder key).map d.view ∧
      (d.view key).walk leaving [] = (d.postorder key).map d.view ∧
      (∀ k, k ∈ d.preorder key ↔ d.Above key k) ∧ (∀ k, k ∈ d.postorder key ↔ d.Above key k) ∧
      (d.preorder key).Nodup ∧ (d.postorder key).Nodup ∧
      ((d.preorder key).Pairwise fun a b => ¬ d.Above b a) ∧
      (d.postorder key).Pairwise fun a b => ¬ d.Above a b := by
  have hwalk (σ : Type) (visitor : Visitor σ) (n : Node) (state : σ) :
      n.walk visitor state = n.traverse visitor state :=
    walkSteps_eq_traverse visitor state (Nat.le_refl _)
  refine ⟨fun σ visitor n state => ⟨hwalk σ visitor n state, fun count hcount =>
    walkSteps_eq_traverse visitor state hcount⟩, fun d key hd => ?_⟩
  have hnodup := hd.nodup_preorder key
  refine ⟨?_, ?_, fun k => hd.mem_preorder, fun k => hd.mem_postorder, hnodup,
    (hd.postorder_perm key).nodup_iff.2 hnodup, hd.pairwise_preorder key, hd.pairwise_postorder key⟩
  · rw [hwalk, traverse_entering, nil_append, hd.preorder_view]
  · rw [hwalk, traverse_leaving, nil_append, hd.postorder_view]

/-- A stylesheet with a list of two values. -/
def listedSheet : Document :=
  .ofTree none (.make .sheet 1 [.make .list 1 [.make .null 1, .make (.boolean true) 1]])

theorem walk_is_traversal_list : listedSheet.Linked ∧
    listedSheet.preorder root = [0, 1, 2, 3] ∧ listedSheet.postorder root = [2, 3, 1, 0] ∧
    (listedSheet.view root).walk leaving [] = [2, 3, 1, 0].map listedSheet.view := by
  have hd : listedSheet.Linked := (sound_ofTree none rfl).toLinked
  exact ⟨hd, rfl, rfl, (walk_is_traversal.2 listedSheet root hd).2.1⟩

end Cascade
