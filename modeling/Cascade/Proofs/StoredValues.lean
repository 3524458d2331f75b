import Cascade.Document.Evaluation
import Cascade.Proofs.Walks

/-!
# Values are kept by the nodes made for them

A value is put into a document as a tree of its own, lists and the lists in them node by node.  Read
off again it is the same value; the new nodes are apart from all others, and these stay as they are.
-/

set_option autoImplicit false

namespace Cascade

open Document Node List

namespace Value

mutual

theorem ofNode_toNode (line : Nat) : ∀ value : Value, ofNode (value.toNode line) = value
  | number .. | string .. | identifier _ | boolean _ | null | text _ => rfl
  | list items => congrArg list (ofNodes_toNodes line items)
  | comma items => congrArg comma (ofNodes_toNodes line items)

theorem ofNodes_toNodes (line : Nat) :
    ∀ values : List Value, ofNodes (toNodes line values) = values
  | [] => rfl
  | value :: rest => congrArg₂ cons (ofNode_toNode line value) (ofNodes_toNodes line rest)

end

mutual

theorem line_toNode (line : Nat) : ∀ value : Value, ∀ n ∈ (value.toNode line).preorder, n.line = line
  | number .. | string .. | identifier _ | boolean _ | null | text _ =>
    forall_mem_preorder.2 ⟨rfl, nofun⟩
  | list items | comma items => forall_mem_preorder.2 ⟨rfl, line_toNodes line items⟩

theorem line_toNodes (line : Nat) :
    ∀ values : List Value, ∀ c ∈ toNodes line values, ∀ n ∈ c.preorder, n.line = line
  | [] => nofun
  | value :: rest => forall_mem_cons.2 ⟨line_toNode line value, line_toNodes line rest⟩

end

end Value

/-- **A value put into a document reads back.**  Its nodes are new, well linked and on the given
line, the first of them has no parent, and no node of the document has changed. -/
theorem stored_value_reads_back (d : Document) (hd : d.Linked) (value : Value) (line : Nat) :
    let d' := (d.plant (value.toNode line)).1
    let key := (d.plant (value.toNode line)).2
    d'.valueAt key = value ∧ d'.parent? key = none ∧ d'.Linked ∧
      (∀ k ∈ d'.preorder key, d.cells.size ≤ k ∧ d'.lineAt k = line) ∧
      ∀ k < d.cells.size, d'.cells[k]? = d.cells[k]? := by
  have hplant := hd.plant (value.toNode line)
  refine ⟨?_, hplant.parent?_key, hplant.linked, fun k hk => ⟨?_, ?_⟩, hplant.cells_eq⟩
  · rw [valueAt, hplant.view_key, Value.ofNode_toNode]
  · refine not_lt.1 fun hlt => ?_
    exact hplant.toExtends.not_above hd hlt hplant.key_eq.ge (hplant.linked.mem_preorder.1 hk)
  · have hmem := mem_map_of_mem (f := (d.plant (value.toNode line)).1.view) hk
    rw [← hplant.linked.preorder_view, hplant.view_key] at hmem
    have hline := Value.line_toNode line value _ hmem
    rw [hplant.linked.view_eq] at hline
    exact hline

/-- A list with an empty list and a list of two values in it. -/
def nestedValue : Value :=
  .list [.comma [], .list [.number 1 (some "px"), .text "a/b"]]

theorem stored_value_reads_back_nested :
    let d := (Document.plant {} (nestedValue.toNode 7)).1
    Document.Linked {} ∧ d.childKeys 1 = [2, 3] ∧ d.valueAt 1 = nestedValue := by
  have hsheet : (Node.make .sheet 1).kind = .sheet := rfl
  have hd : Document.Linked {} := (sound_ofTree none hsheet).toLinked
  exact ⟨hd, rfl, (stored_value_reads_back {} hd nestedValue 7).1⟩

end Cascade
