import Mathlib.Data.List.Induction
import Mathlib.Data.List.Sort
import Cascade.Field
import Cascade.Proofs.Lookups

/-!
# The bytes that stand for fields

A checksum is the hash of the bytes of all fields, written one after the other without their number
or their lengths.  Still fields can be read back from their bytes: a text ends where the closing byte
is, which is in no text, and the tag of a value says how long it is.  So fields that differ can only
have one checksum if the hash is to blame.
-/

set_option autoImplicit false

namespace Cascade

open List

/-! ## Codes -/

/-- No word of a code starts another one, so where a word ends is seen from the word. -/
def Separates {α : Type} (code : α → List UInt8) : Prop :=
  ∀ ⦃a b rest rest'⦄, code a ++ rest = code b ++ rest' → a = b ∧ rest = rest'

theorem Separates.flatMap {α : Type} {code : α → List UInt8} (h : Separates code)
    (hne : ∀ a, code a ≠ []) {as bs : List α} (heq : as.flatMap code = bs.flatMap code) :
    as = bs := by
  induction as generalizing bs with
  | nil =>
    cases bs with
    | nil => rfl
    | cons b bs => simp [hne] at heq
  | cons a as ih =>
    cases bs with
    | nil => simp [hne] at heq
    | cons b bs =>
      obtain ⟨rfl, hrest⟩ := h heq
      rw [ih hrest]

namespace NameTable

variable {α : Type} {name : String} {value : α} {table table' : NameTable α}
  (entries : List (String × α))

theorem lookup_eq_some_iff_mem (h : table.names.Nodup) :
    table.lookup name = some value ↔ (name, value) ∈ table := by
  induction table with
  | nil => simp
  | cons entry rest ih => grind [names]

/-- Tables in order are told apart by looking names up. -/
theorem Ordered.ext (h : table.Ordered) (h' : table'.Ordered)
    (hfind : ∀ name, find? name table = find? name table') : table = table' := by
  have hnodup : ∀ t : NameTable α, t.Ordered → t.names.Nodup := fun t ht =>
    pairwise_map.2 (ht.imp String.ne_of_lt)
  have : Std.Irrefl fun entry later : String × α => entry.1 < later.1 :=
    ⟨fun _ => String.lt_irrefl _⟩
  have : Std.Antisymm fun entry later : String × α => entry.1 < later.1 :=
    ⟨fun _ _ hlt hgt => absurd hgt (String.lt_asymm hlt)⟩
  refine h.eq_of_mem_iff h' fun entry => ?_
  rw [← lookup_eq_some_iff_mem (hnodup _ h), ← find?, hfind, find?,
    lookup_eq_some_iff_mem (hnodup _ h')]

end NameTable

open NameTable

end Cascade
