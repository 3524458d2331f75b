import Cascade.Proofs.MixinGrammar
import Cascade.Proofs.ParsedGrammar

/-!
# Inclusions and the grammar

An `@include` is a loose statement: it stands nowhere but in a block or in a stylesheet.  What takes
its place are statements of a parsed stylesheet, so resolving inclusions is an edit that the
grammar permits.
-/

set_option autoImplicit false

namespace Cascade

open Node List

variable {sharing : Prop} {Fresh : Node → Prop}

namespace Node

variable {resolve : String → Nat → Except Error (List Node)}

variable
  (hfresh : ∀ path line statements, resolve path line = .ok statements → ∀ m ∈ statements, Fresh m)

include hfresh

theorem expandInclusionsAll_edited {form : Form} {cs ds : List Node}
    (hloose : ∀ c ∈ cs, c.kind.form.isLoose = true → form.isBlockLike = true)
    (hcs : ∀ c ∈ cs, ∀ d, c.expandInclusions resolve = .ok d → Edited Fresh c d)
    (h : expandInclusionsAll resolve cs = .ok ds) : EditedAll Fresh form cs ds := by
  induction cs generalizing ds with
  | nil =>
    cases h
    rfl
  | cons c cs ih =>
    obtain ⟨l, ks⟩ := c
    obtain ⟨hl, hls⟩ := forall_mem_cons.1 hloose
    obtain ⟨hc, hcs⟩ := forall_mem_cons.1 hcs
    rw [expandInclusionsAll] at h
    split at h
    · rename_i path hk
      obtain ⟨statements, hstatements, h⟩ := bind_eq_ok.1 h
      obtain ⟨rest, hrest, h⟩ := bind_eq_ok.1 h
      cases h
      have hform : l.kind.form = .marker := hk ▸ rfl
      refine .inr ⟨statements, rest, rfl, .inl ⟨hl ?_, ?_, hfresh _ _ _ hstatements⟩,
        ih hls hcs hrest⟩
      · rw [kind_mk, hform]
        rfl
      · rw [kind_mk, hform]
        decide
    · obtain ⟨d, hd, h⟩ := bind_eq_ok.1 h
      obtain ⟨rest, hrest, h⟩ := bind_eq_ok.1 h
      cases h
      exact .inl ⟨d, rest, rfl, hc d hd, ih hls hcs hrest⟩

/-- Replacing inclusions edits a tree in which they stand among other statements. -/
theorem expandInclusions_edited {n : Node} (hn : Orderly sharing n) :
    ∀ m, n.expandInclusions resolve = .ok m → Edited Fresh n m := by
  induction n using Node.ind with
  | mk l cs ih =>
    intro m h
    rw [expandInclusions] at h
    obtain ⟨ds, hds, h⟩ := bind_eq_ok.1 h
    cases h
    have hself := (hn _ (self_mem_preorder _)).2
    exact ⟨rfl, .inl ⟨rfl, expandInclusionsAll_edited hfresh (fun c hc hl => (hself c hc hl).1)
      (fun c hc => ih c hc (hn.child c hc)) hds⟩⟩

end Node

theorem IsSheet.resolve {library : Library} {depth : Nat} {file : Option String}
    {chain : List String} {root root' : Node} (hroot : IsSheet sharing root)
    (h : library.resolve depth file chain root = .ok root') : IsSheet sharing root' := by
  induction depth generalizing file chain root root' with
  | zero =>
    rw [Library.resolve] at h
    refine hroot.edited (expandInclusions_edited (fun path line statements hs => ?_)
      hroot.orderly root' h)
    dsimp only at hs
    split at hs
    · cases hs
    · split at hs <;> cases hs
  | succ depth ih =>
    rw [Library.resolve] at h
    refine hroot.edited (expandInclusions_edited (fun path line statements hs => ?_)
      hroot.orderly root' h)
    dsimp only at hs
    split at hs
    · cases hs
    · split at hs
      · cases hs
      · obtain ⟨included, hparse, hs⟩ := bind_eq_ok.1 hs
        obtain ⟨resolved, hresolved, hs⟩ := bind_eq_ok.1 hs
        cases hs
        have hsheet : IsSheet sharing resolved := ih (parse_isSheet hparse) hresolved
        exact forall_mem_map.2 fun c hc => (hsheet.item c hc).copied.plain

/-- **Resolving the inclusions of a stylesheet gives a stylesheet.** -/
theorem IsSheet.resolveInclusions {library : Library} {sheet sheet' : Sheet}
    (hs : IsSheet sharing sheet.root) (h : sheet.resolveInclusions library = .ok sheet') :
    IsSheet sharing sheet'.root := by
  obtain ⟨root, hroot, rfl⟩ := map_eq_ok.1 h
  exact hs.resolve hroot

end Cascade
