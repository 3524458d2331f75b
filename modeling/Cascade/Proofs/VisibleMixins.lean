import Cascade.Proofs.MixinGrammar

/-!
# Which mixin a use refers to

A use looks for its mixin among the statements before it, from the last one to the first, then among
the statements before the block it stands in, and so on outwards.  What is found there is the last of
all definitions that the use can see, in the order of the document.

A definition that a use can see turns off to the left of the use, so it is not around the use, and all
of it comes before the use if children are visited before their parent.  This is why one pass over a
stylesheet can expand all uses, and why no mixin can use itself.
-/

set_option autoImplicit false

namespace Cascade

open Node List

variable {name : String} {n m : Node} {path place : Path}

/-- From a path the definition of the mixin `name` at a place can be seen: it is before the node at
the path, or before one of the nodes around it, among the children of one node. -/
def Node.Sees (root : Node) (path : Path) (name : String) (place : Path) : Prop :=
  ∃ r j i rest m, place = r ++ [j] ∧ path = r ++ i :: rest ∧ j < i ∧ root.get? place = some m ∧
    m.defines name = true

theorem Node.Sees.precedes (h : n.Sees path name place) : Path.Precedes place path := by
  obtain ⟨r, j, i, rest, m, rfl, rfl, hji, -⟩ := h
  simpa using hji

/-- No definition after the last one is passed over. -/
theorem le_lastDefinition? (visible : Nat → Bool) {nodes : List Node} {j : Nat}
    (hm : nodes[j]? = some m) (hdef : m.defines name = true) (hvisible : visible j = true) :
    ∃ k, lastDefinition? name visible nodes = some k ∧ j ≤ k := by
  have hmem : (m, j) ∈ nodes.zipIdx.reverse := mem_reverse.2 (mem_zipIdx_iff_getElem?.2 hm)
  have horder : nodes.zipIdx.reverse.Pairwise fun c d => d.2 < c.2 := by
    rw [pairwise_reverse, ← pairwise_map (f := Prod.snd) (R := (· < ·)), zipIdx_map_snd]
    exact pairwise_lt_range'
  rw [lastDefinition?]
  generalize nodes.zipIdx.reverse = entries at hmem horder
  induction entries with
  | nil => cases hmem
  | cons entry entries ih =>
    obtain ⟨hlater, horder⟩ := pairwise_cons.1 horder
    rw [find?_cons]
    split
    · refine ⟨entry.2, rfl, ?_⟩
      obtain rfl | hmem := mem_cons.1 hmem
      · exact Nat.le_refl _
      · exact Nat.le_of_lt (hlater _ hmem)
    · rename_i hpass
      obtain rfl | hmem := mem_cons.1 hmem
      · simp [hdef, hvisible] at hpass
      · exact ih hmem horder

/-- A definition that can be seen is found, or one to the right of it. -/
theorem Node.Sees.findMixinExcept? (h : n.Sees path name place) (here : Path) :
    ∃ found, findMixinExcept? [] name here path n = some (here ++ found) ∧
      (place = found ∨ Path.Precedes place found) := by
  obtain ⟨r, j, i, rest, m, rfl, rfl, hji, hm, hdef⟩ := h
  induction r generalizing n here with
  | nil =>
    rw [nil_append, Node.findMixinExcept?]
    split
    · -- What is found further inside is to the right of all that is before the block.
      rename_i hdeep
      split at hdeep
      · obtain ⟨r, k, -, -, -, rfl, -⟩ := findMixinExcept?_spec hdeep
        exact ⟨i :: (r ++ [k]), by simp, .inr (.inl hji)⟩
      · cases hdeep
    · obtain ⟨_, ⟨⟩, hm⟩ := get?_append_singleton.1 hm
      obtain ⟨k, hk, hjk⟩ := le_lastDefinition? (fun j => !contains [] (here ++ [j]))
        ((getElem?_take_of_lt hji).trans hm) hdef rfl
      rw [hk]
      refine ⟨[k], rfl, ?_⟩
      rcases Nat.eq_or_lt_of_le hjk with rfl | hlt
      · exact .inl rfl
      · exact .inr (.inl hlt)
  | cons k r ih =>
    rw [cons_append, get?] at hm
    split at hm
    · rename_i c hc
      obtain ⟨found, hfound, horder⟩ := ih (here ++ [k]) hm
      refine ⟨k :: found, ?_, by simpa using horder⟩
      rw [cons_append, Node.findMixinExcept?, hc]
      simp only [hfound, append_assoc, singleton_append]
    · cases hm

/-- **The last mixin in sight is found.**  Of all definitions that a use can see, the one found is the
last in document order, and there is an error only if there are none.  The definition is not around the
use, and all that is in it is visited before the use if children are visited before their parent. -/
theorem Sheet.findMixin_last (sheet : Sheet) (path : Path) (name : String) :
    (∃ place m before after, sheet.findMixin path name = .ok place ∧
        sheet.root.Sees path name place ∧ sheet.root.places = before ++ (place, m) :: after ∧
        (∀ entry ∈ after, ¬ sheet.root.Sees path name entry.1) ∧ ¬ place <+: path ∧
        ∀ done use rest, sheet.root.placesUp = done ++ (path, use) :: rest →
          ∀ entry ∈ sheet.root.placesUp, place <+: entry.1 → entry ∈ done) ∨
      sheet.findMixin path name =
          .error ⟨.resolve (.mixinNotFound name), ⟨sheet.file, sheet.root.lineAt path⟩⟩ ∧
        ∀ place, ¬ sheet.root.Sees path name place := by
  cases hfind : sheet.root.findMixin? path name with
  | none =>
    refine .inr ⟨by rw [findMixin, hfind], fun place hsees => ?_⟩
    obtain ⟨found, hfound, -⟩ := hsees.findMixinExcept? []
    cases hfind.symm.trans hfound
  | some place =>
    obtain ⟨r, j, i, rest, m, hplace, hpath, hji, hm, hdef⟩ := findMixinExcept?_spec hfind
    rw [nil_append] at hplace
    rw [← hplace] at hm
    have hsees : sheet.root.Sees path name place := ⟨r, j, i, rest, m, hplace, hpath, hji, hm, hdef⟩
    obtain ⟨before, after, hplaces⟩ := append_of_mem (mem_placesFrom.2 ⟨place, rfl, hm⟩)
    refine .inl ⟨place, m, before, after, by rw [findMixin, hfind], hsees, hplaces, ?_,
      hsees.precedes.not_prefix, ?_⟩
    · intro entry hentry hlater
      have horder := pairwise_placesFrom sheet.root []
      rw [hplaces, pairwise_append, pairwise_cons] at horder
      obtain ⟨hinside, hprecedes⟩ := horder.2.1.1 entry hentry
      obtain ⟨found, hfound, heq | hlt⟩ := hlater.findMixinExcept? []
      all_goals cases Option.some.inj (hfind.symm.trans hfound)
      · exact hinside (heq ▸ prefix_rfl)
      · exact hprecedes hlt
    · rintro done use rest hup entry hentry ⟨below, hbelow⟩
      have hprecedes : Path.Precedes entry.1 path := by
        rw [← hbelow, ← append_nil path]
        exact hsees.precedes.append below []
      have horder := pairwise_placesUpFrom sheet.root []
      rw [← placesUp, hup, pairwise_append, pairwise_cons] at horder
      rw [hup, mem_append, mem_cons] at hentry
      obtain hdone | rfl | hrest := hentry
      · exact hdone
      · exact absurd hprecedes (Path.not_precedes_self _)
      · exact absurd hprecedes (horder.2.1.1 entry hrest).2

end Cascade
