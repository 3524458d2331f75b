import Cascade.Proofs.LockstepStatements

/-!
# Parsing ends, and loses no token

A parser is given steps: every turn of a loop and every level of the grammar takes one.  A loop only
goes on after it has read a token, and no more than thirty-two levels lie between two tokens, so steps
in proportion to the length of a text are never used up.

A parser also reads from a ring, in which there is room for three tokens that are put back, and text
that is not cut into tokens is read where no token is put back.  A guarded stream fails where this is
not respected.  No parser makes it fail, and the guard makes no difference to what is parsed.

Both follow from parsing a text in lockstep with itself.
-/

set_option autoImplicit false

namespace Cascade

open Parse Tandem

/-- A stylesheet is parsed with more steps, and from a guarded stream, as it is without. -/
theorem sheet_outcomes (source : Source) {n : Nat} (hn : 32 * source.text.length + 5 ≤ n)
    (guarded : Bool) :
    (∃ root root' s, sheet n { TokenStream.ofSource source with guarded } = .ok (root, s) ∧
        parse source = .ok root' ∧ root.Same root') ∨
      ∃ e e', sheet n { TokenStream.ofSource source with guarded } = .error e ∧
        parse source = .error e' ∧ e.Alike e' := by
  have hlength : (Point.start source).rest.length = source.text.length := String.length_toList
  have henough : Enough (.start source, .start source) 5 n (stepsFor source) :=
    ⟨by rw [hlength]; exact hn, enough_stepsFor source⟩
  have hat : self.At (.start source, .start source) { TokenStream.ofSource source with guarded }
      (.ofSource source) :=
    ⟨rfl, .of_bare rfl rfl, .of_bare rfl rfl, rfl, Nat.zero_le 2, nofun⟩
  obtain ⟨e, e', he, he', halike⟩ | ⟨_, root, root', s, _, hrun, hrun', hsame, -⟩ :=
    (sheet_lockstep henough _ _ hat).outcomes
  · exact .inr ⟨e, e', he, by rw [parse, StateT.run', he']; rfl, halike⟩
  · exact .inl ⟨root, root', s, hrun, by rw [parse, StateT.run', hrun']; rfl, hsame⟩

/-- **Parsing ends.**  With thirty-two steps for every character and five more, or any larger number,
the steps are not used up: a stylesheet is parsed or an error is found, and a larger number makes no
difference to which. -/
theorem parse_ends (source : Source) (extra : Nat) :
    (∃ root root' s, sheet (32 * source.text.length + 5 + extra) (.ofSource source) =
        .ok (root, s) ∧ parse source = .ok root' ∧ root.Same root') ∨
      ∃ e e', sheet (32 * source.text.length + 5 + extra) (.ofSource source) = .error e ∧
        parse source = .error e' ∧ e.cause = e'.cause ∧ e.cause ≠ .parse .outOfSteps := by
  obtain hparsed | ⟨e, e', he, he', halike⟩ :=
    sheet_outcomes source (Nat.le_add_right _ extra) false
  · exact .inl hparsed
  · exact .inr ⟨e, e', he, he', halike.cause_eq, halike.steps_left⟩

/-- **A parser loses no token.**  Read from a guarded stream, a stylesheet has the tree that it has
without the guard, or the error; so never more than three tokens are put back, and text is read raw only
where none is. -/
theorem parse_loses_no_token (source : Source) :
    (∃ root root' s, sheet (stepsFor source) { TokenStream.ofSource source with guarded := true } =
        .ok (root, s) ∧ parse source = .ok root' ∧ root.Same root') ∨
      ∃ e e', sheet (stepsFor source) { TokenStream.ofSource source with guarded := true } =
        .error e ∧ parse source = .error e' ∧ e.cause = e'.cause ∧ e.cause ≠ .parse .tokenLost := by
  have hsteps : 32 * source.text.length + 5 ≤ stepsFor source := by
    rw [stepsFor]
    omega
  obtain hparsed | ⟨e, e', he, he', halike⟩ := sheet_outcomes source hsteps true
  · exact .inl hparsed
  · exact .inr ⟨e, e', he, he', halike.cause_eq, halike.tokens_kept⟩

end Cascade
