import Cascade.Proofs.PlainStatements

/-!
# Pieces that hold their own

A piece of a text may be read differently once something stands behind it: a word goes on, a mark
becomes a longer one, a slash begins a comment.  Literals are safe if the next character is not one
that a token may go on with, and the marks that separate and enclose things are always safe.  So a
text that is put together from literals and such marks is read as it was put together.
-/

set_option autoImplicit false

namespace Cascade

open Lexeme List

variable {tail cs : List Char} {ps : List TextPiece} {c : Char}

/-! ## Marks -/

/-- A mark of one character as a piece. -/
def TextPiece.mark (gap : List Char) (c : Char) (kind : TokenKind) : TextPiece :=
  ⟨gap, { kind, text := [c] }⟩

@[simp] theorem textOf_mark (gap : List Char) (c : Char) (kind : TokenKind) (ps : List TextPiece) :
    textOf (TextPiece.mark gap c kind :: ps) = gap ++ c :: textOf ps :=
  textOf_cons _ _

/-! ## Text behind pieces -/

/-- **More text behind pieces.** -/
theorem Laid.extend (h : Laid ps []) (hps : ∀ p ∈ ps, p.kind ≠ .eof)
    (hjoint : tail.head?.any isJoint = false)
    (hstops : ∀ p, ps.getLast? = some p → Stops p.kind tail) : Laid ps tail := by
  induction ps with
  | nil => trivial
  | cons p ps ih =>
    obtain ⟨hgap, hleads, hlaid⟩ := h
    obtain ⟨hp, hps⟩ := forall_mem_cons.1 hps
    rw [append_nil] at hleads
    cases ps with
    | nil => exact ⟨hgap, hleads.extend hp hjoint fun _ => hstops p rfl, trivial⟩
    | cons q qs =>
      refine ⟨hgap, hleads.extend hp hjoint fun hnil => ?_, ih hlaid hps fun r hr => hstops r ?_⟩
      · rw [textOf_cons, append_eq_nil_iff, append_eq_nil_iff] at hnil
        exact absurd hnil.2.1 (hlaid.2.1.text_ne_nil (hps q mem_cons_self))
      · rwa [getLast?_cons_cons]

/-! ## Steady pieces -/

/-- **Pieces that are read whatever stands behind them**, if it is no more of a token. -/
def Steady (ps : List TextPiece) : Prop :=
  ∀ c tail, isJoint c = false → Laid ps (c :: tail)

theorem Steady.laid (h : Steady ps) (ht : Clear tail) : Laid ps tail := by
  obtain ⟨c, ds, rfl, hc⟩ := ht
  exact h c ds hc

theorem Steady.append {qs : List TextPiece} (h : Steady ps) (hclear : Clear (textOf qs))
    (hq : Steady qs) : Steady (ps ++ qs) :=
  fun c tail hc => laid_append.2 ⟨h.laid (hclear.append _), hq c tail hc⟩

/-- Pieces whose last token stays what it is. -/
theorem Laid.steady (h : Laid ps []) (hps : ∀ p ∈ ps, p.kind ≠ .eof)
    (hlast : ∀ p, ps.getLast? = some p → p.kind.isSteady = true) : Steady ps :=
  fun _ _ hc => h.extend hps hc fun p hp => .of_isSteady (hlast p hp) hc

/-- A token that is read on its own. -/
theorem Steady.lexeme {l : Lexeme} (h : l.Leads []) (hkind : l.kind.isSteady = true)
    {gap : List Char} (hgap : ∀ c ∈ gap, Text.isBlank c = true) : Steady [⟨gap, l⟩] := by
  exact fun c tail hc => ⟨hgap, h.clear hkind ⟨c, tail, rfl, hc⟩, trivial⟩

end Cascade
