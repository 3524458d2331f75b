import Cascade.Proofs.ScannedText

/-!
# Written tokens are read back

The lexer takes as many characters as it can, so whether a text is read as one token hangs on what
stands behind it.  A token that is read on its own is read in front of everything that is no more of
a token, but for a few marks that may become longer ones or begin a comment.
-/

set_option autoImplicit false

namespace Cascade

open Lexeme List

variable {cs tail : List Char} {c : Char} {l : Lexeme} {kind : TokenKind} (literal : Literal)

/-! ## Text behind a token -/

/-- A token that is read in front of a text, with nothing before it to skip. -/
structure Lexeme.Leads (l : Lexeme) (tail : List Char) : Prop where
  read : Lexeme.read (l.text ++ tail) = .ok l
  starts : startsToken (l.text ++ tail) = true

/-- **Every token is read on its own.** -/
theorem Lexeme.leads_of_read (h : read cs = .ok l) : l.Leads [] := by
  refine ⟨?_, ?_⟩ <;> rw [append_nil] <;> cases cs with
  | nil =>
    cases h
    rfl
  | cons c cs => first | exact read_text h | exact (read_heads h).starts

/-- A token of the kind stays what it is if the text stands behind it. -/
structure Stops (kind : TokenKind) (tail : List Char) : Prop where
  joint : tail.head?.any isJoint = false
  dollar : kind = .dollar → tail.head? ≠ some '\x7b'
  colon : kind = .colon → tail.head? ≠ some ':'
  slash : kind = .slash → tail.head? ≠ some '/' ∧ tail.head? ≠ some '*'

namespace Lexeme.Leads

variable {tail : List Char}

/-- Only the end of a text has no text. -/
theorem text_ne_nil (h : l.Leads tail) (hkind : l.kind ≠ .eof) : l.text ≠ [] :=
  Lexeme.text_ne_nil h.read hkind

/-- The text of a token that is not the end of a text, with what is behind it. -/
theorem eq_of_append_eq_singleton (h : l.Leads cs) (hkind : l.kind ≠ .eof)
    (heq : l.text ++ cs = [c]) : cs = [] ∧ Lexeme.read [c] = .ok l := by
  have hread := h.read
  rw [heq] at hread
  refine ⟨?_, hread⟩
  have hne := h.text_ne_nil hkind
  obtain ⟨-, rfl⟩ | ⟨-, hcs⟩ := append_eq_singleton_iff.1 heq
  · simp_all
  · exact hcs

/-- **More text behind a token.** -/
theorem extend (h : l.Leads cs) (hkind : l.kind ≠ .eof)
    (hjoint : tail.head?.any isJoint = false) (hstops : cs = [] → Stops l.kind tail) :
    l.Leads (cs ++ tail) := by
  have hne : l.text ++ cs ≠ [] := fun hnil => h.text_ne_nil hkind (append_eq_nil_iff.1 hnil).1
  -- A text of one character is the whole token.
  have hsingle {c : Char} {kind : TokenKind} (hc : Lexeme.read [c] = .ok { kind, text := [c] })
      (heq : l.text ++ cs = [c]) : cs = [] ∧ l.kind = kind := by
    obtain ⟨hcs, hread⟩ := h.eq_of_append_eq_singleton hkind heq
    cases hc.symm.trans hread
    exact ⟨hcs, rfl⟩
  have hsevered : Severed (l.text ++ cs) tail := by
    refine ⟨hjoint, fun heq => ?_, fun heq => ?_⟩
    · obtain ⟨hcs, hdollar⟩ := hsingle rfl heq
      exact (hstops hcs).dollar hdollar
    · obtain ⟨hcs, hcolon⟩ := hsingle rfl heq
      exact (hstops hcs).colon hcolon
  have hread : Lexeme.read (l.text ++ cs ++ tail) = .ok l := by
    have hread := h.read
    cases heq : l.text ++ cs with
    | nil => exact absurd heq hne
    | cons c ds =>
      rw [heq] at hread hsevered
      exact read_append hread hsevered
  have hstarts : startsToken (l.text ++ cs ++ tail) = true := by
    refine startsToken_append hne h.starts fun heq => ?_
    obtain ⟨hcs, hslash⟩ := hsingle rfl heq
    exact (hstops hcs).slash hslash
  rw [append_assoc] at hread hstarts
  exact ⟨hread, hstarts⟩

end Lexeme.Leads

/-- The kinds of tokens that stay what they are. -/
def TokenKind.isSteady : TokenKind → Bool
  | dollar | colon | slash | eof => false
  | _ => true

theorem TokenKind.ne_eof_of_isSteady (h : kind.isSteady = true) : kind ≠ .eof := by
  rintro rfl
  cases h

theorem Stops.of_isSteady (h : kind.isSteady = true) (hc : isJoint c = false) :
    Stops kind (c :: tail) := by
  refine ⟨hc, ?_, ?_, ?_⟩ <;>
  · rintro rfl
    cases h

/-- A text that is no more of a token. -/
def Clear (cs : List Char) : Prop :=
  ∃ c ds, cs = c :: ds ∧ isJoint c = false

theorem Clear.append (h : Clear cs) (ds : List Char) : Clear (cs ++ ds) := by
  obtain ⟨c, cs, rfl, hc⟩ := h
  exact ⟨c, cs ++ ds, rfl, hc⟩

theorem Clear.blank (cs : List Char) : Clear (' ' :: cs) := ⟨' ', cs, rfl, rfl⟩

theorem Clear.close (cs : List Char) : Clear (')' :: cs) := ⟨')', cs, rfl, rfl⟩

/-- A token that is read on its own is read in front of what is no more of a token. -/
theorem Lexeme.Leads.clear (h : l.Leads []) (hkind : l.kind.isSteady = true) (ht : Clear tail) :
    l.Leads tail := by
  obtain ⟨c, ds, rfl, hc⟩ := ht
  exact h.extend (TokenKind.ne_eof_of_isSteady hkind) hc fun _ => .of_isSteady hkind hc

/-! ## Marks -/

/-- The marks that are read whatever stands behind them. -/
def separators : List (Char × TokenKind) :=
  [(',', .comma), (';', .semicolon), ('\x7b', .openBrace), ('\x7d', .closeBrace),
    ('(', .openParen), (')', .closeParen)]

namespace Lexeme.Leads

/-- A mark of one character that is not the start of a longer one or of a comment. -/
theorem mark (hread : Lexeme.read (c :: tail) = readMark c tail.head?)
    (hassign : tail.head? ≠ some '=' ∨ AssignOp.ofChar? c = none)
    (hdouble : tail.head?.bind (doubleMark? c) = none) (hsingle : singleMark? c = some kind)
    (hstarts : startsToken (c :: tail) = true) : Leads { kind, text := [c] } tail :=
  ⟨hread.trans (readMark_single hassign hdouble hsingle), hstarts⟩

theorem separator (h : (c, kind) ∈ separators) : Leads { kind, text := [c] } tail := by
  simp only [separators, mem_cons, Prod.mk.injEq, not_mem_nil, or_false] at h
  obtain ⟨rfl, rfl⟩ | ⟨rfl, rfl⟩ | ⟨rfl, rfl⟩ | ⟨rfl, rfl⟩ | ⟨rfl, rfl⟩ | ⟨rfl, rfl⟩ := h <;>
    exact .mark rfl (.inr rfl) (by cases tail.head? <;> rfl) rfl rfl

theorem colon (h : tail.head? ≠ some ':') : Leads { kind := .colon, text := [':'] } tail := by
  refine .mark rfl (.inr rfl) ?_ rfl rfl
  cases hhead : tail.head? with
  | none => rfl
  | some d =>
    rw [Option.bind_some]
    unfold doubleMark?
    split <;> simp_all

theorem bang (h : tail.head? ≠ some '=') : Leads { kind := .bang, text := ['!'] } tail := by
  refine .mark rfl (.inl h) ?_ rfl rfl
  cases hhead : tail.head? with
  | none => rfl
  | some d =>
    rw [Option.bind_some]
    unfold doubleMark?
    split <;> simp_all

end Lexeme.Leads

/-! ## Literals -/

theorem read_of_isWord {text : List Char} (h : isWord text = true) :
    Lexeme.read text = .ok { kind := .identifier, text, value := String.ofList text } := by
  unfold isWord at h
  split at h
  · rw [Bool.and_eq_true] at h
    rw [(Fronts.hash h.1).read, readHash, nameChars_of_isName h.2]
  · rw [Bool.and_eq_true, all_eq_true] at h
    rw [(Fronts.hexWord h.1).read, readHexWord, takeWhile_eq_self_iff.2 h.2]
  · simp only [Bool.and_eq_true, beq_iff_eq] at h
    rw [(Fronts.word h.1.1).read, readWord, nameChars_of_isName h.1.2, h.2]
  · simp at h

theorem VariableName.read_written (x : VariableName) : Lexeme.read x.written = .ok x.lexeme := by
  rw [VariableName.lexeme, VariableName.written]
  split
  · rename_i hstart
    rw [(Fronts.variable hstart).read, readNamed, nameChars_of_isName x.isName]
  · exact (Fronts.block [] x.nonempty x.isName).read

theorem Numeral.read_text (n : Numeral) :
    Lexeme.read (Literal.number n).lexeme.text = .ok (Literal.number n).lexeme := by
  have hparts : Parts n.whole n.fraction n.unit :=
    ⟨n.whole_digits, n.fraction_digits, n.nonempty, n.unit_letters.imp_right And.left⟩
  obtain ⟨c, more, htext, hstarts⟩ := hparts.starts
  have hread := hparts.readNumber
  rw [htext] at hread
  show Lexeme.read (decimal n.whole n.fraction ++ n.unit) = .ok (numberLexeme _ _ _)
  rw [htext, ← hread]
  refine (Fronts.number hstarts fun hzero ds hds => ?_).read
  -- What follows the first digit is a digit, a point or the unit, and none of these is an `x`.
  subst hzero hds
  have hunit : n.unit.head? ≠ some 'x' := by
    rcases n.unit_letters with hunit | ⟨-, hunit⟩
    · simp [hunit]
    · exact hunit
  have hwhole := n.whole_digits
  rw [decimal] at htext
  rcases hw : n.whole with _ | ⟨w, _ | ⟨d, ws⟩⟩
  · have := n.nonempty
    split at htext <;> simp_all
  · split at htext <;> simp_all
  · split at htext <;> simp_all

/-- Literals are read back. -/
theorem Literal.read_text : Lexeme.read literal.lexeme.text = .ok literal.lexeme := by
  match literal with
  | .number n => exact n.read_text
  | .string q => exact (Fronts.string q []).read
  | .word w => exact read_of_isWord w.isWord
  | .boolean true | .boolean false | .null => rfl
  | .reference x => exact x.read_written

theorem Literal.isSteady_kind : literal.lexeme.kind.isSteady = true := by
  match literal with
  | .number _ | .string _ | .word _ | .boolean true | .boolean false | .null | .reference _ => rfl

theorem Literal.kind_ne_eof : literal.lexeme.kind ≠ .eof :=
  TokenKind.ne_eof_of_isSteady literal.isSteady_kind

/-- **Literals are read back**, on their own and in front of what is no more of a token. -/
theorem Literal.leads : literal.lexeme.Leads [] :=
  leads_of_read literal.read_text

theorem Literal.leads_clear (ht : Clear tail) : literal.lexeme.Leads tail :=
  literal.leads.clear literal.isSteady_kind ht

/-! ## Scanning -/

theorem readGap_none {lastLine : Option Nat} {cursor : Cursor} (fuel breaks : Nat)
    (h : startsToken cursor.rest = true) :
    readGap lastLine fuel cursor breaks = .ok (cursor, []) := by
  cases fuel with
  | zero => rfl
  | succ fuel =>
    rw [readGap]
    split
    · simp_all [startsToken]
    · simp_all [startsToken]
    · rename_i c cs _ _ hrest
      rw [hrest] at h
      rw [isBlank_of_startsToken h]
      rfl
    · rfl

theorem Cursor.advance_append (c : Cursor) (as bs : List Char) :
    (c.advance as).advance bs = c.advance (as ++ bs) := by
  simp only [Cursor.advance, drop_drop, length_append, Text.byteLength_append, lineBreaks_append,
    Nat.add_assoc]

/-- Blanks are read as a gap without comments. -/
theorem readGap_blanks {gap : List Char} (hgap : ∀ c ∈ gap, Text.isBlank c = true)
    (h : startsToken cs = true) {c : Cursor} (hc : c.rest = gap ++ cs) (lastLine : Option Nat)
    {fuel : Nat} (hfuel : gap.length ≤ fuel) (breaks : Nat) :
    readGap lastLine fuel c breaks = .ok (c.advance gap, []) := by
  induction gap generalizing c fuel breaks with
  | nil => exact readGap_none fuel breaks (by rwa [hc])
  | cons b gap ih =>
    obtain ⟨hb, hgap⟩ := forall_mem_cons.1 hgap
    obtain ⟨fuel, rfl⟩ : ∃ n, fuel = n + 1 :=
      ⟨fuel - 1, by simp only [length_cons] at hfuel; omega⟩
    have hrest : (c.advance [b]).rest = gap ++ cs := by
      rw [Cursor.advance, hc]
      rfl
    have hslash : b ≠ '/' := by
      rintro rfl
      cases hb
    rw [readGap]
    split
    · rename_i heq
      exact absurd (cons.inj (hc.symm.trans heq)).1 hslash
    · rename_i heq
      exact absurd (cons.inj (hc.symm.trans heq)).1 hslash
    · rename_i d ds _ _ heq
      obtain ⟨rfl, -⟩ := cons.inj (hc.symm.trans heq)
      rw [if_pos hb, ih hgap hrest (Nat.le_of_succ_le_succ hfuel), Cursor.advance_append]
      rfl
    · rename_i heq
      cases hc.symm.trans heq

/-- **The gap and the token after it are read.** -/
theorem Lexeme.Leads.scan (h : l.Leads tail) {gap : List Char}
    (hgap : ∀ c ∈ gap, Text.isBlank c = true) {c : Cursor} (hc : c.rest = gap ++ (l.text ++ tail))
    (lastLine : Option Nat) :
    Cascade.scan lastLine c = .ok (l.placed (c.advance gap) (!gap.isEmpty) [],
      c.advance (gap ++ l.text)) := by
  have hstart : (c.advance gap).rest = l.text ++ tail := by
    rw [Cursor.advance, hc, drop_left]
  have hread : readGap lastLine c.rest.length c 0 = .ok (c.advance gap, []) :=
    readGap_blanks hgap h.starts hc lastLine (by rw [hc, length_append]; omega) 0
  have hspaced : ((c.advance gap).position != c.position) = !gap.isEmpty :=
    (Cursor.Passes.advance ⟨_, hc.symm⟩).position_bne
  simp only [Cascade.scan, hread, bind, Except.bind, hstart, h.read, hspaced, Cursor.advance_append]
  rfl

end Cascade
