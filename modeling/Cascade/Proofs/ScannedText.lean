import Cascade.Proofs.Relexing
import Cascade.Proofs.TokensAhead

/-!
# The text behind a token

A token is cut off the front of a text, after the blanks and comments before it.  So a scan moves the
cursor over a piece of the text, and the cursor keeps counting bytes and lines on the way.  Every token
but the last takes a piece that is not empty, and the last one is only read when nothing is left.
-/

set_option autoImplicit false

namespace Cascade

open List

variable {cs : List Char} {lastLine : Option Nat} {l : Lexeme} {t : Token} {c next stop : Cursor}
  {source : Source}

/-! ## Cursors over a text -/

theorem lineBreaks_append (as bs : List Char) :
    lineBreaks (as ++ bs) = lineBreaks as + lineBreaks bs :=
  count_append

namespace Cursor

variable {piece : List Char}

/-- A cursor moves over a piece of text. -/
structure Passes (c : Cursor) (piece : List Char) (stop : Cursor) : Prop where
  rest : c.rest = piece ++ stop.rest
  position : stop.position = c.position + Text.byteLength piece
  line : stop.line = c.line + lineBreaks piece

theorem Passes.refl (c : Cursor) : c.Passes [] c :=
  ⟨rfl, rfl, rfl⟩

theorem Passes.trans {mid : Cursor} {as bs : List Char} (h : c.Passes as mid)
    (h' : mid.Passes bs stop) : c.Passes (as ++ bs) stop where
  rest := by rw [h.rest, h'.rest, append_assoc]
  position := by rw [h'.position, h.position, Text.byteLength_append, Nat.add_assoc]
  line := by rw [h'.line, h.line, lineBreaks_append, Nat.add_assoc]

theorem Passes.advance (h : piece <+: c.rest) : c.Passes piece (c.advance piece) := by
  obtain ⟨rest, hrest⟩ := h
  refine ⟨?_, rfl, rfl⟩
  rw [Cursor.advance, ← hrest, drop_left]

/-- The place changes unless the piece is empty. -/
theorem Passes.position_bne (h : c.Passes piece stop) :
    (stop.position != c.position) = !piece.isEmpty := by
  rw [h.position]
  cases piece with
  | nil => exact bne_self_eq_false c.position
  | cons b piece =>
    have hpos : 0 < b.utf8Size := Char.utf8Size_pos b
    refine bne_iff_ne.2 ?_
    rw [Text.byteLength_cons]
    omega

/-- The place of a cursor in a source: what was read before it makes up its byte offset and its
line. -/
def In (source : Source) (c : Cursor) : Prop :=
  ∃ read, source.text.toList = read ++ c.rest ∧ c.position = Text.byteLength read ∧
    c.line = 1 + lineBreaks read

theorem In.start (source : Source) : In source { rest := source.text.toList } :=
  ⟨[], rfl, rfl, rfl⟩

theorem In.charsFrom (h : c.In source) : source.charsFrom c.position = c.rest := by
  obtain ⟨read, htext, hposition, -⟩ := h
  rw [Source.charsFrom, htext, hposition, Text.dropBytes_append]

theorem In.passes (h : c.In source) (hpasses : c.Passes piece stop) : stop.In source := by
  obtain ⟨read, htext, hposition, hline⟩ := h
  refine ⟨read ++ piece, ?_, ?_, ?_⟩
  · rw [htext, hpasses.rest, append_assoc]
  · rw [hpasses.position, hposition, Text.byteLength_append]
  · rw [hpasses.line, hline, lineBreaks_append, Nat.add_assoc]

end Cursor

open Cursor

/-- A comment without a closing mark goes up to the end of its line. -/
theorem head?_lineCommentBody {behind : List Char} (h : lineCommentBody cs ++ behind = cs) :
    behind.head?.all (· == '\n') = true := by
  obtain rfl : behind = cs.dropWhile (· != '\n') :=
    append_cancel_left (h.trans takeWhile_append_dropWhile.symm)
  have hstop := head?_dropWhile_not (· != '\n') cs
  cases hhead : (cs.dropWhile (· != '\n')).head? with
  | none => rfl
  | some d => simpa [hhead] using hstop

/-- The text of a comment goes up to the first mark that closes it. -/
theorem blockCommentBody?_eq_some {body : List Char} (h : blockCommentBody? cs = some body) :
    body ++ ['*', '/'] <+: cs ∧ ¬ ['*', '/'] <:+: body ++ ['*'] := by
  fun_induction blockCommentBody? cs generalizing body with
  | case1 rest =>
    cases h
    exact ⟨by simp, by decide⟩
  | case2 c cs hclose ih =>
    obtain ⟨inner, hinner, rfl⟩ := Option.map_eq_some_iff.1 h
    obtain ⟨hstarts, hopen⟩ := ih hinner
    refine ⟨(prefix_cons_inj c).2 hstarts, fun hmark => ?_⟩
    rw [cons_append, infix_cons_iff] at hmark
    obtain hmark | hmark := hmark
    · obtain ⟨rfl, hslash⟩ := cons_prefix_cons.1 hmark
      obtain ⟨rest, rfl⟩ := hstarts
      cases inner with
      | nil => simp at hslash
      | cons d inner =>
        obtain ⟨rfl, -⟩ := cons_prefix_cons.1 hslash
        exact hclose _ rfl rfl
    · exact hopen hmark
  | case3 => simp at h

/-- **A gap**: blanks and whole comments, with the texts of the comments and the lines they begin
on.  A comment that ends at its line is whole if the line ends there. -/
inductive IsGap (behind : List Char) : Nat → List Char → List (String × Nat) → Prop where
  | nil {line : Nat} : IsGap behind line [] []
  | blank {line : Nat} {c : Char} {gap : List Char} {comments : List (String × Nat)} :
      Text.isBlank c = true → IsGap behind (line + lineBreaks [c]) gap comments →
      IsGap behind line (c :: gap) comments
  | lineComment {line : Nat} {body gap : List Char} {comments : List (String × Nat)} :
      '\n' ∉ body → (gap ++ behind).head?.all (· == '\n') = true → IsGap behind line gap comments →
      IsGap behind line ('/' :: '/' :: body ++ gap)
        ((String.ofList (Text.trim body), line) :: comments)
  | blockComment {line : Nat} {body gap : List Char} {comments : List (String × Nat)} :
      ¬ ['*', '/'] <:+: body ++ ['*'] → IsGap behind (line + lineBreaks body) gap comments →
      IsGap behind line ('/' :: '*' :: body ++ ['*', '/'] ++ gap)
        ((String.ofList (Text.trim body), line) :: comments)

/-- **Blanks and comments are a gap in front of what stands behind.** -/
theorem readGap_passes {fuel breaks : Nat} {comments : List Comment}
    (h : readGap lastLine fuel c breaks = .ok (stop, comments)) : ∃ gap, c.Passes gap stop ∧
      IsGap stop.rest c.line gap (comments.map fun comment => (comment.text, comment.line)) := by
  induction fuel generalizing c breaks comments with
  | zero =>
    cases h
    exact ⟨[], .refl _, .nil⟩
  | succ fuel ih =>
    -- Every piece of the gap is passed in one step, and the steps after it pass the rest.
    have step : ∀ {piece breaks comments}, piece <+: c.rest →
        readGap lastLine fuel (c.advance piece) breaks = .ok (stop, comments) →
        ∃ gap, c.Passes (piece ++ gap) stop ∧ IsGap stop.rest (c.line + lineBreaks piece) gap
          (comments.map fun comment => (comment.text, comment.line)) := by
      intro piece breaks comments hpiece h
      obtain ⟨gap, hpasses, hgap⟩ := ih h
      exact ⟨gap, (Passes.advance hpiece).trans hpasses, hgap⟩
    rw [readGap.eq_def] at h
    dsimp only at h
    split at h
    · rename_i cs hrest
      obtain ⟨⟨next, more⟩, hnext, h⟩ := bind_eq_ok.1 h
      cases h
      have hbody : '\n' ∉ lineCommentBody cs := oneLine_of_class all_takeWhile rfl
      have hstarts : lineCommentBody cs <+: cs := takeWhile_prefix _
      obtain ⟨gap, hpasses, hgap⟩ := step (by simpa [hrest] using hstarts) hnext
      refine ⟨_, hpasses, .lineComment hbody ?_ ?_⟩
      · exact head?_lineCommentBody (by simpa [hrest] using hpasses.rest.symm)
      · rwa [show lineBreaks _ = 0 from count_eq_zero_of_not_mem (by simpa using hbody)] at hgap
    · rename_i cs hrest
      split at h
      · cases h
      · rename_i body hbody
        obtain ⟨⟨next, more⟩, hnext, h⟩ := bind_eq_ok.1 h
        cases h
        obtain ⟨hstarts, hopen⟩ := blockCommentBody?_eq_some hbody
        obtain ⟨gap, hpasses, hgap⟩ := step (by rw [hrest]; simpa using hstarts) hnext
        refine ⟨_, hpasses, .blockComment hopen ?_⟩
        rwa [show lineBreaks _ = lineBreaks body by simp [lineBreaks]] at hgap
    · rename_i d cs _ _ hrest
      split at h
      · rename_i hblank
        obtain ⟨gap, hpasses, hgap⟩ := step (by simp [hrest]) h
        exact ⟨_, hpasses, .blank hblank hgap⟩
      · cases h
        exact ⟨[], .refl _, .nil⟩
    · cases h
      exact ⟨[], .refl _, .nil⟩

/-! ## Scans -/

section

variable (h : scan lastLine c = .ok (t, next))

include h

/-- What is read by a scan: a gap, and the token after it. -/
theorem scan_eq_ok : ∃ gap start lexeme comments, (c.Passes gap start ∧ IsGap start.rest c.line gap
        (comments.map fun comment => (comment.text, comment.line))) ∧
      Lexeme.read start.rest = .ok lexeme ∧ t = lexeme.placed start (start.position != c.position) comments ∧
      next = start.advance lexeme.text := by
  obtain ⟨⟨start, comments⟩, hgap, h⟩ := bind_eq_ok.1 h
  obtain ⟨gap, hpasses⟩ := readGap_passes hgap
  dsimp only at h
  split at h
  · cases h
  · rename_i lexeme hread
    cases h
    exact ⟨gap, start, lexeme, comments, hpasses, hread, rfl, rfl⟩

/-- **A scan moves the cursor over a piece of text.** -/
theorem scan_passes : ∃ piece, c.Passes piece next := by
  obtain ⟨gap, start, lexeme, comments, ⟨hgap, -⟩, hread, -, rfl⟩ := scan_eq_ok h
  exact ⟨gap ++ lexeme.text, hgap.trans (.advance (Lexeme.isPrefix_read hread))⟩

theorem scan_stop : t.span.stop = next.position := by
  obtain ⟨gap, start, lexeme, comments, -, -, rfl, rfl⟩ := scan_eq_ok h
  rfl

/-- **Every token but the end of the text takes some of the text.** -/
theorem scan_shortens (ht : t.kind ≠ .eof) : next.rest.length < c.rest.length := by
  obtain ⟨gap, start, lexeme, comments, ⟨hgap, -⟩, hread, rfl, rfl⟩ := scan_eq_ok h
  have hpasses := hgap.trans (.advance (Lexeme.isPrefix_read hread))
  have htext : 0 < lexeme.text.length := length_pos_iff.2 (Lexeme.text_ne_nil hread ht)
  rw [hpasses.rest, length_append, length_append]
  omega

/-- **The end of the text is read when nothing is left.** -/
theorem scan_eof (ht : t.kind = .eof) : next.rest = [] := by
  obtain ⟨gap, start, lexeme, comments, -, hread, rfl, rfl⟩ := scan_eq_ok h
  rw [Cursor.advance, Lexeme.eq_nil_of_eof hread ht, drop_nil]

end

/-- The token at the end of a text, which is read again and again. -/
def endToken (c : Cursor) : Token where
  span := ⟨c.position, c.position⟩
  line := c.line

theorem scan_nil (h : c.rest = []) : scan lastLine c = .ok (endToken c, c) := by
  obtain ⟨rest, position, line⟩ := c
  cases h
  simp [scan, readGap, Lexeme.read, Lexeme.placed, Cursor.advance, endToken, lineBreaks, bind,
    Except.bind, pure, Except.pure]

/-! ## All tokens -/

/-- The tokens that are read from a place on, up to the end of the text. -/
def Listed : Option Nat → Cursor → List Token → Prop
  | lastLine, c, [] => ∃ t stop, scan lastLine c = .ok (t, stop) ∧ t.kind = .eof
  | lastLine, c, t :: ts => ∃ next, scan lastLine c = .ok (t, next) ∧ t.kind ≠ .eof ∧
      Listed (some next.line) next ts

open TokenStream in
/-- What a stream lists is what is read from its place on. -/
theorem toList_eq_ok {fuel : Nat} {s : TokenStream} {ts : List Token} (hnone : s.pushedBack = 0)
    (hfuel : s.cursor.rest.length < fuel) :
    s.toList fuel = .ok ts ↔ Listed s.lastLine s.cursor ts := by
  induction fuel generalizing s ts with
  | zero => exact absurd hfuel (Nat.not_lt_zero _)
  | succ fuel ih =>
    rw [TokenStream.toList]
    cases hscan : scan s.lastLine s.cursor with
    | error e =>
      have hnext : s.next = .error (s.errorAt e.2 (.lex e.1)) := by
        rw [TokenStream.next, hnone]
        simp only [readNext, hscan]
      rw [hnext]
      cases ts <;> simp [Listed, hscan, bind, Except.bind]
    | ok r =>
      obtain ⟨t, c⟩ := r
      obtain ⟨s', hnext, htoken, hnone', hline, hcursor⟩ : ∃ s', s.next = .ok s' ∧ s'.token = t ∧
          s'.pushedBack = 0 ∧ s'.lastLine = some c.line ∧ s'.cursor = c :=
        ⟨_, next_of_scan hnone hscan, by rw [token, get_slots, Vector.getElem_set_self], hnone,
          rfl, rfl⟩
      rw [hnext]
      show (if s'.token.kind = .eof then pure []
        else s'.toList fuel >>= fun rest => pure (s'.token :: rest)) = .ok ts ↔ _
      rw [htoken]
      split
      · rename_i ht
        cases ts <;> grind [Listed, pure_eq_ok]
      · rename_i ht
        have hshorter := scan_shortens hscan ht
        have hrest {rest : List Token} :
            s'.toList fuel = .ok rest ↔ Listed (some c.line) c rest := by
          rw [ih hnone' (by rw [hcursor]; omega), hline, hcursor]
        simp only [bind_eq_ok, hrest, pure_eq_ok]
        cases ts <;> grind [Listed]

theorem tokenize_eq_ok {ts : List Token} :
    tokenize source = .ok ts ↔ Listed none { rest := source.text.toList } ts :=
  toList_eq_ok rfl (Nat.lt_succ_self _)

end Cascade
