import Cascade.Proofs.ScannedText

/-!
# Tokens tile their text

The tokens of a text and the gaps between them make up the text, without holes and in order.  What
lies in a gap is blank or a comment, a token says whether there is a gap before it, and it carries
the comments of that gap.  Byte offsets are counted along the pieces of the text, and lines along its
line breaks.
-/

set_option autoImplicit false

namespace Cascade

open List

variable {source : Source} {c stop : Cursor} {piece : List Char}

/-! ## Pieces of a source -/

theorem Text.takeBytes_append (as bs : List Char) :
    Text.takeBytes (Text.byteLength as) (as ++ bs) = as := by
  induction as with
  | nil => cases bs <;> rfl
  | cons c as ih =>
    have hpos : 0 < c.utf8Size := Char.utf8Size_pos c
    obtain ⟨n, hn⟩ : ∃ n, c.utf8Size + Text.byteLength as = n + 1 :=
      ⟨c.utf8Size + Text.byteLength as - 1, by omega⟩
    have hlength : n + 1 - c.utf8Size = Text.byteLength as := by omega
    rw [Text.byteLength_cons, hn, cons_append, Text.takeBytes, hlength, ih]

/-- The line of a byte offset: one more than the line breaks before it. -/
def Source.lineAt (source : Source) (position : Nat) : Nat :=
  1 + lineBreaks (source.slice ⟨0, position⟩).toList

/-- What a cursor passes is a slice of the source. -/
theorem Cursor.In.slice (h : c.In source) (hpasses : c.Passes piece stop) :
    source.slice ⟨c.position, stop.position⟩ = String.ofList piece := by
  rw [Source.slice, h.charsFrom, hpasses.position, hpasses.rest, Nat.add_sub_cancel_left,
    Text.takeBytes_append]

theorem Cursor.In.line (h : c.In source) : c.line = source.lineAt c.position := by
  obtain ⟨read, htext, hposition, hline⟩ := h
  have hpasses : Cursor.Passes { rest := source.text.toList } read c :=
    ⟨htext, hposition.trans (Nat.zero_add _).symm, hline⟩
  rw [Source.lineAt, (In.start source).slice hpasses, String.toList_ofList, hline]

theorem Cursor.In.position_le (h : c.In source) :
    c.position ≤ Text.byteLength source.text.toList := by
  obtain ⟨read, htext, hposition, -⟩ := h
  rw [htext, hposition, Text.byteLength_append]
  exact Nat.le_add_right _ _

/-! ## Tiles -/

/-- **A token in its place**, behind a byte offset at which the one before it ended. -/
structure Tile (source : Source) (stop : Nat) (t : Token) : Prop where
  after : stop ≤ t.span.start
  nonempty : t.span.start < t.span.stop
  inside : t.span.stop ≤ Text.byteLength source.text.toList
  text : source.slice t.span = t.text
  line : t.line = source.lineAt t.span.start
  spaced : t.spaced = true ↔ source.slice ⟨stop, t.span.start⟩ ≠ ""
  gap : IsGap (source.charsFrom t.span.start) (source.lineAt stop)
    (source.slice ⟨stop, t.span.start⟩).toList
    (t.comments.map fun comment => (comment.text, comment.line))

/-- **Tokens that cover a source** from a byte offset on, with nothing but gaps between them. -/
inductive Tiled (source : Source) : Nat → List Token → Prop where
  | nil {stop : Nat} {comments : List (String × Nat)} :
      IsGap [] (source.lineAt stop) (source.charsFrom stop) comments → Tiled source stop []
  | cons {stop : Nat} {t : Token} {ts : List Token} : Tile source stop t →
      Tiled source t.span.stop ts → Tiled source stop (t :: ts)

/-- The token that is read at a place in the source. -/
theorem scan_tile {lastLine : Option Nat} {t : Token} {next : Cursor}
    (h : scan lastLine c = .ok (t, next)) (ht : t.kind ≠ .eof) (hc : c.In source) :
    Tile source c.position t ∧ next.In source ∧ next.position = t.span.stop := by
  obtain ⟨gap, start, lexeme, comments, ⟨hpasses, hgap⟩, hread, rfl, rfl⟩ := scan_eq_ok h
  have hstart := hc.passes hpasses
  have htext : start.Passes lexeme.text (start.advance lexeme.text) :=
    .advance (Lexeme.isPrefix_read hread)
  have hnext := hstart.passes htext
  have hslice := hc.slice hpasses
  refine ⟨⟨?_, ?_, hnext.position_le, hstart.slice htext, hstart.line, ?_, ?_⟩, hnext, rfl⟩
  · show c.position ≤ start.position
    rw [hpasses.position]
    exact Nat.le_add_right _ _
  · obtain ⟨d, ds, hds⟩ := exists_cons_of_ne_nil (Lexeme.text_ne_nil hread ht)
    have hpos : 0 < d.utf8Size := Char.utf8Size_pos d
    show start.position < start.position + Text.byteLength lexeme.text
    rw [hds, Text.byteLength_cons]
    omega
  · show (start.position != c.position) = true ↔ source.slice ⟨c.position, start.position⟩ ≠ ""
    rw [hslice, hpasses.position_bne]
    cases gap <;> simp
  · show IsGap (source.charsFrom start.position) (source.lineAt c.position)
      (source.slice ⟨c.position, start.position⟩).toList _
    rwa [hslice, hstart.charsFrom, ← hc.line, String.toList_ofList]

theorem Listed.tiled {lastLine : Option Nat} {ts : List Token} (h : Listed lastLine c ts)
    (hc : c.In source) : Tiled source c.position ts := by
  induction ts generalizing lastLine c with
  | nil =>
    obtain ⟨t, stop, hscan, ht⟩ := h
    obtain ⟨gap, start, lexeme, comments, ⟨hpasses, hgap⟩, hread, rfl, -⟩ := scan_eq_ok hscan
    have hrest := hpasses.rest
    rw [Lexeme.eq_nil_of_eof hread ht] at hgap hrest
    rw [append_nil] at hrest
    rw [hc.line, ← hrest, ← hc.charsFrom] at hgap
    exact .nil hgap
  | cons t ts ih =>
    obtain ⟨next, hscan, ht, hrest⟩ := h
    obtain ⟨htile, hnext, hposition⟩ := scan_tile hscan ht hc
    exact .cons htile (hposition ▸ ih hrest hnext)

theorem Tiled.pairwise {stop : Nat} {ts : List Token} (h : Tiled source stop ts) :
    (∀ t ∈ ts, stop ≤ t.span.start) ∧ ts.Pairwise fun t u => t.span.stop ≤ u.span.start := by
  induction h with
  | nil => exact ⟨forall_mem_nil _, .nil⟩
  | cons htile _ ih =>
    have hstop := htile.nonempty.le
    refine ⟨forall_mem_cons.2 ⟨htile.after, fun u hu => ?_⟩, .cons ih.1 ih.2⟩
    exact htile.after.trans (hstop.trans (ih.1 u hu))

/-- **The tokens of a source tile it.**  They follow each other without overlap, each with its text
and its line, and between them there are only blanks and whole comments, which belong to the token
that comes next. -/
theorem tokenize_tiles {ts : List Token} (h : tokenize source = .ok ts) :
    Tiled source 0 ts ∧ ts.Pairwise fun t u => t.span.stop ≤ u.span.start := by
  have htiled : Tiled source 0 ts := (tokenize_eq_ok.1 h).tiled (.start source)
  exact ⟨htiled, htiled.pairwise.2⟩

/-- A character of two bytes and a line break in a comment, and a comment at the end. -/
def tilingSample : Source where
  text := "a/* é\n*/ .5em // b"

set_option maxRecDepth 10000 in
theorem tokenize_tiles_comments :
    ∃ ts, tokenize tilingSample = .ok ts ∧
      ts.map (fun t => (t.span, t.line, t.spaced, t.comments.map Comment.text)) =
        [(⟨0, 1⟩, 1, false, []), (⟨10, 14⟩, 2, true, ["é"])] ∧
      Tiled tilingSample 0 ts ∧ ts.Pairwise fun t u => t.span.stop ≤ u.span.start := by
  have hrun : (tokenize tilingSample).map (map fun t =>
      (t.span, t.line, t.spaced, t.comments.map Comment.text)) =
        .ok [(⟨0, 1⟩, 1, false, []), (⟨10, 14⟩, 2, true, ["é"])] := by
    decide +kernel
  obtain ⟨ts, hts, hplaces⟩ := map_eq_ok.1 hrun
  exact ⟨ts, hts, hplaces, tokenize_tiles hts⟩

end Cascade
