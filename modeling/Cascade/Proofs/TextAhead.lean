import Cascade.Proofs.ScannedText

/-!
# The text ahead of a stream

What a parser sees of a token is what it is, not where: its line, its span and its comments have no
part in any decision.  So all that a stream can show is settled by its current token and by the text
behind it, wherever in a source that text stands.  A `Point` is just that, and `Reached` says that a
stream is at a place, whatever tokens of the text it has already read and put back.
-/

set_option autoImplicit false

namespace Cascade

variable (lastLine : Option Nat) (c : Cursor)

/-! ## Tokens apart from their places -/

namespace Token

/-- **What a token is**, apart from its place and its comments. -/
def essence (t : Token) : Token :=
  { t with span := {}, line := 0, comments := [] }

variable {t t' : Token}

theorem kind_eq_of_essence (h : t.essence = t'.essence) : t.kind = t'.kind :=
  show t.essence.kind = t'.essence.kind by rw [h]

end Token

/-! ## What is read first -/

/-- The text behind a gap. -/
def gapEnd : Except (LexError × Nat) (Cursor × List Comment) → Except LexError (List Char)
  | .error (error, _) => .error error
  | .ok (stop, _) => .ok stop.rest

/-- Where a gap ends is settled by the text alone. -/
theorem gapEnd_readGap {l l' : Option Nat} (c' : Cursor) (h : c.rest = c'.rest)
    (fuel breaks breaks' : Nat) :
    gapEnd (readGap l fuel c breaks) = gapEnd (readGap l' fuel c' breaks') := by
  have hcomment (comment : Comment) (r : Except (LexError × Nat) (Cursor × List Comment)) :
      gapEnd (r >>= fun behind => pure (behind.1, comment :: behind.2)) = gapEnd r := by
    cases r <;> rfl
  induction fuel generalizing c c' breaks breaks' with
  | zero => exact congrArg Except.ok h
  | succ fuel ih =>
    have hadvance (piece : List Char) : (c.advance piece).rest = (c'.advance piece).rest :=
      congrArg (List.drop piece.length) h
    rw [readGap, readGap, ← h]
    split
    · refine (hcomment _ _).trans (.trans ?_ (hcomment _ _).symm)
      exact ih _ _ (hadvance _) _ _
    · split
      · rfl
      · refine (hcomment _ _).trans (.trans ?_ (hcomment _ _).symm)
        exact ih _ _ (hadvance _) _ _
    · split
      · exact ih _ _ (hadvance _) _ _
      · exact congrArg Except.ok h
    · exact congrArg Except.ok h

/-- What a scan gives, apart from the place. -/
def outline : Except (LexError × Nat) (Token × Cursor) → Except LexError (Token × List Char)
  | .error (error, _) => .error error
  | .ok (t, next) => .ok (t.essence, next.rest)

/-- What is read behind a gap that began with `length` characters ahead, apart from the place. -/
def readBehind (length : Nat) (cs : List Char) : Except LexError (Token × List Char) :=
  (Lexeme.read cs).map fun l =>
    ((l.placed { rest := [] } (cs.length != length) []).essence, cs.drop l.text.length)

/-- A scan is a gap and the token behind it. -/
theorem outline_scan_eq : outline (scan lastLine c) =
      gapEnd (readGap lastLine c.rest.length c 0) >>= readBehind c.rest.length := by
  rw [scan]
  cases hread : readGap lastLine c.rest.length c 0 with
  | error e => rfl
  | ok r =>
    obtain ⟨start, comments⟩ := r
    obtain ⟨gap, hpasses, -⟩ := readGap_passes hread
    have hspaced : (start.position != c.position) = (start.rest.length != c.rest.length) := by
      rw [hpasses.position_bne, hpasses.rest, List.length_append]
      cases gap <;> simp
    dsimp only [gapEnd, bind, Except.bind, readBehind]
    rw [hspaced]
    cases Lexeme.read start.rest <;> rfl

/-- **What is read first from a text**: a token, apart from its place, and the text behind it. -/
def firstToken (cs : List Char) : Except LexError (Token × List Char) :=
  outline (scan none { rest := cs })

/-- **What is read is settled by the text ahead.** -/
theorem outline_scan : outline (scan lastLine c) = firstToken c.rest := by
  rw [firstToken, outline_scan_eq, outline_scan_eq,
    gapEnd_readGap c { rest := c.rest } rfl c.rest.length 0 0]

/-! ## Points -/

/-- A place in a text: the token that was read last, and the text behind it. -/
structure Point where
  token : Token
  rest : List Char

namespace Point

/-- The place at the start of a text, before which nothing was read. -/
def start (source : Source) : Point :=
  ⟨{}, source.text.toList⟩

/-- The place behind the next token; where there is none, the same place. -/
def next (p : Point) : Point :=
  match firstToken p.rest with
  | .ok (token, rest) => ⟨token, rest⟩
  | .error _ => p

/-- A token can be read here. -/
def Reads (p : Point) : Prop :=
  firstToken p.rest = .ok (p.next.token, p.next.rest)

variable {p : Point}

theorem next_of_firstToken {t : Token} {cs : List Char} (h : firstToken p.rest = .ok (t, cs)) :
    p.Reads ∧ p.next = ⟨t, cs⟩ := by
  have hnext : p.next = ⟨t, cs⟩ := by rw [next, h]
  exact ⟨by rw [Reads, h, hnext], hnext⟩

theorem reads_or_error (p : Point) : p.Reads ∨ ∃ e, firstToken p.rest = .error e := by
  cases h : firstToken p.rest with
  | ok r => exact .inl (next_of_firstToken h).1
  | error e => exact .inr ⟨e, rfl⟩

theorem Reads.scan (h : p.Reads) :
    ∃ t c, Cascade.scan none { rest := p.rest } = .ok (t, c) ∧ t.essence = p.next.token ∧
      c.rest = p.next.rest := by
  rw [Reads, firstToken] at h
  cases hscan : Cascade.scan none { rest := p.rest } with
  | error e =>
    rw [hscan] at h
    cases h
  | ok r =>
    rw [hscan] at h
    obtain ⟨htoken, hrest⟩ := Prod.mk.inj (Except.ok.inj h)
    exact ⟨r.1, r.2, rfl, htoken, hrest⟩

theorem Reads.length_le (h : p.Reads) : p.next.rest.length ≤ p.rest.length := by
  obtain ⟨t, c, hscan, -, hrest⟩ := h.scan
  obtain ⟨piece, hpasses⟩ := scan_passes hscan
  have htext : p.rest = piece ++ c.rest := hpasses.rest
  rw [← hrest, htext, List.length_append]
  exact Nat.le_add_left _ _

theorem Reads.length_lt (h : p.Reads) (hkind : p.next.token.kind ≠ .eof) :
    p.next.rest.length < p.rest.length := by
  obtain ⟨t, c, hscan, htoken, hrest⟩ := h.scan
  rw [← htoken] at hkind
  rw [← hrest]
  exact scan_shortens hscan hkind

end Point

/-! ## Streams at a place -/

/-- What can be seen of a place. -/
def Spot.point (p : Spot) : Point :=
  ⟨p.token.essence, p.cursor.rest⟩

theorem Spot.point_next (p : Spot) :
    (p.point.Reads ↔ p.Reads) ∧ p.next.point = p.point.next := by
  have hscan := outline_scan p.lastLine p.cursor
  cases hread : scan p.lastLine p.cursor with
  | ok r =>
    rw [hread] at hscan
    obtain ⟨hreads, hnext⟩ := next_of_scan hread
    obtain ⟨hreads', hnext'⟩ := Point.next_of_firstToken (p := p.point) hscan.symm
    rw [hnext, hnext']
    exact ⟨iff_of_true hreads' hreads, rfl⟩
  | error e =>
    rw [hread] at hscan
    refine ⟨iff_of_false (fun h => ?_) fun h => ?_, ?_⟩
    · cases hscan.trans h
    · cases hread.symm.trans h
    · rw [next, hread, Point.next, point, ← hscan]
      rfl

/-- A token without its comments is what it was. -/
theorem TokenStream.essence_uncommented (s : TokenStream) (i : Fin ringSize) :
    ((s.slots.set s.current { s.token with comments := [] } s.current.isLt).get i).essence =
      (s.slots.get i).essence := by
  rw [get_slots, Vector.getElem_set]
  split
  · rename_i hi
    exact congrArg (fun j => (s.slots.get j).essence) (Fin.ext hi : s.current = i)
  · rfl

/-- **A stream at a place**: the tokens that were put back are the first ones of the text ahead, and
the rest of it is still to be read. -/
def Reached (p : Point) (s : TokenStream) : Prop :=
  ∃ start place, Rings Token.essence start place s ∧ (start.skip place).point = p

namespace Reached

open TokenStream

variable {p : Point} {s t : TokenStream}

/-- With nothing put back, every stream is at a place. -/
theorem of_bare {here : Token} (hnone : s.pushedBack = 0) (htoken : s.token.essence = here) :
    Reached ⟨here, s.cursor.rest⟩ s :=
  ⟨_, 0, .of_bare hnone, htoken ▸ rfl⟩

variable (h : Reached p s)

include h

/-- What a stream is at does not depend on comments. -/
theorem of_slots {slots : Vector Token ringSize}
    (hslots : ∀ i, (slots.get i).essence = (s.slots.get i).essence) :
    Reached p { s with slots } := by
  obtain ⟨start, place, h, rfl⟩ := h
  exact ⟨start, place, ⟨h.few, h.reads, h.lastLine, h.cursor,
    fun back hback hle => (hslots _).trans (h.slots back hback hle)⟩, rfl⟩

theorem few : s.pushedBack < ringSize := by
  obtain ⟨_, _, hrings, _⟩ := h
  exact hrings.few

theorem current : s.token.essence = p.token := by
  obtain ⟨start, place, hrings, rfl⟩ := h
  exact hrings.token

/-- With nothing put back, the text ahead is what is still to be read. -/
theorem bare (hnone : s.pushedBack = 0) : s.discardPushedBack = s ∧ s.cursor.rest = p.rest := by
  obtain ⟨start, place, hrings, rfl⟩ := h
  have hcursor := hrings.cursor
  rw [hnone, Nat.add_zero] at hcursor
  exact ⟨if_pos hnone, congrArg Cursor.rest hcursor⟩

/-- Where no token can be read, reading fails. -/
theorem next_error {e : LexError} (he : firstToken p.rest = .error e) :
    ∃ line, s.next = .error (s.errorAt line (.lex e)) := by
  have hnone : s.pushedBack = 0 := by
    obtain ⟨start, place, hrings, rfl⟩ := h
    refine Nat.eq_zero_of_not_pos fun hpos => ?_
    cases he.symm.trans ((Spot.point_next _).1.2 (hrings.reads place (by omega)))
  have hscan := outline_scan s.lastLine s.cursor
  rw [(h.bare hnone).2, he] at hscan
  rw [TokenStream.next, hnone]
  show ∃ line, s.readNext = _
  rw [readNext]
  cases hread : scan s.lastLine s.cursor with
  | error r =>
    rw [hread] at hscan
    obtain rfl : r.1 = e := Except.error.inj hscan
    exact ⟨r.2, rfl⟩
  | ok r =>
    rw [hread] at hscan
    cases hscan

/-- **One token on.**  The token can be put back, and fewer steps are left. -/
theorem next (hreads : p.Reads) : ∃ t, s.next = .ok t ∧ Reached p.next t ∧
    Reached p t.previous ∧ t.pushedBack = s.pushedBack - 1 ∧
      (p.next.token.kind ≠ .eof → t.stepsLeft < s.stepsLeft) := by
  obtain ⟨start, place, hrings, rfl⟩ := h
  have hfew : s.pushedBack < 4 := hrings.few
  have hplace : (start.skip (place + 1)).point = (start.skip place).point.next := by
    rw [Spot.skip_succ, (Spot.point_next _).2]
  obtain ⟨t, hnext, ht, hcount, -⟩ := hrings.next ((Spot.point_next _).1.1 hreads)
  refine ⟨t, hnext, ⟨start, place + 1, ht, hplace⟩,
    ⟨start, place, ht.previous (show t.pushedBack + 1 < 4 by omega), rfl⟩, hcount, fun hkind => ?_⟩
  rw [stepsLeft, stepsLeft, ht.cursor, hrings.cursor, hcount]
  cases hn : s.pushedBack with
  | zero =>
    have hshorter := hreads.length_lt hkind
    rw [← hplace] at hshorter
    exact Nat.succ_lt_succ hshorter
  | succ n =>
    rw [Nat.add_sub_cancel, Nat.add_assoc place, Nat.add_comm 1]
    omega

/-- The token after the next one is looked at. -/
theorem peekNth_one (hreads : p.Reads) (hreads' : p.next.Reads) :
    ∃ u t, Reading.peekNth 1 s = .ok (u, t) ∧ u.essence = p.next.next.token ∧ Reached p t ∧
      t.pushedBack = max s.pushedBack 2 := by
  obtain ⟨start, place, hrings, rfl⟩ := h
  rw [← (Spot.point_next _).2, ← Spot.skip_succ] at hreads' ⊢
  obtain ⟨u, t, hpeek, hu, ht, hcount, -⟩ := hrings.peekNth (Nat.le_succ 1) fun i hi => by
    obtain rfl | rfl := Nat.le_one_iff_eq_zero_or_eq_one.1 hi
    · exact (Spot.point_next _).1.1 hreads
    · exact (Spot.point_next _).1.1 hreads'
  refine ⟨u, t, hpeek, ?_, ⟨start, place, ht, rfl⟩, hcount⟩
  rw [hu, ← (Spot.point_next _).2, ← Spot.skip_succ]
  rfl

/-- Comments are taken off the next token. -/
theorem takeComments (hreads : p.Reads) :
    ∃ comments t, Reading.takeComments s = .ok (comments, t) ∧ Reached p t ∧
      t.pushedBack = max s.pushedBack 1 := by
  obtain ⟨t, hnext, -, hback, hcount, -⟩ := h.next hreads
  refine ⟨_, _, by rw [Reading.takeComments, hnext]; exact guard_of_safe _ hback.few _,
    hback.of_slots (essence_uncommented t), ?_⟩
  show t.pushedBack + 1 = _
  omega

end Reached

end Cascade
