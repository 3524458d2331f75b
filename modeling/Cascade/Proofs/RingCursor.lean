import Cascade.Proofs.ScannedText
import Cascade.Token.Session

/-!
# The ring is a cursor

A stream remembers four tokens, so much of what it does is about where in its ring a token is kept and
when text has to be read.  None of that can be seen from outside.  To its user a stream is a cursor in
an endless row of tokens: those of the text, and after them the end of the text, again and again.

`Reader` is such a cursor.  It counts the tokens that have been put back, because a stream can hold no
more than three, but it answers every request out of the row alone.
-/

set_option autoImplicit false

namespace Cascade

open List

variable {ts : List Token} {source : Source}

/-! ## A cursor in a row of tokens -/

/-- The tokens of a text, the token that is read when the text is used up, and the one that is read
ever after. -/
structure Row where
  tokens : List Token
  close : Token
  after : Token

/-- The tokens of the row, counted from one.  The token before them all is the empty one. -/
def Row.get (row : Row) : Nat → Token
  | 0 => {}
  | i + 1 => row.tokens[i]?.getD (if i = row.tokens.length then row.close else row.after)

theorem Row.get_of_lt (row : Row) {i : Nat} (h : i < row.tokens.length) :
    row.get (i + 1) = row.tokens[i] := by
  rw [get, getElem?_eq_getElem h, Option.getD_some]

/-- A place in a row, and how many of the tokens after it have been put back. -/
structure Mark where
  place : Nat := 0
  pushedBack : Nat := 0
  deriving DecidableEq, Repr

namespace Mark

/-- One token on. -/
def next (m : Mark) : Mark :=
  ⟨m.place + 1, m.pushedBack - 1⟩

/-- One token back. -/
def previous (m : Mark) : Mark :=
  ⟨m.place - 1, m.pushedBack + 1⟩

/-- The same place, after so many tokens ahead of it have been looked at. -/
def seen (m : Mark) (n : Nat) : Mark :=
  ⟨m.place, max m.pushedBack n⟩

end Mark

/-- A cursor in a row, and the places that were saved on the way. -/
structure Reader where
  mark : Mark := {}
  saved : List Mark := []

namespace Reader

/-- The requests that a stream with room for three tokens can serve: no token is put back that does
not fit or was never read, no look goes further than three tokens, and only saved states are gone
back to. -/
def Allows (r : Reader) : Request → Prop
  | .putBack => 0 < r.mark.place ∧ r.mark.pushedBack < 3
  | .peekNth n => n ≤ 2
  | .rewind number => number < r.saved.length
  | _ => True

/-- What the cursor answers, and where it is then.  `source` is only there for the places of
errors. -/
def step (source : Source) (row : Row) (r : Reader) : Request → Answer × Reader
  | .advance => (.kind (row.get (r.mark.place + 1)).kind, { r with mark := r.mark.next })
  | .putBack => (.done, { r with mark := r.mark.previous })
  | .peek => (.kind (row.get (r.mark.place + 1)).kind, { r with mark := r.mark.seen 1 })
  | .peekNth n => (.token (row.get (r.mark.place + 1 + n)), { r with mark := r.mark.seen (n + 1) })
  | .accept kind =>
    if (row.get (r.mark.place + 1)).kind = kind then
      (.verdict true, { r with mark := (r.mark.seen 1).next })
    else (.verdict false, { r with mark := r.mark.seen 1 })
  | .expect kind =>
    let t := row.get (r.mark.place + 1)
    let answer := if t.kind = kind then .token t
      else .missing ⟨.parse (.unexpectedToken kind.describe t.describe), ⟨source.file, t.line⟩⟩
    (answer, { r with mark := r.mark.next })
  | .find kinds =>
    let ahead := row.tokens.drop r.mark.place
    (.kind (((ahead.map Token.kind).find? (· ∈ kinds)).getD .eof), r)
  | .save => (.saved r.saved.length, { r with saved := r.saved ++ [r.mark] })
  | .rewind number => (.done, { r with mark := r.saved[number]?.getD r.mark })

/-- Each answer, the token at which the cursor then is, and the number of tokens that are put back. -/
def trace (source : Source) (row : Row) (r : Reader) : List Request → List (Answer × Token × Nat)
  | [] => []
  | request :: requests =>
    let (answer, r) := r.step source row request
    (answer, row.get r.mark.place, r.mark.pushedBack) :: r.trace source row requests

/-- Every request is allowed when its turn comes. -/
def AllowsAll (source : Source) (row : Row) (r : Reader) : List Request → Prop
  | [] => True
  | request :: requests =>
    r.Allows request ∧ (r.step source row request).2.AllowsAll source row requests

end Reader

/-! ## Places between tokens -/

namespace Spot

variable {p : Spot} {row : Row} {t : Token} {c : Cursor}

/-- The tokens of the row are read from the place on, one after the other. -/
structure Tokenizes (p : Spot) (row : Row) : Prop where
  reads : ∀ k, (p.skip k).Reads
  token : ∀ k, (p.skip (k + 1)).token = row.get (k + 1)
  listed : ∀ t ∈ row.tokens, t.kind ≠ .eof
  close : row.close.kind = .eof
  after : row.after.kind = .eof

/-- At the end of the text the end is read again and again. -/
theorem cursor_skip_end (h : p.cursor.rest = []) (k : Nat) : (p.skip k).cursor = p.cursor := by
  induction k with
  | zero => rfl
  | succ k ih => rw [skip_succ, (next_of_scan (scan_nil (ih ▸ h))).2, ih]

theorem Tokenizes.nil (h : scan p.lastLine p.cursor = .ok (t, c)) (ht : t.kind = .eof) :
    p.Tokenizes ⟨[], t, endToken c⟩ := by
  obtain ⟨hreads, hnext⟩ := next_of_scan h
  have hcursor (k : Nat) : (p.skip (k + 1)).cursor = c := by
    rw [skip, hnext, cursor_skip_end (scan_eof h ht)]
  have hagain (k : Nat) := next_of_scan (p := p.skip (k + 1)) (scan_nil (by rw [hcursor, scan_eof h ht]))
  refine ⟨fun k => ?_, fun k => ?_, forall_mem_nil _, ht, rfl⟩
  · cases k with
    | zero => exact hreads
    | succ k => exact (hagain k).1
  · cases k with
    | zero => exact congrArg Spot.token hnext
    | succ k =>
      rw [skip_succ, (hagain k).2, hcursor]
      rfl

theorem Tokenizes.cons {close after : Token} (h : scan p.lastLine p.cursor = .ok (t, c))
    (ht : t.kind ≠ .eof) (hts : Tokenizes ⟨t, some c.line, c⟩ ⟨ts, close, after⟩) :
    p.Tokenizes ⟨t :: ts, close, after⟩ := by
  obtain ⟨hreads, hnext⟩ := next_of_scan h
  rw [← hnext] at hts
  refine ⟨fun k => ?_, fun k => ?_, forall_mem_cons.2 ⟨ht, hts.listed⟩, hts.close, hts.after⟩
  · cases k with
    | zero => exact hreads
    | succ k => exact hts.reads k
  · cases k with
    | zero => exact congrArg Spot.token hnext
    | succ k => simpa [Row.get, skip] using hts.token k

/-- Enough text is left for the tokens that are still to come. -/
theorem Tokenizes.length_le (h : p.Tokenizes row) (k : Nat) :
    row.tokens.length ≤ k + (p.skip k).cursor.rest.length := by
  by_cases hk : k < row.tokens.length
  · have hkind := h.listed _ (getElem_mem hk)
    rw [← row.get_of_lt hk, ← h.token, skip_succ] at hkind
    have hshorter := scan_shortens (h.reads k) hkind
    have hrest := h.length_le (k + 1)
    rw [skip_succ] at hrest
    omega
  · omega
termination_by row.tokens.length - k

theorem Tokenizes.kind_of_length_le (h : p.Tokenizes row) {k : Nat}
    (hk : row.tokens.length ≤ k) : (row.get (k + 1)).kind = .eof := by
  rw [Row.get, getElem?_eq_none hk, Option.getD_none]
  split
  · exact h.close
  · exact h.after

theorem Tokenizes.in_skip (h : p.Tokenizes row) (hp : p.cursor.In source) (k : Nat) :
    (p.skip k).cursor.In source := by
  induction k with
  | zero => exact hp
  | succ k ih =>
    obtain ⟨piece, hpasses⟩ := scan_passes (h.reads k)
    rw [skip_succ]
    exact ih.passes hpasses

end Spot

theorem Listed.tokenizes {p : Spot} (h : Listed p.lastLine p.cursor ts) :
    ∃ close after, p.Tokenizes ⟨ts, close, after⟩ := by
  induction ts generalizing p with
  | nil =>
    obtain ⟨t, stop, hscan, ht⟩ := h
    exact ⟨_, _, .nil hscan ht⟩
  | cons t ts ih =>
    obtain ⟨next, hscan, ht, hrest⟩ := h
    obtain ⟨close, after, hts⟩ := ih (p := ⟨t, some next.line, next⟩) hrest
    exact ⟨close, after, .cons hscan ht hts⟩

/-! ## Streams at a place -/

/-- The place before the first token of a source. -/
def Source.spot (source : Source) : Spot :=
  (TokenStream.ofSource source).spot

section AtMark

variable {row : Row} {m : Mark} {s : TokenStream}

theorem Spot.Tokenizes.token_skip (h : source.spot.Tokenizes row) (k : Nat) :
    (source.spot.skip k).token = row.get k := by
  cases k with
  | zero => exact (Vector.getElem_replicate (Nat.succ_pos 3) : (Vector.replicate 4 _)[0] = _)
  | succ k => exact h.token k

/-- **A stream at a place in a row of tokens**, with so many of them put back. -/
structure AtMark (source : Source) (m : Mark) (s : TokenStream) : Prop where
  rings : Rings id source.spot m.place s
  source_eq : s.source = source
  pushedBack : s.pushedBack = m.pushedBack

/-- A token that is not the expected one is what the error names. -/
theorem expect_of_next {s' : TokenStream} {kind : TokenKind} (h : s.next = .ok s') :
    Reading.expect kind s = if s'.token.kind = kind then .ok (s'.token, s')
      else .error ⟨.parse (.unexpectedToken kind.describe s'.token.describe),
        ⟨s'.source.file, s'.token.line⟩⟩ := by
  show ((s.next.map fun s => (s.token.kind, s)) >>= _) = _
  rw [h]
  show (if s'.token.kind = kind then Reading.token else Reading.unexpected kind.describe) s' = _
  split
  · rfl
  · rfl

/-- **One token back.** -/
theorem AtMark.putBack (h : AtMark source m s) (hplace : 0 < m.place) (hroom : m.pushedBack < 3) :
    ∃ s', Reading.putBack s = .ok ((), s') ∧ AtMark source m.previous s' := by
  obtain ⟨place, hm⟩ : ∃ place, m.place = place + 1 := ⟨m.place - 1, by omega⟩
  have hfits : s.pushedBack + 1 < ringSize := h.pushedBack ▸ Nat.succ_lt_succ hroom
  refine ⟨s.previous, s.guard_of_safe hfits _, ?_, h.source_eq, congrArg (· + 1) h.pushedBack⟩
  have hrings := h.rings
  rw [hm] at hrings
  rw [Mark.previous, hm]
  exact hrings.previous hfits

variable (hts : source.spot.Tokenizes row) (h : AtMark source m s)

include hts h

theorem AtMark.token : s.token = row.get m.place :=
  h.rings.token.trans (hts.token_skip _)

/-- **One token on.** -/
theorem AtMark.next : ∃ s', s.next = .ok s' ∧ AtMark source m.next s' := by
  obtain ⟨s', hnext, hrings, hcount, hsource⟩ := h.rings.next (hts.reads _)
  exact ⟨s', hnext, hrings, hsource.trans h.source_eq, hcount.trans (congrArg (· - 1) h.pushedBack)⟩

/-! ## The operations -/

theorem AtMark.advance :
    ∃ s', Reading.advance s = .ok ((row.get (m.place + 1)).kind, s') ∧ AtMark source m.next s' := by
  obtain ⟨s', hnext, h'⟩ := h.next hts
  refine ⟨s', ?_, h'⟩
  have htoken : s'.token = row.get (m.place + 1) := h'.token hts
  rw [Reading.advance, hnext, ← htoken]
  rfl

/-- Looking ahead shows the row, and leaves the stream where it is. -/
theorem AtMark.peekNth {n : Nat} (hn : n ≤ 2) :
    ∃ s', Reading.peekNth n s = .ok (row.get (m.place + 1 + n), s') ∧
      AtMark source (m.seen (n + 1)) s' := by
  obtain ⟨t, s', hrun, ht, hrings, hcount, hsource⟩ := h.rings.peekNth hn fun _ _ => hts.reads _
  have htoken : t = row.get (m.place + 1 + n) := by
    rw [Nat.add_assoc, Nat.add_comm 1]
    exact Eq.trans ht (hts.token_skip _)
  exact ⟨s', htoken ▸ hrun, hrings, hsource.trans h.source_eq, by rw [hcount, h.pushedBack]; rfl⟩

theorem AtMark.peek : ∃ s', Reading.peek s = .ok ((row.get (m.place + 1)).kind, s') ∧
      AtMark source (m.seen 1) s' := by
  obtain ⟨s', hpeek, h'⟩ := h.peekNth hts (Nat.zero_le 2)
  exact ⟨s', run_bind_eq_ok.2 ⟨_, s', hpeek, rfl⟩, h'⟩

theorem AtMark.accept (kind : TokenKind) : ∃ s', Reading.accept kind s =
        .ok (decide ((row.get (m.place + 1)).kind = kind), s') ∧
      AtMark source
        (if (row.get (m.place + 1)).kind = kind then (m.seen 1).next else m.seen 1) s' := by
  obtain ⟨s', hpeek, h'⟩ := h.peek hts
  by_cases hkind : (row.get (m.place + 1)).kind = kind
  · obtain ⟨s'', hadvance, h''⟩ := h'.advance hts
    rw [if_pos hkind]
    refine ⟨s'', run_bind_eq_ok.2 ⟨_, s', hpeek, ?_⟩, h''⟩
    rw [if_pos hkind, decide_eq_true hkind]
    exact run_bind_eq_ok.2 ⟨_, s'', hadvance, rfl⟩
  · rw [if_neg hkind]
    refine ⟨s', run_bind_eq_ok.2 ⟨_, s', hpeek, ?_⟩, h'⟩
    rw [if_neg hkind, decide_eq_false hkind]
    rfl

/-- The first token ahead of one of the given kinds, or the end of the text. -/
theorem AtMark.findFrom (kinds : List TokenKind) {fuel : Nat}
    (hfuel : row.tokens.length < m.place + fuel) : s.findFrom kinds fuel =
      .ok ((((row.tokens.drop m.place).map Token.kind).find? (· ∈ kinds)).getD .eof) := by
  induction fuel generalizing m s with
  | zero =>
    obtain ⟨k, hk⟩ : ∃ k, m.place = k + 1 := ⟨m.place - 1, by omega⟩
    rw [TokenStream.findFrom, h.token hts, hk, hts.kind_of_length_le (by omega),
      drop_eq_nil_of_le (by omega)]
    rfl
  | succ fuel ih =>
    obtain ⟨s', hnext, h'⟩ := h.next hts
    have htoken : s'.token = row.get (m.place + 1) := h'.token hts
    have hstep : s.findFrom kinds (fuel + 1) =
        if s'.token.kind = .eof ∨ s'.token.kind ∈ kinds then .ok s'.token.kind
        else s'.findFrom kinds fuel := by
      rw [TokenStream.findFrom, hnext]
      rfl
    rw [hstep, htoken]
    by_cases hplace : m.place < row.tokens.length
    · have hkind := hts.listed _ (getElem_mem hplace)
      rw [row.get_of_lt hplace, drop_eq_getElem_cons hplace, map_cons]
      by_cases hmem : row.tokens[m.place].kind ∈ kinds
      · rw [if_pos (.inr hmem), find?_cons_of_pos (by simpa using hmem)]
        rfl
      · rw [if_neg (by tauto), find?_cons_of_neg (by simpa using hmem)]
        exact ih h' (show row.tokens.length < m.place + 1 + fuel by omega)
    · rw [hts.kind_of_length_le (Nat.le_of_not_lt hplace), if_pos (.inl rfl),
        drop_eq_nil_of_le (Nat.le_of_not_lt hplace)]
      rfl

theorem AtMark.find (kinds : List TokenKind) : Reading.find kinds s =
      .ok ((((row.tokens.drop m.place).map Token.kind).find? (· ∈ kinds)).getD .eof, s) := by
  have hlength := hts.length_le (m.place + s.pushedBack)
  rw [← h.rings.cursor] at hlength
  have hleft : s.stepsLeft = s.cursor.rest.length + s.pushedBack + 1 := rfl
  rw [Reading.find, h.findFrom hts kinds (by omega)]
  rfl

/-- Going back to a saved state. -/
theorem AtMark.rewind_save {s' : TokenStream} (hs' : s'.source = source) :
    s'.rewind s.save = s := by
  have hplace : s.cursor.In source := h.rings.cursor ▸ hts.in_skip (.start source) _
  have hrest : source.charsFrom s.cursor.position = s.cursor.rest := hplace.charsFrom
  rw [TokenStream.rewind, TokenStream.save, hs']
  simp only [hrest]
  rw [← h.source_eq]

end AtMark

/-! ## Sessions -/

section Sees

variable {row : Row} {r : Reader} {session : Session}

/-- **A session that a cursor follows.**  The stream is where the cursor is, and each saved state leads
back to where the cursor was. -/
structure Sees (source : Source) (r : Reader) (session : Session) : Prop where
  stream : AtMark source r.mark session.stream
  saved : List.Forall₂ (fun old m => ∀ s : TokenStream, s.source = source →
    AtMark source m (s.rewind old)) session.saved r.saved

variable (h : Sees source r session)

include h

/-- A computation on the stream that moves the cursor. -/
theorem Sees.run {α : Type} {reading : Reading α} {a : α} {m : Mark} (answer : α → Answer)
    (hrun : ∃ s', reading session.stream = .ok (a, s') ∧ AtMark source m s') :
    ∃ session', session.run reading answer = .ok (answer a, session') ∧
      Sees source { r with mark := m } session' := by
  obtain ⟨s', hreading, hrings⟩ := hrun
  refine ⟨{ session with stream := s' }, ?_, hrings, h.saved⟩
  rw [Session.run, hreading]
  rfl

theorem Sees.expect (hts : source.spot.Tokenizes row) (kind : TokenKind) :
    ∃ session', session.step (.expect kind) =
        .ok ((r.step source row (.expect kind)).1, session') ∧
      Sees source (r.step source row (.expect kind)).2 session' := by
  obtain ⟨s', hnext, hrings⟩ := h.stream.next hts
  have htoken : s'.token = row.get (r.mark.place + 1) := hrings.token hts
  refine ⟨{ session with stream := s' }, ?_, hrings, h.saved⟩
  rw [Session.step, hnext, expect_of_next hnext, htoken, hrings.source_eq]
  by_cases hkind : (row.get (r.mark.place + 1)).kind = kind
  · simp only [if_pos hkind, Except.map, Reader.step]
  · simp only [if_neg hkind, Except.map, Reader.step]

theorem Sees.rewind {number : Nat} (hnumber : number < r.saved.length) :
    ∃ session', session.step (.rewind number) =
        .ok ((r.step source row (.rewind number)).1, session') ∧
      Sees source (r.step source row (.rewind number)).2 session' := by
  have hlength := h.saved.length_eq
  have hnumber' : number < session.saved.length := by omega
  have hold : session.saved[number]? = some session.saved[number] :=
    getElem?_eq_getElem hnumber'
  have hmark : r.saved[number]?.getD r.mark = r.saved[number] := by
    rw [getElem?_eq_getElem hnumber]
    rfl
  have hback := (forall₂_iff_get.1 h.saved).2 number hnumber' hnumber session.stream
    h.stream.source_eq
  refine ⟨{ session with stream := session.stream.rewind session.saved[number] }, ?_, ?_, h.saved⟩
  · rw [Session.step, hold]
    rfl
  · show AtMark source (r.saved[number]?.getD r.mark) _
    rw [hmark]
    exact hback

/-- **The stream answers every request like the cursor.** -/
theorem Sees.step (hts : source.spot.Tokenizes row) {request : Request}
    (hallowed : r.Allows request) : ∃ session', session.step request =
        .ok ((r.step source row request).1, session') ∧
      Sees source (r.step source row request).2 session' := by
  cases request with
  | advance => exact h.run _ (h.stream.advance hts)
  | putBack => exact h.run (fun _ => .done) (h.stream.putBack hallowed.1 hallowed.2)
  | peek => exact h.run _ (h.stream.peek hts)
  | peekNth n => exact h.run _ (h.stream.peekNth hts hallowed)
  | accept kind =>
    have haccept := h.run Answer.verdict (h.stream.accept hts kind)
    by_cases hkind : (row.get (r.mark.place + 1)).kind = kind
    · rw [if_pos hkind, decide_eq_true hkind] at haccept
      simpa only [Session.step, Reader.step, if_pos hkind] using haccept
    · rw [if_neg hkind, decide_eq_false hkind] at haccept
      simpa only [Session.step, Reader.step, if_neg hkind] using haccept
  | expect kind => exact h.expect hts kind
  | find kinds => exact h.run _ ⟨_, h.stream.find hts kinds, h.stream⟩
  | save =>
    refine ⟨{ session with saved := session.saved ++ [session.stream.save] }, ?_, h.stream, ?_⟩
    · rw [Session.step, h.saved.length_eq]
      rfl
    · refine rel_append h.saved (.cons (fun s hs => ?_) .nil)
      rw [h.stream.rewind_save hts hs]
      exact h.stream
  | rewind number => exact h.rewind hallowed

theorem Sees.trace (hts : source.spot.Tokenizes row) {requests : List Request}
    (hallowed : r.AllowsAll source row requests) :
    session.trace requests = .ok (r.trace source row requests) := by
  induction requests generalizing r session with
  | nil => rfl
  | cons request requests ih =>
    obtain ⟨session', hstep, h'⟩ := h.step hts hallowed.1
    rw [Session.trace, hstep]
    show (session'.trace requests >>= _) = _
    rw [ih h' hallowed.2]
    show Except.ok ((_, session'.stream.token, session'.stream.pushedBack) :: _) = _
    rw [h'.stream.token hts, h'.stream.pushedBack]
    rfl

end Sees

theorem Sees.start (source : Source) : Sees source {} (.ofSource source) :=
  ⟨⟨.of_bare rfl, rfl, rfl⟩, .nil⟩

/-- **A stream with a ring of four tokens reads like a cursor in the row of all tokens.**  Whatever is
asked of it, as long as it has room for what is put back, it answers out of the tokens of the text and
the end of the text after them, and its current token is the one at the place of the cursor. -/
theorem session_reads_row {source : Source} {ts : List Token} (h : tokenize source = .ok ts) :
    ∃ close after : Token, close.kind = .eof ∧ after.kind = .eof ∧
      ∀ requests, Reader.AllowsAll source ⟨ts, close, after⟩ {} requests →
        (Session.ofSource source).trace requests =
          .ok (Reader.trace source ⟨ts, close, after⟩ {} requests) := by
  have hlisted : Listed source.spot.lastLine source.spot.cursor ts := tokenize_eq_ok.1 h
  obtain ⟨close, after, hts⟩ := hlisted.tokenizes
  exact ⟨close, after, hts.close, hts.after, fun requests hallowed =>
    (Sees.start source).trace hts hallowed⟩

/-- Three tokens ahead, and back to a state in which they were put back. -/
def rewindingRequests : List Request :=
  [.peekNth 2, .save, .advance, .expect .semicolon, .advance, .advance, .putBack, .putBack, .putBack,
    .find [.comma], .rewind 0, .advance]

set_option maxRecDepth 100000 in
theorem session_reads_row_rewound :
    ∃ ts close after, tokenize { text := "a: b c" } = .ok ts ∧
      ts.map Token.kind = [.identifier, .colon, .identifier, .identifier] ∧
      Reader.AllowsAll { text := "a: b c" } ⟨ts, close, after⟩ {} rewindingRequests ∧
      (Session.ofSource { text := "a: b c" }).trace rewindingRequests =
        .ok (Reader.trace { text := "a: b c" } ⟨ts, close, after⟩ {} rewindingRequests) := by
  have hrun : (tokenize { text := "a: b c" }).map (List.map Token.kind) =
      .ok [.identifier, .colon, .identifier, .identifier] := by
    decide +kernel
  obtain ⟨ts, hts, hkinds⟩ := map_eq_ok.1 hrun
  obtain ⟨close, after, -, -, htrace⟩ := session_reads_row hts
  have hallowed : Reader.AllowsAll { text := "a: b c" } ⟨ts, close, after⟩ {} rewindingRequests := by
    simp [rewindingRequests, Reader.AllowsAll, Reader.Allows, Reader.step, Mark.next, Mark.previous,
      Mark.seen]
  exact ⟨ts, close, after, hts, hkinds, hallowed, htrace _ hallowed⟩

end Cascade
