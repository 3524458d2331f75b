import Cascade.Proofs.LockstepValues
import Cascade.Proofs.RawArguments

/-!
# Texts made of pieces

A text that is written token by token falls into pieces: the blanks before a token, and the token.
If every token can be told from what follows it, the text is read piece by piece, and a stream in
front of it has the pieces ahead of it.  What a parser sees of a piece is its token and whether
there are blanks before it, so which blanks these are, and where the text breaks into lines, has no
part in what it does.

Unlike a cursor in a row of tokens, a stream that faces pieces also knows the text that it has
ahead of it.  That is needed for arguments which are not cut into tokens at all.  What stands behind
the pieces may be any text.  Where the whole text is known to be on one line, the stream knows that
line as well.
-/

set_option autoImplicit false

namespace Cascade

open Lexeme

variable {tail cs : List Char} {c : Char} {l : Lexeme}

/-! ## Pieces -/

/-- A piece of a text: a token with the blanks before it. -/
structure TextPiece where
  gap : List Char := []
  lexeme : Lexeme

namespace TextPiece

/-- The text of a piece. -/
def text (p : TextPiece) : List Char :=
  p.gap ++ p.lexeme.text

/-- The kind of the token. -/
def kind (p : TextPiece) : TokenKind :=
  p.lexeme.kind

/-- The token, apart from its place and its comments. -/
def token (p : TextPiece) : Token :=
  (p.lexeme.placed { rest := [] } (!p.gap.isEmpty) []).essence

/-- The token is that of the piece. -/
structure Shows (p : TextPiece) (t : Token) : Prop where
  essence : t.essence = p.token

/-- The token is that of the piece, and on the line if one is given. -/
structure ShowsOn (line : Option Nat) (p : TextPiece) (t : Token) : Prop extends p.Shows t where
  line : ∀ n ∈ line, t.kind ≠ .eof → t.line = n

namespace Shows

variable {p : TextPiece} {t : Token}

variable (h : p.Shows t)

include h

theorem kind : t.kind = p.kind :=
  (congrArg Token.kind h.essence :)

theorem text : t.text = String.ofList p.lexeme.text :=
  (congrArg Token.text h.essence :)

theorem spaced : t.spaced = !p.gap.isEmpty :=
  (congrArg Token.spaced h.essence :)

theorem value : t.value = p.lexeme.value :=
  (congrArg Token.value h.essence :)

theorem number : t.number = p.lexeme.number :=
  (congrArg Token.number h.essence :)

theorem unit : t.unit = p.lexeme.unit :=
  (congrArg Token.unit h.essence :)

theorem quote : t.quote = p.lexeme.quote :=
  (congrArg Token.quote h.essence :)

theorem assign : t.assign = p.lexeme.assign :=
  (congrArg Token.assign h.essence :)

end Shows

end TextPiece

/-- The text of several pieces. -/
def textOf (ps : List TextPiece) : List Char :=
  ps.flatMap TextPiece.text

@[simp] theorem textOf_nil : textOf [] = [] := rfl

@[simp] theorem textOf_cons (p : TextPiece) (ps : List TextPiece) :
    textOf (p :: ps) = p.gap ++ (p.lexeme.text ++ textOf ps) :=
  List.append_assoc _ _ _

@[simp] theorem textOf_append (ps qs : List TextPiece) :
    textOf (ps ++ qs) = textOf ps ++ textOf qs :=
  List.flatMap_append

/-- **Pieces that are read one after the other** in front of a text. -/
def Laid : List TextPiece → List Char → Prop
  | [], _ => True
  | p :: ps, tail =>
    (∀ c ∈ p.gap, Text.isBlank c = true) ∧ p.lexeme.Leads (textOf ps ++ tail) ∧ Laid ps tail

variable {ps qs : List TextPiece}

theorem laid_append : Laid (ps ++ qs) tail ↔ Laid ps (textOf qs ++ tail) ∧ Laid qs tail := by
  induction ps with
  | nil => exact (iff_of_eq (true_and _)).symm
  | cons p ps ih =>
    rw [List.cons_append, Laid, Laid, ih, textOf_append, List.append_assoc, and_assoc, and_assoc]

/-! ## Scanning -/

variable {p : TextPiece}

/-- The token of a piece is what is read first. -/
theorem firstToken_piece (hgap : ∀ c ∈ p.gap, Text.isBlank c = true) (h : p.lexeme.Leads tail) :
    firstToken (p.gap ++ (p.lexeme.text ++ tail)) = .ok (p.token, tail) := by
  have hrest : ({ rest := p.gap ++ (p.lexeme.text ++ tail) } : Cursor).advance p.text =
      { rest := tail, position := 0 + Text.byteLength p.text, line := 1 + lineBreaks p.text } := by
    rw [Cursor.advance, TextPiece.text, ← List.append_assoc, List.drop_left]
  rw [firstToken, h.scan hgap rfl]
  exact congrArg (fun c : Cursor => Except.ok (p.token, c.rest)) hrest

theorem Laid.next (h : Laid (p :: ps) tail) (t : Token) :
    (⟨t, textOf (p :: ps) ++ tail⟩ : Point).Reads ∧
      (⟨t, textOf (p :: ps) ++ tail⟩ : Point).next = ⟨p.token, textOf ps ++ tail⟩ := by
  refine Point.next_of_firstToken ?_
  rw [textOf_cons, List.append_assoc, List.append_assoc]
  exact firstToken_piece h.1 h.2.1

/-! ## Streams in front of pieces -/

open TokenStream

/-- **A stream over a text of one line**: what it has still to read is on that line, and so are the
tokens that it has read, which have no comments. -/
structure TokenStream.OnLine (line : Nat) (s : TokenStream) : Prop where
  rest : '\n' ∉ s.cursor.rest
  cursor : s.cursor.line = line
  slots : ∀ i, (s.slots.get i).kind ≠ .eof →
    (s.slots.get i).line = line ∧ (s.slots.get i).comments = []

/-- **A stream with pieces ahead of it**, and a text behind these that is not looked at.  At most the
next token is put back if that opens a parenthesis, so that text can be read behind it. -/
structure FacingOn (line : Option Nat) (tail : List Char) (ps : List TextPiece) (s : TokenStream) :
    Prop where
  laid : Laid ps tail
  reached : Reached ⟨s.token.essence, textOf ps ++ tail⟩ s
  near : s.pushedBack ≤ 2
  within : s.pushedBack ≤ ps.length
  unseen : 1 < s.pushedBack → ∀ p ∈ ps.head?, p.kind ≠ .openParen
  onLine : ∀ n ∈ line, s.OnLine n

/-- A stream whose current token is the first of the pieces, with the others ahead of it. -/
structure PastOn (line : Option Nat) (tail : List Char) (p : TextPiece) (ps : List TextPiece)
    (s : TokenStream) : Prop extends FacingOn line tail ps s where
  current : p.Shows s.token
  back : FacingOn line tail (p :: ps) s.previous

/-- A stream with pieces ahead of it, on whatever lines. -/
abbrev Facing := FacingOn none

/-- A stream whose current token is the first of the pieces, on whatever lines. -/
abbrev Past := PastOn none

section Facing

variable {p : TextPiece} {ps : List TextPiece} {tail : List Char} {s t : TokenStream}
  {line : Option Nat}

theorem Reached.self {here : Token} (h : Reached ⟨here, cs⟩ s) :
    Reached ⟨s.token.essence, cs⟩ s := by
  rwa [h.current]

/-- Before anything is read, all pieces of a text are ahead. -/
theorem FacingOn.ofSource {source : Source} (h : Laid ps tail)
    (htext : source.text.toList = textOf ps ++ tail)
    (hline : ∀ n ∈ line, n = 1 ∧ '\n' ∉ source.text.toList) :
    FacingOn line tail ps (.ofSource source) := by
  refine ⟨h, htext ▸ .of_bare rfl rfl, Nat.zero_le 2, Nat.zero_le _, nofun, fun n hn => ?_⟩
  obtain ⟨rfl, hbreak⟩ := hline n hn
  refine ⟨hbreak, rfl, fun i hkind => absurd ?_ hkind⟩
  rw [TokenStream.ofSource, get_slots, Vector.getElem_replicate]

/-- A piece is read on the line. -/
theorem TokenStream.OnLine.next {n : Nat} (h : s.OnLine n)
    (hgap : ∀ c ∈ p.gap, Text.isBlank c = true) (hleads : p.lexeme.Leads cs)
    (hrest : s.pushedBack = 0 → s.cursor.rest = p.gap ++ (p.lexeme.text ++ cs))
    (hnext : s.next = .ok t) : t.OnLine n := by
  cases hback : s.pushedBack with
  | zero =>
    have hcursor := hrest hback
    have hbreak := h.rest
    rw [hcursor, ← List.append_assoc] at hbreak
    have hline (piece : List Char) (hpiece : piece <+: p.gap ++ p.lexeme.text) :
        (s.cursor.advance piece).line = n := by
      show s.cursor.line + lineBreaks piece = n
      rw [lineBreaks, List.count_eq_zero_of_not_mem, h.cursor, Nat.add_zero]
      exact fun hmem => hbreak (List.mem_append_left _ (hpiece.subset hmem))
    cases (next_of_scan hback (hleads.scan hgap hcursor s.lastLine)).symm.trans hnext
    refine ⟨fun hmem => h.rest (List.mem_of_mem_drop hmem), hline _ (List.prefix_refl _), fun i => ?_⟩
    rw [get_slots, Vector.getElem_set]
    split
    · exact fun _ => ⟨hline _ (List.prefix_append _ _), rfl⟩
    · exact h.slots i
  | succ k =>
    cases (next_of_pushedBack hback).symm.trans hnext
    exact ⟨h.rest, h.cursor, h.slots⟩

theorem TokenStream.OnLine.previous {n : Nat} (h : s.OnLine n) : s.previous.OnLine n :=
  ⟨h.rest, h.cursor, h.slots⟩

theorem TokenStream.OnLine.uncommented {n : Nat} (h : s.OnLine n) :
    OnLine n { s with
      slots := s.slots.set s.current { s.token with comments := [] } s.current.isLt } := by
  refine ⟨h.rest, h.cursor, fun i => ?_⟩
  rw [get_slots, Vector.getElem_set]
  split
  · exact fun hkind => ⟨(h.slots s.current hkind).1, rfl⟩
  · exact h.slots i

theorem PastOn.shows (h : PastOn line tail p ps s) : p.ShowsOn line s.token :=
  ⟨h.current, fun n hn hkind => ((h.onLine n hn).slots s.current hkind).1⟩

/-- **One token on.**  The first piece becomes the current one, and it can be put back. -/
theorem FacingOn.next (h : FacingOn line tail (p :: ps) s) :
    ∃ t, s.next = .ok t ∧ PastOn line tail p ps t ∧ t.pushedBack = s.pushedBack - 1 ∧
      (p.kind ≠ .eof → t.stepsLeft < s.stepsLeft) := by
  obtain ⟨hreads, hplace⟩ := h.laid.next s.token.essence
  obtain ⟨t, hnext, hreached, hback, hpushed, hsteps⟩ := h.reached.next hreads
  rw [hplace] at hreached hsteps
  have hnear := h.near
  have hwithin := h.within
  rw [List.length_cons] at hwithin
  have honLine (n : Nat) (hn : n ∈ line) : t.OnLine n := by
    refine (h.onLine n hn).next h.laid.1 h.laid.2.1 (fun hnone => ?_) hnext
    rw [(h.reached.bare hnone).2, textOf_cons, List.append_assoc, List.append_assoc]
  have hcount : t.previous.pushedBack = t.pushedBack + 1 := rfl
  refine ⟨t, hnext, ⟨⟨h.laid.2.2, hreached.self, by omega, by omega, by omega, honLine⟩,
    ⟨hreached.current⟩, ⟨h.laid, hback.self, by omega, ?_, fun hfar => h.unseen (by omega),
      fun n hn => (honLine n hn).previous⟩⟩, hpushed, hsteps⟩
  rw [List.length_cons]
  omega

end Facing

/-- The characters that begin an argument of `url` which is not kept as text. -/
def opensArgument (c : Char) : Bool :=
  c == '"' || c == '\'' || c == '$' || c == '@'

/-- Pieces without blanks before them begin with no blank. -/
theorem Laid.dropWhile_isBlank (h : Laid (p :: ps) tail) (hgap : p.gap = []) :
    (textOf (p :: ps) ++ tail).dropWhile Text.isBlank = textOf (p :: ps) ++ tail := by
  have hstarts := h.2.1.starts
  rw [textOf_cons, hgap, List.nil_append, List.append_assoc]
  cases hcs : p.lexeme.text ++ (textOf ps ++ tail) with
  | nil => rfl
  | cons c cs =>
    rw [hcs] at hstarts
    exact List.dropWhile_cons_of_neg (by simp [isBlank_of_startsToken hstarts])

theorem Laid.length_le (h : Laid ps tail) (hps : ∀ p ∈ ps, p.kind ≠ .eof) :
    ps.length ≤ (textOf ps).length := by
  induction ps with
  | nil => exact le_rfl
  | cons p ps ih =>
    obtain ⟨hp, hps⟩ := List.forall_mem_cons.1 hps
    have hlength := ih h.2.2 hps
    have htext : 0 < p.lexeme.text.length := List.length_pos_iff.2 (h.2.1.text_ne_nil hp)
    rw [textOf_cons, List.length_cons, List.length_append, List.length_append]
    omega

/-! ## Computations that succeed -/

section Succeeds

variable {α β : Type} {pre mid post : TokenStream → Prop}

/-- Run in any state that satisfies `pre`, the computation gives a result that satisfies `P` and
leaves a state that satisfies `post`. -/
def Succeeds (pre : TokenStream → Prop) (m : Reading α) (P : α → Prop) (post : TokenStream → Prop) :
    Prop :=
  ∀ s, pre s → ∃ a t, m s = .ok (a, t) ∧ P a ∧ post t

namespace Succeeds

variable {m : Reading α} {P : α → Prop} {kind : TokenKind} {kinds : List TokenKind}

theorem pure {a : α} (h : P a) : Succeeds pre (Pure.pure a) P pre :=
  fun s hs => ⟨a, s, rfl, h, hs⟩

theorem bind {k : α → Reading β} {Q : β → Prop} (hm : Succeeds pre m P mid)
    (hk : ∀ a, P a → Succeeds mid (k a) Q post) : Succeeds pre (m >>= k) Q post := by
  intro s hs
  obtain ⟨a, t, hrun, ha, ht⟩ := hm s hs
  obtain ⟨b, u, hrest, hb, hu⟩ := hk a ha t ht
  exact ⟨b, u, run_bind_eq_ok.2 ⟨a, t, hrun, hrest⟩, hb, hu⟩

theorem bind_eq {k : α → Reading β} {a : α} {Q : β → Prop} (hm : Succeeds pre m (· = a) mid)
    (hk : Succeeds mid (k a) Q post) : Succeeds pre (m >>= k) Q post :=
  hm.bind fun _ ha => ha ▸ hk

theorem weaken {Q : α → Prop} (hm : Succeeds pre m P post) (h : ∀ a, P a → Q a) :
    Succeeds pre m Q post := by
  intro s hs
  obtain ⟨a, t, hrun, ha, ht⟩ := hm s hs
  exact ⟨a, t, hrun, h a ha, ht⟩

/-! ## The operations -/

variable {p q : TextPiece} {ps : List TextPiece} {tail : List Char} {line : Option Nat}

/-- A computation that does not look at the current token. -/
theorem past (h : Succeeds (FacingOn line tail ps) m P post) :
    Succeeds (PastOn line tail p ps) m P post :=
  fun s hs => h s hs.toFacingOn

theorem advance :
    Succeeds (FacingOn line tail (p :: ps)) Reading.advance (· = p.kind) (PastOn line tail p ps) := by
  intro s hs
  obtain ⟨t, hnext, hpast, -⟩ := hs.next
  exact ⟨_, t, by rw [Reading.advance, hnext]; rfl, hpast.current.kind, hpast⟩

theorem token :
    Succeeds (PastOn line tail p ps) Reading.token (p.ShowsOn line) (PastOn line tail p ps) :=
  fun s hs => ⟨_, s, rfl, hs.shows, hs⟩

theorem peekNth_zero : Succeeds (FacingOn line tail (p :: ps)) (Reading.peekNth 0) (p.ShowsOn line)
    (FacingOn line tail (p :: ps)) := by
  intro s hs
  obtain ⟨t, hnext, hpast, -⟩ := hs.next
  exact ⟨_, _, peekNth_of_next hnext hpast.back.reached.few, hpast.shows, hpast.back⟩

/-- The token after the next one is looked at, unless the next one opens a parenthesis. -/
theorem peekNth_one (hp : p.kind ≠ .openParen) : Succeeds (FacingOn line tail (p :: q :: ps))
    (Reading.peekNth 1) (q.ShowsOn line) (FacingOn line tail (p :: q :: ps)) := by
  intro s hs
  have hnear := hs.near
  obtain ⟨hreads, hplace⟩ := hs.laid.next s.token.essence
  have hreads' := (Laid.next hs.laid.2.2 p.token).1
  rw [← hplace] at hreads'
  obtain ⟨u, t, hrun, -, hback, hpushed⟩ := hs.reached.peekNth_one hreads hreads'
  obtain ⟨near, hnext, hpast, hcount, -⟩ := hs.next
  obtain ⟨far, hnext', hpast', hcount', -⟩ := hpast.toFacingOn.next
  have hfew : far.previous.previous.pushedBack < ringSize := by
    show far.pushedBack + 2 < 4
    omega
  cases (peekNth_one_of_next hnext hnext' hfew).symm.trans hrun
  refine ⟨_, _, hrun, hpast'.shows, hs.laid, hback.self, by omega, ?_, fun _ first hfirst => ?_,
    fun n hn => (hpast'.onLine n hn).previous.previous⟩
  · rw [List.length_cons, List.length_cons]
    omega
  · cases hfirst
    exact hp

theorem peek :
    Succeeds (FacingOn line tail (p :: ps)) Reading.peek (· = p.kind) (FacingOn line tail (p :: ps)) :=
  peekNth_zero.bind fun _ ht => .pure ht.kind

theorem accept (h : p.kind = kind) :
    Succeeds (FacingOn line tail (p :: ps)) (Reading.accept kind) (· = true) (PastOn line tail p ps) := by
  refine peek.bind fun _ hkind => ?_
  rw [if_pos (hkind.trans h)]
  exact advance.bind fun _ _ => .pure rfl

theorem not_accept (h : p.kind ≠ kind) :
    Succeeds (FacingOn line tail (p :: ps)) (Reading.accept kind) (· = false)
      (FacingOn line tail (p :: ps)) := by
  refine peek.bind fun _ hkind => ?_
  rw [if_neg (hkind ▸ h)]
  exact .pure rfl

theorem expect (h : p.kind = kind) :
    Succeeds (FacingOn line tail (p :: ps)) (Reading.expect kind) (p.ShowsOn line)
      (PastOn line tail p ps) := by
  refine advance.bind fun _ hkind => ?_
  rw [if_pos (hkind.trans h)]
  exact token

/-- On one line no comments are found. -/
theorem takeComments : Succeeds (FacingOn line tail (p :: ps)) Reading.takeComments
    (fun comments => line ≠ none → p.kind ≠ .eof → comments = [])
    (FacingOn line tail (p :: ps)) := by
  intro s hs
  obtain ⟨t, hnext, hpast, -⟩ := hs.next
  have hback := hpast.back
  refine ⟨_, _, by rw [Reading.takeComments, hnext]; exact guard_of_safe _ hback.reached.few _,
    fun hline hkind => ?_, { hback with
      reached := (hback.reached.of_slots (essence_uncommented t)).self
      onLine := fun n hn => (hpast.onLine n hn).uncommented.previous }⟩
  obtain ⟨n, hn⟩ := Option.ne_none_iff_exists'.1 hline
  exact ((hpast.onLine n hn).slots t.current (hpast.current.kind ▸ hkind)).2

section

variable (hqs : ∀ q ∈ qs, q.kind ≠ .eof ∧ q.kind ∉ kinds)

include hqs

theorem findFrom (hp : p.kind ∈ kinds) {fuel : Nat} {s : TokenStream} (hfuel : s.stepsLeft ≤ fuel)
    (hs : FacingOn line tail (qs ++ p :: ps) s) : s.findFrom kinds fuel = .ok p.kind := by
  induction fuel generalizing qs s with
  | zero => exact absurd hfuel (Nat.not_succ_le_zero _)
  | succ fuel ih =>
    cases qs with
    | nil =>
      obtain ⟨t, hnext, hpast, -⟩ := hs.next
      refine bind_eq_ok.2 ⟨t, hnext, ?_⟩
      rw [hpast.current.kind, if_pos (.inr hp)]
      rfl
    | cons q qs =>
      obtain ⟨⟨heof, hkinds⟩, hqs⟩ := List.forall_mem_cons.1 hqs
      obtain ⟨t, hnext, hpast, -, hsteps⟩ := hs.next
      have hless := hsteps heof
      refine bind_eq_ok.2 ⟨t, hnext, ?_⟩
      rw [hpast.current.kind, if_neg fun h => h.elim heof hkinds]
      exact ih hqs (by omega) hpast.toFacingOn

/-- The first token ahead that is of one of the given kinds. -/
theorem find (hp : p.kind ∈ kinds) :
    Succeeds (FacingOn line tail (qs ++ p :: ps)) (Reading.find kinds) (· = p.kind)
      (FacingOn line tail (qs ++ p :: ps)) := by
  intro s hs
  refine ⟨_, s, ?_, rfl, hs⟩
  rw [Reading.find, findFrom hqs hp le_rfl hs]
  rfl

end

/-! ## Text behind a parenthesis -/

/-- Behind a parenthesis nothing has been looked at. -/
theorem expect_openParen (h : p.kind = .openParen) :
    Succeeds (FacingOn line tail (p :: ps)) (Reading.expect .openParen) p.Shows
      fun s => PastOn line tail p ps s ∧ s.pushedBack = 0 := by
  intro s hs
  obtain ⟨t, hnext, hpast, hpushed, -⟩ := hs.next
  refine ⟨_, t, ?_, hpast.current, hpast, ?_⟩
  · show ((s.next.map fun s => (s.token.kind, s)) >>= fun r =>
      (if r.1 = .openParen then Reading.token else Reading.unexpected _) r.2) = _
    rw [hnext]
    show (if t.token.kind = .openParen then Reading.token else Reading.unexpected _) t = _
    rw [if_pos (hpast.current.kind.trans h)]
    rfl
  · have hunseen : ¬1 < s.pushedBack := fun hfar => hs.unseen hfar p rfl h
    omega

/-- Text is meant raw unless it begins with one of four marks. -/
theorem nextIsRaw : Succeeds (fun s => Past tail p ps s ∧ s.pushedBack = 0) Reading.nextIsRaw
    (· = !((textOf ps ++ tail).dropWhile Text.isBlank).head?.any opensArgument)
    fun s => Past tail p ps s ∧ s.pushedBack = 0 := by
  intro s hs
  obtain ⟨hdiscard, hrest⟩ := hs.1.reached.bare hs.2
  refine ⟨_, s, ?_, rfl, hs⟩
  simp only [Reading.nextIsRaw, guard_of_safe _ hs.2, hdiscard, hrest]
  cases (textOf ps ++ tail).dropWhile Text.isBlank with
  | nil => rfl
  | cons c cs => simp [opensArgument, beq_eq_decide, Bool.and_assoc]

theorem putBack : Succeeds (fun s => Past tail p ps s ∧ s.pushedBack = 0) Reading.putBack
    (fun _ => True) (Facing tail (p :: ps)) :=
  fun s hs => ⟨(), s.previous, guard_of_safe _ hs.1.back.reached.few _, trivial, hs.1.back⟩

/-- An argument that is kept as text is read up to its closing parenthesis. -/
theorem rawArgument {body behind tail' : List Char} (hbody : RawBody body)
    (htext : textOf ps ++ tail = body ++ ')' :: behind)
    (hbehind : ')' :: behind = textOf qs ++ tail') (hlaid : Laid qs tail') :
    Succeeds (fun s => Past tail p ps s ∧ s.pushedBack = 0) Reading.rawArgument
      (· = String.ofList (Text.trim body)) (Facing tail' qs) := by
  intro s hs
  obtain ⟨-, hrest⟩ := hs.1.reached.bare hs.2
  obtain ⟨cursor, lastLine, hrun, hcursor, -⟩ :=
    rawArgument_of_rawBody hs.2 hbody (hrest.trans htext)
  refine ⟨_, _, hrun, rfl, hlaid, ?_, hs.1.near, ?_, ?_, nofun⟩
  · rw [← hbehind, ← hcursor]
    exact .of_bare hs.2 rfl
  · simp [hs.2]
  · simp [hs.2]

end Succeeds

end Succeeds

end Cascade
