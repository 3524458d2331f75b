import Cascade.Token.Scan

/-!
# A stream of tokens with a short memory

The parser reads tokens one at a time, looks a few tokens ahead, and puts tokens back.  A
`TokenStream` keeps the last four tokens in a ring for that: the current one and up to three that
have been put back.  Text is only read when nothing that was put back is left.

Every operation is a function of the stream in the monad `Reading`; a failure leaves no stream
behind.
-/

set_option autoImplicit false

namespace Cascade

/-! ## The ring -/

/-- The number of tokens a stream remembers. -/
def ringSize : Nat := 4

/-- A source that is being read.  `slots` is the ring of remembered tokens, `current` the slot of
the token read last, and `pushedBack` counts the tokens after it that were put back.  `lastLine`
is the line on which the text read so far ended.  A `guarded` stream fails where a token would be
lost. -/
structure TokenStream where
  source : Source
  cursor : Cursor
  slots : Vector Token ringSize
  current : Fin ringSize
  pushedBack : Nat
  lastLine : Option Nat
  guarded : Bool := false

/-- The stream at the start of a source.  Before anything is read every slot holds the empty
token. -/
def TokenStream.ofSource (source : Source) : TokenStream where
  source := source
  cursor := { rest := source.text.toList }
  slots := Vector.replicate ringSize {}
  current := ⟨0, by decide⟩
  pushedBack := 0
  lastLine := none

/-- Computations that read from a stream and may fail. -/
abbrev Reading := StateT TokenStream (Except Error)

namespace TokenStream

/-- The slot `n` places after the current one. -/
def slotAfter (s : TokenStream) (n : Nat) : Fin ringSize :=
  s.current + ⟨n % ringSize, Nat.mod_lt _ (by decide)⟩

/-- The token read last. -/
def token (s : TokenStream) : Token :=
  s.slots.get s.current

/-- An error at a line of the source being read. -/
def errorAt (s : TokenStream) (line : Nat) (cause : Cause) : Error :=
  ⟨cause, ⟨s.source.file, line⟩⟩

/-- The outcome of an operation that loses no token if it is `safe`. -/
def guard {α : Type} (s : TokenStream) (safe : Prop) [Decidable safe] (outcome : Except Error α) :
    Except Error α :=
  if s.guarded ∧ ¬safe then .error (s.errorAt s.cursor.line (.parse .tokenLost)) else outcome

theorem guard_of_safe {α : Type} (s : TokenStream) {safe : Prop} [Decidable safe] (h : safe)
    (outcome : Except Error α) : s.guard safe outcome = outcome :=
  if_neg fun hlost => hlost.2 h

/-- The stream with a token of the text read into the next slot. -/
def readNext (s : TokenStream) : Except Error TokenStream :=
  match scan s.lastLine s.cursor with
  | .error (error, line) => .error (s.errorAt line (.lex error))
  | .ok (token, cursor) =>
    .ok { s with
      cursor
      slots := s.slots.set (s.slotAfter 1) token
      current := s.slotAfter 1
      lastLine := some cursor.line }

/-- The stream one token further on: a token that was put back, or one read from the text. -/
def next (s : TokenStream) : Except Error TokenStream :=
  match s.pushedBack with
  | 0 => s.readNext
  | n + 1 => .ok { s with current := s.slotAfter 1, pushedBack := n }

/-- The stream one token back.  The ring holds up to three tokens that are put back. -/
def previous (s : TokenStream) : TokenStream :=
  { s with current := s.slotAfter (ringSize - 1), pushedBack := s.pushedBack + 1 }

/-- The stream `n` tokens further on. -/
def nextMany : Nat → TokenStream → Except Error TokenStream
  | 0, s => .ok s
  | n + 1, s => s.next.bind (nextMany n)

/-- The stream `n` tokens back. -/
def previousMany : Nat → TokenStream → TokenStream
  | 0, s => s
  | n + 1, s => previousMany n s.previous

/-- Steps on until a token of one of the given kinds, or the end of the text, is current, and gives
its kind.  `fuel` bounds the steps. -/
def findFrom (kinds : List TokenKind) : Nat → TokenStream → Except Error TokenKind
  | 0, s => .ok s.token.kind
  | fuel + 1, s => do
    let s ← s.next
    if s.token.kind = .eof ∨ s.token.kind ∈ kinds then pure s.token.kind
    else findFrom kinds fuel s

/-- Steps that are enough to reach the end of the text. -/
def stepsLeft (s : TokenStream) : Nat :=
  s.cursor.rest.length + s.pushedBack + 1

/-- Forgets the tokens that were put back, so that reading goes on in the text at the first of
them. -/
def discardPushedBack (s : TokenStream) : TokenStream :=
  if s.pushedBack = 0 then s
  else
    let first := s.slots.get (s.slotAfter 1)
    { s with
      cursor :=
        { rest := s.source.charsFrom first.span.start
          position := first.span.start
          line := first.line }
      pushedBack := 0 }

/-! ## States to go back to -/

/-- The state of a stream without its source.  The text that is still to be read is known by its
byte offset. -/
structure Snapshot where
  position : Nat
  line : Nat
  slots : Vector Token ringSize
  current : Fin ringSize
  pushedBack : Nat
  lastLine : Option Nat
  guarded : Bool

/-- The state of the stream, to go back to later. -/
def save (s : TokenStream) : Snapshot where
  position := s.cursor.position
  line := s.cursor.line
  slots := s.slots
  current := s.current
  pushedBack := s.pushedBack
  lastLine := s.lastLine
  guarded := s.guarded

/-- The stream in a state that was saved before. -/
def rewind (s : TokenStream) (old : Snapshot) : TokenStream where
  source := s.source
  cursor := { rest := s.source.charsFrom old.position, position := old.position, line := old.line }
  slots := old.slots
  current := old.current
  pushedBack := old.pushedBack
  lastLine := old.lastLine
  guarded := old.guarded

/-! ## Raw text -/

/-- Text that was read raw: the text itself, the line breaks counted in it, and whether its closing
parenthesis was found. -/
structure RawText where
  body : List Char
  breaks : Nat
  closed : Bool

/-- A character in front of a raw text. -/
def RawText.cons (c : Char) (raw : RawText) : RawText :=
  { raw with body := c :: raw.body, breaks := raw.breaks + (if c = '\n' then 1 else 0) }

/-- The text up to the closing parenthesis that matches the opening one before it.  `mark` is the
quotation mark of the string the text is in, if it is in one, and `depth` counts the parentheses
that are open.  Parentheses in quotes do not count, and in quotes a backslash keeps the character
after it from closing them; a line break after such a backslash is not counted. -/
def rawText : Option Char → Nat → List Char → RawText
  | _, _, [] => ⟨[], 0, false⟩
  | some _, _, [c] => .cons c ⟨[], 0, false⟩
  | some mark, depth, c :: d :: cs =>
    if c = mark then .cons c (rawText none depth (d :: cs))
    else if c = '\\' then
      let raw := rawText (some mark) depth cs
      { raw with body := c :: d :: raw.body }
    else .cons c (rawText (some mark) depth (d :: cs))
  | none, depth, c :: cs =>
    if c = ')' then
      match depth with
      | 0 => ⟨[], 0, true⟩
      | depth + 1 => .cons c (rawText none depth cs)
    else if c = '(' then .cons c (rawText none (depth + 1) cs)
    else if c = '"' ∨ c = '\'' then .cons c (rawText (some c) depth cs)
    else .cons c (rawText none depth cs)

end TokenStream

/-! ## Reading -/

namespace Reading

open TokenStream

/-- The token read last. -/
def token : Reading Token :=
  fun s => .ok (s.token, s)

/-- Fails at a line of the source. -/
def failAt {α : Type} (line : Nat) (error : ParseError) : Reading α :=
  fun s => .error (s.errorAt line (.parse error))

/-- Reads the next token and gives its kind. -/
def advance : Reading TokenKind :=
  fun s => s.next.map fun s => (s.token.kind, s)

/-- Puts the current token back. -/
def putBack : Reading Unit :=
  fun s => s.guard (s.pushedBack + 1 < ringSize) (.ok ((), s.previous))

/-- The token `n` places after the next one.  Nothing is consumed. -/
def peekNth (n : Nat) : Reading Token :=
  fun s => (s.nextMany (n + 1)).bind fun far =>
    let s := far.previousMany (n + 1)
    far.guard (far.pushedBack + (n + 1) < ringSize) (.ok (s.slots.get (s.slotAfter (n + 1)), s))

/-- The kind of the next token. -/
def peek : Reading TokenKind := do
  pure (← peekNth 0).kind

/-- Consumes the next token if it is of the given kind, and says whether it was. -/
def accept (kind : TokenKind) : Reading Bool := do
  if (← peek) = kind then
    let _ ← advance
    pure true
  else pure false

/-- Fails because the current token is not what was expected. -/
def unexpected {α : Type} (expected : String) : Reading α := do
  let found ← token
  failAt found.line (.unexpectedToken expected found.describe)

/-- Reads the next token, which has to be of the given kind. -/
def expect (kind : TokenKind) : Reading Token := do
  if (← advance) = kind then token else unexpected kind.describe

/-- The kind of the first token ahead that is of one of the given kinds, or the end of the text.
Nothing is consumed. -/
def find (kinds : List TokenKind) : Reading TokenKind :=
  fun s => (s.findFrom kinds s.stepsLeft).map fun kind => (kind, s)

/-- Runs a computation and goes back to where it began. -/
def ahead {α : Type} (reading : Reading α) : Reading α :=
  fun s => (reading s).map fun (result, _) => (result, s)

/-- The comments in front of the next token, which are taken off it. -/
def takeComments : Reading (List Comment) :=
  fun s => s.next.bind fun s =>
    let token := s.token
    let s := { s with slots := s.slots.set s.current { token with comments := [] } }
    s.guard (s.pushedBack + 1 < ringSize) (.ok (token.comments, s.previous))

/-- Whether the text ahead is meant raw: its first character that is not blank opens neither a
string nor a variable nor a command. -/
def nextIsRaw : Reading Bool :=
  fun s => s.guard (s.pushedBack = 0) <|
    let s := s.discardPushedBack
    let raw := match s.cursor.rest.dropWhile Text.isBlank with
      | [] => true
      | c :: _ => c ≠ '"' ∧ c ≠ '\'' ∧ c ≠ '$' ∧ c ≠ '@'
    .ok (raw, s)

/-- Reads everything up to the matching closing parenthesis, which is left for the next token, and
gives the text without the blanks around it. -/
def rawArgument : Reading String :=
  fun s => s.guard (s.pushedBack = 0) <|
    let s := s.discardPushedBack
    let raw := rawText none 0 s.cursor.rest
    let line := s.cursor.line + raw.breaks
    if raw.closed then
      let cursor :=
        { rest := s.cursor.rest.drop raw.body.length
          position := s.cursor.position + Text.byteLength raw.body
          line := line }
      .ok (String.ofList (Text.trim raw.body), { s with cursor, lastLine := some line })
    else
      .error (s.errorAt line (.parse
        (.unexpectedToken TokenKind.closeParen.describe TokenKind.eof.describe)))

end Reading

/-! ## All tokens -/

/-- The tokens from the current place on, without the end.  `fuel` bounds their number. -/
def TokenStream.toList : Nat → TokenStream → Except Error (List Token)
  | 0, _ => .ok []
  | fuel + 1, s => do
    let s ← s.next
    if s.token.kind = .eof then pure []
    else
      let rest ← s.toList fuel
      pure (s.token :: rest)

/-- **All tokens of a source**, without the end of the text. -/
def tokenize (source : Source) : Except Error (List Token) :=
  let s := TokenStream.ofSource source
  s.toList s.stepsLeft

end Cascade
