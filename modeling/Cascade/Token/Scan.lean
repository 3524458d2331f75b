import Cascade.Text.Blank
import Cascade.Token.Lexeme

/-!
# Reading tokens from a source

Between two tokens there may be a gap of blanks and comments.  `scan` reads a gap and the token
after it, and so gives the token its place, its line and its comments.
-/

set_option autoImplicit false

namespace Cascade

/-! ## Cursors -/

/-- A place in a source: the text from there on, its byte offset and its line. -/
structure Cursor where
  rest : List Char
  position : Nat := 0
  line : Nat := 1

/-- The number of line breaks in a text. -/
def lineBreaks (cs : List Char) : Nat :=
  cs.count '\n'

/-- The place after `text`, which stands at the cursor. -/
def Cursor.advance (cursor : Cursor) (text : List Char) : Cursor where
  rest := cursor.rest.drop text.length
  position := cursor.position + Text.byteLength text
  line := cursor.line + lineBreaks text

/-! ## Gaps -/

/-- The text of a comment that ends at its line. -/
def lineCommentBody (cs : List Char) : List Char :=
  cs.takeWhile (· != '\n')

/-- The text of a comment up to its closing mark. -/
def blockCommentBody? : List Char → Option (List Char)
  | '*' :: '/' :: _ => some []
  | c :: cs => (blockCommentBody? cs).map fun body => c :: body
  | [] => none

/-- How a comment stands to the code before it, given the line on which the previous token ended
and the line breaks since that token or the last comment. -/
def placeOf (lastLine : Option Nat) (line breaks : Nat) : CommentPlace :=
  if breaks = 0 ∧ lastLine = some line then .trailing
  else if 2 ≤ breaks then .spaced
  else .leading

/-- Reads blanks and comments.  `breaks` counts the line breaks since the last comment, and `fuel`
bounds the pieces read; the length of the text is always enough.  A comment without an end fails
at the last line of the text. -/
def readGap (lastLine : Option Nat) :
    Nat → Cursor → Nat → Except (LexError × Nat) (Cursor × List Comment)
  | 0, cursor, _ => .ok (cursor, [])
  | fuel + 1, cursor, breaks =>
    match cursor.rest with
    | '/' :: '/' :: cs => do
      let body := lineCommentBody cs
      let comment : Comment :=
        { text := String.ofList (Text.trim body)
          place := placeOf lastLine cursor.line breaks
          line := cursor.line }
      let (stop, comments) ← readGap lastLine fuel (cursor.advance ('/' :: '/' :: body)) 0
      pure (stop, comment :: comments)
    | '/' :: '*' :: cs =>
      match blockCommentBody? cs with
      | none => .error (.unterminatedComment, cursor.line + lineBreaks cursor.rest)
      | some body => do
        let comment : Comment :=
          { text := String.ofList (Text.trim body)
            place := placeOf lastLine cursor.line breaks
            line := cursor.line }
        let (stop, comments) ←
          readGap lastLine fuel (cursor.advance ('/' :: '*' :: body ++ ['*', '/'])) 0
        pure (stop, comment :: comments)
    | c :: _ =>
      if Text.isBlank c then
        readGap lastLine fuel (cursor.advance [c]) (if c = '\n' then breaks + 1 else breaks)
      else .ok (cursor, [])
    | [] => .ok (cursor, [])

/-! ## Tokens in their place -/

/-- A token read at a cursor, after a gap. -/
def Lexeme.placed (lexeme : Lexeme) (cursor : Cursor) (spaced : Bool) (comments : List Comment) :
    Token where
  kind := lexeme.kind
  text := String.ofList lexeme.text
  span := ⟨cursor.position, cursor.position + Text.byteLength lexeme.text⟩
  line := cursor.line
  spaced := spaced
  value := lexeme.value
  number := lexeme.number
  unit := lexeme.unit
  quote := lexeme.quote
  assign := lexeme.assign
  comments := comments

/-- **Reads a gap and the token after it**, and gives the place behind the token.  A failure names
its line.  At the end of the text the token is `eof`. -/
def scan (lastLine : Option Nat) (cursor : Cursor) : Except (LexError × Nat) (Token × Cursor) := do
  let (start, comments) ← readGap lastLine cursor.rest.length cursor 0
  match Lexeme.read start.rest with
  | .error error => .error (error, start.line)
  | .ok lexeme =>
    pure (lexeme.placed start (start.position != cursor.position) comments,
      start.advance lexeme.text)

end Cascade
