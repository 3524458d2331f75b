import Cascade.Token.Stream

/-!
# Working a stream by hand

A parser reads from a stream as its grammar asks for.  In a session the requests come one by one
instead, and each of them is answered: tokens are read, put back and looked at, states are saved and
gone back to.
-/

set_option autoImplicit false

namespace Cascade

/-- What can be asked of a stream. -/
inductive Request where
  | advance
  | putBack
  | peek
  /-- The token so many places after the next one. -/
  | peekNth (n : Nat)
  | accept (kind : TokenKind)
  | expect (kind : TokenKind)
  | find (kinds : List TokenKind)
  | save
  /-- Back to a saved state, by its number. -/
  | rewind (number : Nat)

/-- What a stream answers. -/
inductive Answer where
  | done
  | kind (kind : TokenKind)
  | token (token : Token)
  | verdict (accepted : Bool)
  /-- The number of a saved state. -/
  | saved (number : Nat)
  /-- A token that was expected is not there. -/
  | missing (error : Error)

/-- A stream, and the states that were saved on the way. -/
structure Session where
  stream : TokenStream
  saved : List TokenStream.Snapshot := []

namespace Session

/-- The session at the start of a source. -/
def ofSource (source : Source) : Session where
  stream := .ofSource source

/-- Runs a computation on the stream. -/
def run {α : Type} (session : Session) (reading : Reading α) (answer : α → Answer) :
    Except Error (Answer × Session) :=
  (reading session.stream).map fun (a, stream) => (answer a, { session with stream })

/-- **One request.**  It fails if text is read that cannot be cut into tokens.  A token that is not
the expected one has been read all the same.  To go back to a state that was never saved changes
nothing. -/
def step (session : Session) : Request → Except Error (Answer × Session)
  | .advance => session.run Reading.advance .kind
  | .putBack => session.run Reading.putBack fun _ => .done
  | .peek => session.run Reading.peek .kind
  | .peekNth n => session.run (Reading.peekNth n) .token
  | .accept kind => session.run (Reading.accept kind) .verdict
  | .expect kind => session.stream.next.map fun stream =>
    let answer := match Reading.expect kind session.stream with
      | .ok (token, _) => .token token
      | .error error => .missing error
    (answer, { session with stream })
  | .find kinds => session.run (Reading.find kinds) .kind
  | .save =>
    .ok (.saved session.saved.length,
      { session with saved := session.saved ++ [session.stream.save] })
  | .rewind number =>
    match session.saved[number]? with
    | some old => .ok (.done, { session with stream := session.stream.rewind old })
    | none => .ok (.done, session)

/-- A list of requests: each answer, the token that is then the current one, and the number of tokens
that are put back. -/
def trace (session : Session) : List Request → Except Error (List (Answer × Token × Nat))
  | [] => .ok []
  | request :: requests => do
    let (answer, session) ← session.step request
    let rest ← session.trace requests
    pure ((answer, session.stream.token, session.stream.pushedBack) :: rest)

end Session

end Cascade
