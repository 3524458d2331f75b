/-!
# Source texts and places in them

A stylesheet is read from a text that may have a name, usually the path of its file.  Places in it
are byte offsets into its UTF-8 form; errors name a line.
-/

set_option autoImplicit false

namespace Cascade

/-! ## Bytes and characters -/

namespace Text

/-- The number of bytes of a text in UTF-8. -/
def byteLength : List Char → Nat
  | [] => 0
  | c :: cs => c.utf8Size + byteLength cs

/-- The text from the given byte offset on. -/
def dropBytes : Nat → List Char → List Char
  | 0, cs => cs
  | _ + 1, [] => []
  | n + 1, c :: cs => dropBytes (n + 1 - c.utf8Size) cs

/-- The first bytes of a text, up to a whole character. -/
def takeBytes : Nat → List Char → List Char
  | 0, _ => []
  | _ + 1, [] => []
  | n + 1, c :: cs => c :: takeBytes (n + 1 - c.utf8Size) cs

@[simp] theorem byteLength_nil : byteLength [] = 0 := rfl

@[simp] theorem byteLength_cons (c : Char) (cs : List Char) :
    byteLength (c :: cs) = c.utf8Size + byteLength cs := rfl

@[simp] theorem byteLength_append (a b : List Char) :
    byteLength (a ++ b) = byteLength a + byteLength b := by
  induction a with
  | nil => simp
  | cons c a ih => simp [ih, Nat.add_assoc]

@[simp] theorem dropBytes_zero (cs : List Char) : dropBytes 0 cs = cs := by
  cases cs <;> rfl

@[simp] theorem dropBytes_append (a b : List Char) : dropBytes (byteLength a) (a ++ b) = b := by
  induction a with
  | nil => simp
  | cons c a ih =>
    have pos : 0 < c.utf8Size := Char.utf8Size_pos c
    obtain ⟨n, hn⟩ : ∃ n, byteLength (c :: a) = n + 1 := ⟨byteLength (c :: a) - 1, by
      simp only [byteLength_cons]; omega⟩
    have hlen : n + 1 - c.utf8Size = byteLength a := by
      simp only [byteLength_cons] at hn; omega
    rw [hn, List.cons_append, dropBytes, hlen, ih]

end Text

/-! ## Sources -/

/-- The bytes from `start` up to but not including `stop`. -/
structure Span where
  start : Nat := 0
  stop : Nat := 0
  deriving DecidableEq, Repr, Inhabited

/-- A text to be read, with the name of the file it came from if it has one. -/
structure Source where
  text : String
  file : Option String := none
  deriving Repr, Inhabited

/-- What stands for the name of a text without one. -/
def anonymous : String := "<memory>"

/-- The name of the source, as it is shown to the user. -/
def Source.origin (source : Source) : String :=
  source.file.getD anonymous

/-- The characters from a byte offset on. -/
def Source.charsFrom (source : Source) (offset : Nat) : List Char :=
  Text.dropBytes offset source.text.toList

/-- The text of a span. -/
def Source.slice (source : Source) (span : Span) : String :=
  String.ofList (Text.takeBytes (span.stop - span.start) (source.charsFrom span.start))

/-! ## Locations -/

/-- A line of a source, as errors report it. -/
structure Location where
  file : Option String
  line : Nat
  deriving DecidableEq, Repr, Inhabited

/-- A location as the user sees it, `name:line`. -/
def Location.text (location : Location) : String :=
  location.file.getD anonymous ++ ":" ++ toString location.line

end Cascade
