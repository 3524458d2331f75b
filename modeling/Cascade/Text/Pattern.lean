/-!
# Cutting and replacing

Plain text operations on lists of characters, with thin versions on strings.  All of them read the
text from left to right once, and an occurrence that has been used is not looked at again.
-/

set_option autoImplicit false

namespace Cascade.Text

/-! ## Replacing -/

/-- `replaceAll` with the first `skip` characters passed over: they belong to an occurrence that
has been replaced already. -/
def replaceAfter (pattern replacement : List Char) : Nat → List Char → List Char
  | _, [] => []
  | skip + 1, _ :: cs => replaceAfter pattern replacement skip cs
  | 0, c :: cs =>
    if pattern ≠ [] ∧ pattern.isPrefixOf (c :: cs) then
      replacement ++ replaceAfter pattern replacement (pattern.length - 1) cs
    else
      c :: replaceAfter pattern replacement 0 cs

/-- Replaces every occurrence of `pattern`, found from left to right and without overlap.  The
replacement is not searched again.  An empty pattern occurs nowhere. -/
def replaceAll (pattern replacement cs : List Char) : List Char :=
  replaceAfter pattern replacement 0 cs

/-- `replaceAll` on strings. -/
def replaced (pattern replacement text : String) : String :=
  String.ofList (replaceAll pattern.toList replacement.toList text.toList)

/-! ## Cutting -/

/-- The text before and after the first occurrence of `separator`. -/
def splitAt? (separator : Char) : List Char → Option (List Char × List Char)
  | [] => none
  | c :: cs =>
    if c = separator then some ([], cs)
    else (splitAt? separator cs).map fun (before, after) => (c :: before, after)

/-- The part of a name before its first dot, if it has a dot. -/
def package? (name : String) : Option String :=
  (splitAt? '.' name.toList).map fun (before, _) => String.ofList before

/-- The text cut at every occurrence of `separator`; there is always at least one piece. -/
def pieces (separator : Char) : List Char → List (List Char)
  | [] => [[]]
  | c :: cs =>
    if c = separator then [] :: pieces separator cs
    else
      match pieces separator cs with
      | [] => [[c]]
      | first :: rest => (c :: first) :: rest

/-! ## Taking ends off -/

/-- Removes `ending` from the end of the text as often as it stands there.  At most `count`
removals are made; the length of the text is always enough. -/
def dropTailUpTo (ending : List Char) : Nat → List Char → List Char
  | 0, cs => cs
  | count + 1, cs =>
    if ending ≠ [] ∧ ending.isSuffixOf cs then
      dropTailUpTo ending count (cs.take (cs.length - ending.length))
    else cs

/-- Removes `ending` from the end of the text as often as it stands there. -/
def dropTail (ending cs : List Char) : List Char :=
  dropTailUpTo ending cs.length cs

/-- Removes every `c` from both ends of the text. -/
def trimChar (c : Char) (cs : List Char) : List Char :=
  ((cs.dropWhile (· == c)).reverse.dropWhile (· == c)).reverse

/-! ## Small text builders -/

/-- The text filled up with blanks on the left to the given width. -/
def padLeft (width : Nat) (s : String) : String :=
  String.ofList (List.replicate (width - s.length) ' ') ++ s

/-- The text repeated `count` times. -/
def repeated (count : Nat) (s : String) : String :=
  String.join (List.replicate count s)

end Cascade.Text
