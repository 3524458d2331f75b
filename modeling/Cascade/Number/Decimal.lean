import Cascade.Number.Binary

/-!
# Decimal text of numbers

Numbers are read from decimal text and written back in two ways.  The plain text of a number has
the fewest digits that read back as the same number and never an exponent.  The fixed text has a
given number of decimals, and is what the style values of the output are made from.
-/

set_option autoImplicit false

namespace Cascade.Number

/-! ## Reading -/

/-- A decimal number as written: `digits * 10 ^ exponent`. -/
structure Written where
  negative : Bool
  digits : Nat
  exponent : Int
  deriving DecidableEq, Repr

/-- The natural number that a list of decimal digits stands for. -/
def digitsValue (cs : List Char) : Nat :=
  cs.foldl (fun n c => 10 * n + (c.toNat - '0'.toNat)) 0

/-- The bits of the magnitude of a decimal number.  Exponents far outside the range of doubles are
settled by the number of digits alone, so no huge power is ever formed. -/
def Written.magnitudeBits (w : Written) : Nat :=
  let size : Int := ((Nat.toDigits 10 w.digits).length : Int) + w.exponent
  if w.digits = 0 then 0
  else if 400 < size then infinityBits
  else if size < -400 then 0
  else if 0 ≤ w.exponent then nearestBits (w.digits * pow10 w.exponent.toNat) 1
  else nearestBits w.digits (pow10 (-w.exponent).toNat)

/-- The bits of the double nearest to a decimal number. -/
def Written.bits (w : Written) : UInt64 :=
  signed w.negative w.magnitudeBits

/-- The double nearest to a decimal number without sign and exponent: digits, and digits after the
point. -/
def ofDigits (whole fraction : List Char) : Float :=
  Float.ofBits (Written.bits ⟨false, digitsValue (whole ++ fraction), -fraction.length⟩)

/-- Takes a sign off the front; true stands for minus. -/
def splitSign : List Char → Bool × List Char
  | '-' :: cs => (true, cs)
  | '+' :: cs => (false, cs)
  | cs => (false, cs)

/-- Reads the part from the exponent mark on: nothing, or `e`, a sign and at least one digit. -/
def readExponent? : List Char → Option Int
  | [] => some 0
  | c :: cs =>
    if c = 'e' ∨ c = 'E' then
      let (negative, digits) := splitSign cs
      if digits ≠ [] ∧ digits.all Char.isDigit then
        let size : Int := digitsValue digits
        some (if negative then -size else size)
      else none
    else none

/-- Reads digits with an optional point and an optional exponent.  At least one digit has to stand
before or after the point. -/
def readUnsigned? (negative : Bool) (cs : List Char) : Option Written :=
  let whole := cs.takeWhile Char.isDigit
  let afterWhole := cs.dropWhile Char.isDigit
  let (fraction, rest) := match afterWhole with
    | '.' :: more => (more.takeWhile Char.isDigit, more.dropWhile Char.isDigit)
    | more => ([], more)
  if whole = [] ∧ fraction = [] then none
  else
    (readExponent? rest).map fun e =>
      ⟨negative, digitsValue (whole ++ fraction), e - fraction.length⟩

/-- Reads a number: a sign, then `inf`, `infinity` or `nan` in any letter case, or a decimal number
with an optional point and exponent.  The result is given by its bits, which keep the sign of a
`nan`. -/
def read? (text : String) : Option UInt64 :=
  let (negative, cs) := splitSign text.toList
  let word := String.ofList (cs.map Char.toLower)
  if word = "inf" ∨ word = "infinity" then some (signed negative infinityBits)
  else if word = "nan" then some (signed negative nanBits)
  else (readUnsigned? negative cs).map Written.bits

/-! ## The fewest digits that read back -/

/-- The number of decimal digits of `num / den` before the point; zero or less when the quotient is
below one tenth, one and so on. -/
def magnitude (num den : Nat) : Int :=
  if den ≤ num then ((Nat.toDigits 10 (num / den)).length : Int)
  else 1 - ((Nat.toDigits 10 ((den - 1) / num)).length : Int)

/-- `num / den` counted in units of `10 ^ exponent`, as a quotient. -/
def inUnits (num den : Nat) (exponent : Int) : Nat × Nat :=
  if 0 ≤ exponent then (num, den * pow10 exponent.toNat) else (num * pow10 (-exponent).toNat, den)

/-- The decimal with `count` digits that is nearest to `num / den` among those that read back as
`bits`, if there is one.  Of two that are equally near the larger one is taken. -/
def digitsOfLength? (bits : Nat) (num den : Nat) (count : Nat) : Option (Nat × Int) :=
  let exponent := magnitude num den - count
  let (n, d) := inUnits num den exponent
  let below := n / d
  let above := below + 1
  let reads (digits : Nat) : Bool := Written.magnitudeBits ⟨false, digits, exponent⟩ = bits
  let rest := n % d
  if reads below ∧ (¬ reads above ∨ 2 * rest < d) then some (below, exponent)
  else if reads above then some (above, exponent)
  else none

/-- **The fewest digits that read back.**  `bits` are those of a positive finite double and
`num / den` is its value.  Seventeen digits are always enough. -/
def shortest (bits : Nat) (num den : Nat) : Nat × Int :=
  ((List.range 17).findSome? fun n => digitsOfLength? bits num den (n + 1)).getD
    (num / den, 0)

/-! ## Writing -/

/-- Digits with a point put before the last `decimals` of them.  At least one digit stands before
the point. -/
def pointed (digits : List Char) (decimals : Nat) : String :=
  let digits := List.replicate (decimals + 1 - digits.length) '0' ++ digits
  let whole := digits.take (digits.length - decimals)
  let fraction := digits.drop (digits.length - decimals)
  if decimals = 0 then String.ofList whole else String.ofList (whole ++ '.' :: fraction)

/-- The digits `n * 10 ^ exponent`, written without an exponent and without trailing zeros after
the point. -/
def positional (n : Nat) (exponent : Int) : String :=
  let digits := Nat.toDigits 10 n
  let zeros := (digits.reverse.takeWhile (· == '0')).length
  let digits := digits.take (digits.length - zeros)
  let exponent := exponent + zeros
  if 0 ≤ exponent then String.ofList (digits ++ List.replicate exponent.toNat '0')
  else pointed digits (-exponent).toNat

/-- A sign in front of a text. -/
def withSign (negative : Bool) (text : String) : String :=
  if negative then "-" ++ text else text

/-- The value of a finite double as a quotient. -/
def quotient (mantissa : Nat) (exponent : Int) : Nat × Nat :=
  if 0 ≤ exponent then (mantissa * pow2 exponent.toNat, 1) else (mantissa, pow2 (-exponent).toNat)

/-- The plain text of a number: the fewest digits that read back, never with an exponent. -/
def plain (x : Float) : String :=
  match Parts.of x with
  | .nan => "NaN"
  | .infinite negative => withSign negative "inf"
  | .finite negative m e =>
    if m = 0 then withSign negative "0"
    else
      let (num, den) := quotient m e
      let (digits, exponent) := shortest (x.toBits.toNat % signBit) num den
      withSign negative (positional digits exponent)

/-- The text of a number with exactly `decimals` decimals: its exact value, rounded, a tie to the
even last digit. -/
def fixed (x : Float) (decimals : Nat) : String :=
  match Parts.of x with
  | .nan => "NaN"
  | .infinite negative => withSign negative "inf"
  | .finite negative m e =>
    let (num, den) := quotient m e
    withSign negative (pointed (Nat.toDigits 10 (roundDiv (num * pow10 decimals) den)) decimals)

/-! ## Numbers in style values -/

/-- Drops the zeros at the end, and then the point if it is last. -/
def dropTrailingZeros (cs : List Char) : List Char :=
  if '.' ∈ cs then
    ((cs.reverse.dropWhile (· == '0')).dropWhile (· == '.')).reverse
  else cs

/-- Drops a zero that stands alone before the point. -/
def dropLeadingZero : List Char → List Char
  | '0' :: '.' :: cs => '.' :: cs
  | '-' :: '0' :: '.' :: cs => '-' :: '.' :: cs
  | cs => cs

/-- How many decimals style values keep if nothing else is asked for. -/
def defaultPrecision : Nat := 4

/-- A number as it stands in a style value: rounded to `precision` decimals, a half away from zero,
without trailing zeros and without a zero before the point.  Numbers that round to zero, and those
that are not finite, are written `0`. -/
def styled (x : Float) (precision : Nat) : String :=
  let factor := powerOfTen precision
  let rounded := roundAway (x * factor) / factor
  match Parts.of rounded with
  | .finite _ m _ =>
    if m = 0 then "0"
    else
      String.ofList (dropLeadingZero (dropTrailingZeros (fixed rounded precision).toList))
  | _ => "0"

/-- The first `count` hexadecimal digits of a number, the last one first. -/
def hexDigits : Nat → Nat → List Char
  | 0, _ => []
  | count + 1, n => Nat.digitChar (n % 16) :: hexDigits count (n / 16)

/-- A natural number in hexadecimal, filled up with zeros to the given width. -/
def hex (width n : Nat) : String :=
  let needed := (Nat.toDigits 16 n).length
  String.ofList (hexDigits (max width needed) n).reverse

end Cascade.Number
