/-!
# Numbers in sixty-four bits

The numbers of a stylesheet are IEEE 754 doubles.  This module takes a double apart into an integer
times a power of two and puts the double nearest to a quotient of two natural numbers together
again.  Reading and printing decimals, rounding and the remainder are all done in exact natural
number arithmetic between those two ends.
-/

set_option autoImplicit false

namespace Cascade.Number

/-! ## Powers -/

/-- Two to the power `n`. -/
def pow2 (n : Nat) : Nat := Nat.pow 2 n

/-- Ten to the power `n`. -/
def pow10 (n : Nat) : Nat := Nat.pow 10 n

/-! ## Taking a double apart -/

/-- A double: not a number, an infinity, or `±mantissa * 2 ^ exponent`. -/
inductive Parts where
  | nan
  | infinite (negative : Bool)
  | finite (negative : Bool) (mantissa : Nat) (exponent : Int)
  deriving DecidableEq, Repr

/-- The bits of positive infinity. -/
def infinityBits : Nat := 2047 * pow2 52

/-- The bits of the number that is not a number. -/
def nanBits : Nat := infinityBits + pow2 51

/-- The weight of the sign bit. -/
def signBit : Nat := pow2 63

/-- Takes the bits of a double apart.  A zero exponent field marks the numbers below `2 ^ -1022`,
which have no hidden leading bit. -/
def Parts.ofBits (bits : UInt64) : Parts :=
  let n := bits.toNat
  let negative := decide (signBit ≤ n)
  let field : Nat := n / pow2 52 % pow2 11
  let fraction := n % pow2 52
  if field = 2047 then
    if fraction = 0 then .infinite negative else .nan
  else if field = 0 then
    .finite negative fraction (-1074)
  else
    .finite negative (pow2 52 + fraction) ((field : Int) - 1075)

/-- Takes a double apart. -/
def Parts.of (x : Float) : Parts :=
  Parts.ofBits x.toBits

/-! ## Putting a double together -/

/-- The quotient `num / den` rounded to the nearest natural number, a tie to the even one. -/
def roundDiv (num den : Nat) : Nat :=
  let q := num / den
  let r := num % den
  if den < 2 * r ∨ (2 * r = den ∧ q % 2 = 1) then q + 1 else q

/-- `num * 2 ^ (-shift)` and `den` as a quotient of natural numbers. -/
def scaled (num den : Nat) (shift : Int) : Nat × Nat :=
  if 0 ≤ shift then (num, den * pow2 shift.toNat) else (num * pow2 (-shift).toNat, den)

/-- The power of two in whose multiples the double nearest to `num / den` is counted: the one that
leaves fifty-three binary digits, but never less than `2 ^ -1074`. -/
def unitExponent (num den : Nat) : Int :=
  let least : Int := max ((num.log2 : Int) - den.log2 - 53) (-1074)
  let (n, d) := scaled num den least
  if d * pow2 53 ≤ n then least + 1 else least

/-- The bits of the non-negative double nearest to `num / den`, a tie to the even mantissa.  Beyond
the largest double this is infinity. -/
def nearestBits (num den : Nat) : Nat :=
  if num = 0 then 0
  else
    let e := unitExponent num den
    let (n, d) := scaled num den e
    min infinityBits ((e + 1074).toNat * pow2 52 + roundDiv n d)

/-- The bits with the sign put on. -/
def signed (negative : Bool) (bits : Nat) : UInt64 :=
  UInt64.ofNat (if negative then signBit + bits else bits)

/-- The double nearest to `±num / den`. -/
def nearest (negative : Bool) (num den : Nat) : Float :=
  Float.ofBits (signed negative (nearestBits num den))

/-! ## Operations -/

/-- The nearest integer, a half away from zero. -/
def roundAway (x : Float) : Float :=
  match Parts.of x with
  | .finite negative m e =>
    if 0 ≤ e then x
    else
      let unit := pow2 (-e).toNat
      nearest negative ((2 * m + unit) / (2 * unit)) 1
  | _ => x

/-- What is left of `x` after taking away `y` a whole number of times.  It has the sign of `x` and
is exact. -/
def remainder (x y : Float) : Float :=
  match Parts.of x, Parts.of y with
  | .finite negative m e, .finite _ m' e' =>
    if m' = 0 then Float.ofBits (UInt64.ofNat nanBits)
    else
      let least := min e e'
      let left := m * pow2 (e - least).toNat % (m' * pow2 (e' - least).toNat)
      if 0 ≤ least then nearest negative (left * pow2 least.toNat) 1
      else nearest negative left (pow2 (-least).toNat)
  | .finite .., .infinite _ => x
  | _, _ => Float.ofBits (UInt64.ofNat nanBits)

/-- Multiplies `acc` by `base ^ n` by repeated squaring, in the order that decides the rounding of
the product; `fuel` bounds the number of squarings and `n` itself is always enough. -/
def powerLoop : Nat → Float → Float → Nat → Float
  | 0, acc, _, _ => acc
  | fuel + 1, acc, base, n =>
    let acc := if n % 2 = 1 then acc * base else acc
    if n / 2 = 0 then acc else powerLoop fuel acc (base * base) (n / 2)

/-- Ten to the power `n`, by repeated squaring. -/
def powerOfTen (n : Nat) : Float :=
  powerLoop (n.log2 + 1) 1.0 10.0 n

end Cascade.Number
