import Cascade.Value.Operation

/-!
# Order and equality of values

Numbers and strings are ordered, and any two values are equal or not.  The order takes no notice of
how a value is written: a number without a unit is compared with numbers of every unit, and a string
with strings in either quotes.  Equality does take notice.
-/

set_option autoImplicit false

namespace Cascade

open Float.Model

/-! ## Numbers -/

namespace Number

theorem compare_swap (a b : UnpackedFloat) : b.compare a = (a.compare b).map Ordering.swap := by
  have hswap (m m' : Nat) (e e' : Int) :
      (compare e' e).then (compare m' m) = ((compare e e').then (compare m m')).swap := by
    rw [Ordering.swap_then, ← Std.OrientedOrd.eq_swap, ← Std.OrientedOrd.eq_swap]
  obtain ⟨_ | _⟩ | _ | _ | ⟨_ | _, m, e, _⟩ := a <;>
    obtain ⟨_ | _⟩ | _ | _ | ⟨_ | _, m', e', _⟩ := b
  case finite.positive.finite.positive => exact congrArg some (hswap m m' e e')
  case finite.negative.finite.negative =>
    exact congrArg (fun o : Ordering => some o.swap) (hswap m m' e e')
  all_goals rfl

/-- **Numbers are ordered** unless one of them is not a number. -/
theorem compare_eq_some {a b : Float} (ha : a.isNaN = false) (hb : b.isNaN = false) :
    a.toModel.unpack.compare b.toModel.unpack = some (Value.numberOrdering a b) := by
  have hlt (a b : Float) : a < b ↔ a.toModel.unpack.compare b.toModel.unpack = some .lt :=
    decide_eq_true_iff.trans beq_iff_eq
  have hsome : (a.toModel.unpack.compare b.toModel.unpack).isSome := by
    change a.toModel.unpack.isNaN = false at ha
    change b.toModel.unpack.isNaN = false at hb
    generalize a.toModel.unpack = a at ha
    generalize b.toModel.unpack = b at hb
    obtain ⟨_ | _⟩ | _ | _ | ⟨_ | _⟩ := a <;> obtain ⟨_ | _⟩ | _ | _ | ⟨_ | _⟩ := b
    all_goals first | rfl | exact Bool.noConfusion ha | exact Bool.noConfusion hb
  obtain ⟨o, ho⟩ := Option.isSome_iff_exists.1 hsome
  have hback := compare_swap a.toModel.unpack b.toModel.unpack
  rw [ho] at hback
  simp only [Value.numberOrdering, hlt, ho, hback]
  cases o <;> rfl

end Number

namespace Value

/-! ## Values -/

/-- The order of two values: numbers of one unit or without a unit, and strings. -/
def order? : Value → Value → Option Ordering
  | number a u, number b v =>
    if u = v ∨ u = none ∨ v = none then some (numberOrdering a b) else none
  | string a _, string b _ => some (textOrdering a b)
  | _, _ => none

/-- Whether two values are written in different ways: one number with a unit and one without, or two
strings in different quotes. -/
def differInNotation : Value → Value → Bool
  | number _ u, number _ v => u.isSome != v.isSome
  | string _ p, string _ q => p != q
  | _, _ => false

/-- Whether a value is the number that is not a number. -/
def isNaN : Value → Bool
  | number a _ => a.isNaN
  | _ => false

theorem numbers_eq_ok_iff {op : BinaryOp} (h : op.isComparison = true) {x y : Float}
    {u v : Option String} {t : Bool} : numbers op x u y v = .ok (boolean t) ↔
      (u = v ∨ u = none ∨ v = none) ∧ compares op (numberOrdering x y) = t := by
  have hscale : ¬(op = .multiply ∨ op = .divide) := by rintro (rfl | rfl) <;> cases h
  by_cases hunit : u = v ∨ u = none ∨ v = none
  · have halign : ∃ unit, alignUnits op x y u v = .ok (x, y, unit) := by
      rcases u with _ | u <;> rcases v with _ | v
      all_goals simp_all [alignUnits]
    obtain ⟨unit, halign⟩ := halign
    simp [numbers, halign, h, hunit, bind, Except.bind, pure, Except.pure]
  · rcases u with _ | u <;> rcases v with _ | v <;>
      simp_all [numbers, alignUnits, bind, Except.bind]

/-- A comparison asks for the order of two values. -/
theorem binary_eq_ok_iff (op : BinaryOp) (h : op.isComparison = true) (a b : Value) (t : Bool) :
    binary op a b = .ok (boolean t) ↔ (order? a b).map (compares op) = some t := by
  obtain rfl | rfl | rfl | rfl : op = .less ∨ op = .lessOrEqual ∨ op = .greater ∨
      op = .greaterOrEqual := by
    revert h
    cases op <;> decide
  all_goals
    cases a <;> cases b
    case number.number => simp [binary, scalar, order?, BinaryOp.isArithmetic, numbers_eq_ok_iff h]
    case string.string => exact ⟨fun h => by cases h; rfl, fun h => by cases h; rfl⟩
    all_goals exact iff_of_false nofun nofun

/-- **Values of the same order are equal** if they are written in the same way, and no others are
equal. -/
theorem same_of_order? {a b : Value} {o : Ordering} (h : order? a b = some o)
    (ha : a.isNaN = false) (hb : b.isNaN = false) :
    same a b = (o == .eq && !differInNotation a b) := by
  unfold order? at h
  split at h
  case h_1 x u y v =>
    split at h
    · cases h
      have hsame : (x == y) = (numberOrdering x y == .eq) := by
        show (x.toModel.unpack.compare y.toModel.unpack == some .eq) = _
        rw [Number.compare_eq_some ha hb]
        rfl
      rw [same, hsame, differInNotation]
      congr 1
      cases u <;> cases v <;> simp_all
    · cases h
  case h_2 x p y q =>
    cases h
    rw [same, differInNotation, textOrdering]
    by_cases hxy : x = y
    · simp [hxy, bne]
    · rw [beq_false_of_ne hxy, if_neg hxy]
      split <;> rfl
  case h_3 => cases h

/-- **Order and equality agree** but for the notation.  Of two values that are neither below nor above
each other it is the notation that decides whether they are equal; and a value below another one is
neither equal to it nor above it. -/
theorem comparison_consistent {a b : Value} (ha : a.isNaN = false) (hb : b.isNaN = false) :
    (binary .lessOrEqual a b = .ok (boolean true) →
      binary .greaterOrEqual a b = .ok (boolean true) →
        binary .equals a b = .ok (boolean (!differInNotation a b))) ∧
    (binary .less a b = .ok (boolean true) →
      binary .equals a b = .ok (boolean false) ∧
        binary .greaterOrEqual a b = .ok (boolean false)) := by
  simp only [binary_eq_ok_iff .less rfl, binary_eq_ok_iff .lessOrEqual rfl,
    binary_eq_ok_iff .greaterOrEqual rfl, Option.map_eq_some_iff]
  constructor
  · rintro ⟨o, ho, hle⟩ ⟨o', ho', hge⟩
    obtain rfl := Option.some.inj (ho.symm.trans ho')
    obtain rfl : o = .eq := by cases o <;> first | rfl | contradiction
    rw [binary, same_of_order? ho ha hb]
    rfl
  · rintro ⟨o, ho, hlt⟩
    obtain rfl : o = .lt := by cases o <;> first | rfl | contradiction
    rw [binary, same_of_order? ho ha hb]
    exact ⟨rfl, .lt, ho, rfl⟩

/-- A number with a unit and the same number without one. -/
theorem comparison_consistent_units :
    (number 1 (some "px")).isNaN = false ∧ (number 1 none).isNaN = false ∧
      binary .lessOrEqual (number 1 (some "px")) (number 1 none) = .ok (boolean true) ∧
      binary .greaterOrEqual (number 1 (some "px")) (number 1 none) = .ok (boolean true) ∧
      binary .equals (number 1 (some "px")) (number 1 none) = .ok (boolean false) := by
  have h : (number 1 (some "px")).isNaN = false ∧ (number 1 none).isNaN = false := by
    decide +kernel
  exact ⟨h.1, h.2, rfl, rfl, (comparison_consistent h.1 h.2).1 rfl rfl⟩

/-- Equal strings in different quotes are neither below nor above each other and yet not equal. -/
theorem quotes_unequal :
    binary .lessOrEqual (string "a" .single) (string "a" .double) = .ok (boolean true) ∧
      binary .greaterOrEqual (string "a" .single) (string "a" .double) = .ok (boolean true) ∧
      binary .equals (string "a" .single) (string "a" .double) = .ok (boolean false) := by
  exact ⟨rfl, rfl, rfl⟩

end Value

end Cascade
