import Interlock.Proofs.Decimal
import Interlock.Register.Numeral
import Mathlib.Data.Rat.Floor

/-!
# Numerals that denote 64-bit integers

A numeral is judged by two views, and both of them may be rounded: a large integer shares its
float with its neighbours, and a fraction shares its integer with the whole number beside it. The
judgement is exact all the same (`accepts_integers`). A float that equals a whole number, however
this one has been come by, denotes it, and has lost nothing in its integer view
(`Number.truncated_of_value`); and a whole number that a float denotes is not changed by rounding
(`nearestDouble_of_value`).

`RoundsTo` says what rounding to a significand of a given length is: no other such number is
nearer, and ties go to an even significand.
-/

namespace Interlock

open Decimal

/-! ## Rounding to a significand -/

/-- A significand of the given length can hold the number. -/
def IsShort (bits : Nat) (n : Int) : Prop :=
  ∃ (significand : Int) (exponent : Nat), significand.natAbs < 2 ^ bits ∧
    n = significand * 2 ^ exponent

/-- `r` is the number nearest to `n` among those with a significand of `bits + 1` bits. If another
one is as near, the significand of `r` is even when it takes all of its bits. -/
structure RoundsTo (bits : Nat) (n r : Int) : Prop where
  short : IsShort (bits + 1) r
  nearest : ∀ s, IsShort (bits + 1) s → |r - n| ≤ |s - n|
  even_of_tie : ∀ s, IsShort (bits + 1) s → s ≠ r → |s - n| = |r - n| →
    ∃ (significand : Int) (exponent : Nat), Even significand ∧
      2 ^ bits ≤ |significand| ∧ |significand| ≤ 2 ^ (bits + 1) ∧
      r = significand * 2 ^ exponent

theorem IsShort.neg {bits : Nat} {n : Int} (short : IsShort bits n) : IsShort bits (-n) := by
  obtain ⟨significand, exponent, small, rfl⟩ := short
  exact ⟨-significand, exponent, by rwa [Int.natAbs_neg], (neg_mul _ _).symm⟩

/-- A short number is a multiple of a power of two, or too small to take all bits of a significand
at this power. -/
theorem IsShort.multiple_or_small {bits : Nat} {s : Int} (short : IsShort (bits + 1) s)
    (unit : Nat) : (∃ k : Int, s = k * 2 ^ unit) ∨ |s| < 2 ^ bits * 2 ^ unit := by
  obtain ⟨significand, exponent, small, rfl⟩ := short
  by_cases coarse : unit ≤ exponent
  · refine .inl ⟨significand * 2 ^ (exponent - unit), ?_⟩
    rw [mul_assoc, ← pow_add, Nat.sub_add_cancel coarse]
  · have magnitude : |significand| < 2 ^ (bits + 1) := by
      rw [Int.abs_eq_natAbs]
      exact_mod_cast small
    have power : (0 : ℤ) < 2 ^ exponent := Int.pow_pos (by decide)
    right
    calc |significand * 2 ^ exponent| = |significand| * 2 ^ exponent := by
          rw [abs_mul, abs_of_pos power]
      _ < 2 ^ (bits + 1) * 2 ^ exponent := mul_lt_mul_of_pos_right magnitude power
      _ ≤ 2 ^ bits * 2 ^ unit := by
          rw [← pow_add, ← pow_add]
          exact pow_le_pow_right₀ (by decide) (by omega)

/-- Rounding treats both signs alike. -/
theorem RoundsTo.neg {bits : Nat} {n r : Int} (rounds : RoundsTo bits n r) :
    RoundsTo bits (-n) (-r) := by
  have mirror (s : Int) : |s - (-n)| = |(-s) - n| := by
    rw [← abs_neg]
    congr 1
    ring
  refine ⟨rounds.short.neg, fun s short => ?_, fun s short other tie => ?_⟩
  · rw [mirror, mirror, neg_neg]
    exact rounds.nearest (-s) short.neg
  · rw [mirror, mirror, neg_neg] at tie
    obtain ⟨significand, exponent, even, lower, upper, rfl⟩ :=
      rounds.even_of_tie (-s) short.neg (fun same => other (by rw [← same, neg_neg])) tie
    exact ⟨-significand, exponent, even.neg, by rwa [abs_neg], by rwa [abs_neg],
      (neg_mul _ _).symm⟩

theorem roundToBits_eq (bits n : Nat) :
    roundToBits (bits + 1) n =
      roundHalfEven n (2 ^ (n.log2 - bits)) * 2 ^ (n.log2 - bits) := by
  rw [roundToBits, Nat.add_sub_add_right, Nat.one_shiftLeft, Nat.shiftLeft_eq]

section Rounding

variable {bits unit n : Nat}

/-- Short numbers that are no multiples of the unit are farther away than the least one of full
length, which is no nearer than the rounded number. -/
theorem IsShort.multiple_or_farther {s : Int} (short : IsShort (bits + 1) s)
    (full : unit = 0 ∨ 2 ^ bits * 2 ^ unit ≤ n) :
    (∃ k : Int, s = k * 2 ^ unit) ∨
      |(roundHalfEven n (2 ^ unit) : ℤ) * 2 ^ unit - n| < |s - n| := by
  rcases full with rfl | reached
  · exact .inl ⟨s, by rw [pow_zero, mul_one]⟩
  · refine (short.multiple_or_small unit).imp_right fun small => ?_
    have near := (@roundHalfEven_nearest n (2 ^ unit) (Nat.two_pow_pos unit) (2 ^ bits)).1
    have below := (abs_lt.mp small).2
    push_cast at near
    zify at reached
    rw [abs_of_nonpos (by linarith : (2 : ℤ) ^ bits * 2 ^ unit - n ≤ 0)] at near
    rw [abs_of_neg (by linarith : s - n < 0)]
    linarith

/-- With a unit of one, nothing is as near to a natural number as the number itself. -/
theorem eq_of_tie_at_one {k : Int} (tie : |k - n| = |(roundHalfEven n 1 : ℤ) - n|) :
    k = n ∧ roundHalfEven n 1 = n := by
  have itself : roundHalfEven n 1 = n := by simpa using roundHalfEven_mul n 1 Nat.one_pos
  rw [itself, sub_self, abs_zero, abs_eq_zero, sub_eq_zero] at tie
  exact ⟨tie, itself⟩

/-- A natural number is rounded to a multiple of the last bit that is not spare. -/
theorem roundsTo_roundToBits (bits n : Nat) : RoundsTo bits n (roundToBits (bits + 1) n) := by
  obtain ⟨upper, full⟩ := length_of_spare bits n
  rw [roundToBits_eq]
  generalize n.log2 - bits = unit at upper full ⊢
  have unit_pos : 0 < 2 ^ unit := Nat.two_pow_pos unit
  have at_most := roundHalfEven_le unit_pos upper.le
  have nearest := @roundHalfEven_nearest n (2 ^ unit) unit_pos
  push_cast at nearest ⊢
  refine ⟨?_, fun s short => ?_, fun s short other tie => ?_⟩
  · rcases at_most.lt_or_eq with small | whole
    · exact ⟨roundHalfEven n (2 ^ unit), unit, small, rfl⟩
    · refine ⟨1, bits + 1 + unit, Nat.one_lt_two_pow (Nat.succ_ne_zero bits), ?_⟩
      rw [whole, pow_add _ (bits + 1), one_mul]
      push_cast
      rfl
  · rcases short.multiple_or_farther full with ⟨k, rfl⟩ | farther
    · exact (nearest k).1
    · exact farther.le
  · rcases short.multiple_or_farther full with ⟨k, rfl⟩ | farther
    · have another : k ≠ roundHalfEven n (2 ^ unit) := fun same => other (by rw [same])
      refine ⟨roundHalfEven n (2 ^ unit), unit, ?_, ?_, ?_, rfl⟩
      · exact_mod_cast Nat.even_iff.mpr ((nearest k).2 another tie)
      · rcases full with rfl | reached
        · simp only [pow_zero, mul_one] at tie another
          obtain ⟨same, itself⟩ := eq_of_tie_at_one tie
          exact absurd (same.trans (congrArg Nat.cast itself.symm)) another
        · rw [Nat.abs_cast]
          exact_mod_cast le_roundHalfEven unit_pos reached
      · rw [Nat.abs_cast]
        exact_mod_cast at_most
    · exact absurd tie farther.ne'

end Rounding

/-- The float of an integer is the nearest one. -/
theorem roundsTo_nearestDouble (n : Int) : RoundsTo 52 n (nearestDouble n) := by
  have nonnegative (size : Nat) : RoundsTo 52 size (nearestDouble size) := by
    have same : nearestDouble size = roundToBits 53 size := by
      rcases Nat.eq_zero_or_pos size with rfl | positive
      · rfl
      · rw [nearestDouble, Int.natAbs_natCast,
          Int.sign_eq_one_of_pos (Int.natCast_pos.mpr positive), Int.one_mul]
    exact same ▸ roundsTo_roundToBits 52 size
  obtain ⟨size, rfl | rfl⟩ := n.eq_nat_or_neg
  · exact nonnegative size
  · have same : nearestDouble (-size) = -nearestDouble size := by
      rw [nearestDouble, nearestDouble, Int.sign_neg, Int.natAbs_neg, Int.neg_mul]
    exact same ▸ (nonnegative size).neg

/-- A whole number that a significand of the given length can hold is not changed by rounding. -/
theorem roundToBits_of_short {bits significand : Nat} (short : significand < 2 ^ (bits + 1))
    (exponent : Nat) :
    roundToBits (bits + 1) (significand * 2 ^ exponent) = significand * 2 ^ exponent := by
  have held : IsShort (bits + 1) (significand * 2 ^ exponent : Nat) :=
    ⟨significand, exponent, short, by push_cast; rfl⟩
  have near := (roundsTo_roundToBits bits (significand * 2 ^ exponent)).nearest _ held
  rw [sub_self, abs_zero] at near
  have same := sub_eq_zero.mp (abs_eq_zero.mp (le_antisymm near (abs_nonneg _)))
  exact_mod_cast same

/-! ## Floats and whole numbers -/

namespace Decimal.Number

/-- The comparison of a float with a whole number is exact. -/
theorem equalsWhole_iff (x : Number) (n : Int) :
    x.equalsWhole n = true ↔ x.value? = some (n : ℚ) := by
  cases x with
  | nan | infinite => simp [equalsWhole, value?]
  | finite negative significand exponent =>
    have positive : (0 : ℤ) < denominator exponent := by exact_mod_cast denominator_pos exponent
    rw [value?_finite_iff, equalsWhole]
    generalize numerator significand exponent = num
    generalize denominator exponent = den at positive ⊢
    simp only [Bool.and_eq_true, Bool.or_eq_true, decide_eq_true_eq]
    zify
    rcases lt_trichotomy n 0 with below | rfl | above
    · have product : n * den < 0 := mul_neg_of_neg_of_pos below positive
      rw [abs_of_neg below, neg_mul]
      cases negative with
      | false =>
        have apart : (num : ℤ) ≠ n * den := by omega
        simp [below, below.ne, apart]
      | true => simp [below, neg_eq_iff_eq_neg]
    · cases negative <;> simp
    · have product : 0 < n * den := mul_pos above positive
      rw [abs_of_pos above]
      cases negative with
      | false => simp [above.le]
      | true =>
        have apart : -(num : ℤ) ≠ n * den := by omega
        simp [above.le, above.ne', apart]

/-- A number that denotes a whole number has no fraction to lose. -/
theorem truncated_of_value {x : Number} {n : Int} (whole : x.value? = some (n : ℚ)) :
    x.truncated = some n := by
  rw [← equalsWhole_iff] at whole
  cases x with
  | nan | infinite => cases whole
  | finite negative significand exponent =>
    simp only [equalsWhole, Bool.and_eq_true, Bool.or_eq_true, decide_eq_true_eq] at whole
    obtain ⟨size, sign⟩ := whole
    simp only [truncated, size, Nat.mul_div_cancel _ (denominator_pos exponent),
      Option.some.injEq]
    rcases sign with rfl | rfl
    · simp
    · simp only [decide_eq_true_eq]
      split <;> omega

end Decimal.Number

/-- A whole number that a float denotes is its own float. -/
theorem nearestDouble_of_value {x : Number} {n : Int} (short : x.significand < 2 ^ 53)
    (whole : x.value? = some (n : ℚ)) : nearestDouble n = n := by
  rw [← Number.equalsWhole_iff] at whole
  cases x with
  | nan | infinite => cases whole
  | finite negative significand exponent =>
    replace short : significand < 2 ^ 53 := short
    simp only [Number.equalsWhole, numerator, denominator, Nat.shiftLeft_eq, Nat.one_mul,
      Bool.and_eq_true, decide_eq_true_eq] at whole
    have size := whole.1
    have held : roundToBits 53 n.natAbs = n.natAbs := by
      rcases Int.le_total 0 exponent with large | small
      · rw [Int.toNat_eq_zero.mpr (by omega : -exponent ≤ 0), Nat.pow_zero, Nat.mul_one] at size
        rw [← size]
        exact roundToBits_of_short short _
      · rw [Int.toNat_eq_zero.mpr small, Nat.pow_zero, Nat.mul_one] at size
        have at_most : n.natAbs ≤ significand :=
          size ▸ Nat.le_mul_of_pos_right _ (Nat.two_pow_pos _)
        simpa using roundToBits_of_short (at_most.trans_lt short) 0
    rw [nearestDouble, held, Int.sign_mul_natAbs]

/-! ## Acceptance -/

namespace Numeral

/-- The type of the numeral is built in: integers of any width, and floats of both widths. -/
def IsPrimitive : Numeral → Prop
  | views _ _ => False
  | _ => True

/-- The number that a numeral of a primitive type denotes, if it is finite. -/
def value? : Numeral → Option ℚ
  | whole value => some value
  | double bits => binary64.value? bits.toNat
  | single bits => binary32.value? bits.toNat
  | views _ _ => none

variable {numeral : Numeral}

theorem fitting_eq_some {n m : Int} (fits : fitting n = some m) :
    m = n ∧ (Int64.ofInt n).toInt = n := by
  have lower : least = -2 ^ 63 := Int64.toInt_minValue
  have upper : greatest = 2 ^ 63 - 1 := Int64.toInt_maxValue
  unfold fitting at fits
  split at fits
  · cases fits
    exact ⟨rfl, Int64.toInt_ofInt_of_le (by omega) (by omega)⟩
  · cases fits

theorem fitting_toInt (n : Int64) : fitting n.toInt = some n.toInt :=
  if_pos ⟨Int64.minValue_le_toInt n, Int64.toInt_le n⟩

theorem toInt64_eq_ok_iff {n : Int64} :
    numeral.toInt64 = .ok n ↔
      ∃ i, numeral.integerView = some i ∧ numeral.floatViewAllows i ∧ Int64.ofInt i = n := by
  unfold toInt64
  cases numeral.integerView with
  | none => simp
  | some i => by_cases allowed : numeral.floatViewAllows i <;> simp [allowed]

/-- A numeral that is refused is refused for one reason. -/
theorem eq_notAnInteger {fault : Fault} (refused : numeral.toInt64 = .error fault) :
    fault = notAnInteger := by
  unfold toInt64 at refused
  split at refused
  · exact (Except.error.inj refused).symm
  · split at refused
    · cases refused
    · exact (Except.error.inj refused).symm

/-- A numeral whose views are those of a float with a short significand. -/
theorem toInt64_of_number {x : Number} (short : x.significand < 2 ^ 53)
    (integer : numeral.integerView = x.truncated.bind fitting)
    (float : ∀ n, numeral.floatViewAllows n = x.equalsWhole (nearestDouble n)) (n : Int64) :
    numeral.toInt64 = .ok n ↔ x.value? = some (n.toInt : ℚ) := by
  rw [toInt64_eq_ok_iff, integer]
  constructor
  · rintro ⟨i, view, allowed, rfl⟩
    obtain ⟨whole, cut, fits⟩ := Option.bind_eq_some_iff.mp view
    obtain ⟨rfl, same⟩ := fitting_eq_some fits
    rw [float, Number.equalsWhole_iff] at allowed
    -- the float denotes a rounded number, so this number is what has been cut out of it
    have exact_cut : nearestDouble i = i :=
      Option.some.inj ((Number.truncated_of_value allowed).symm.trans cut)
    rw [same]
    exact exact_cut ▸ allowed
  · intro denotes
    refine ⟨n.toInt, ?_, ?_, Int64.ofInt_toInt n⟩
    · rw [Number.truncated_of_value denotes]
      exact fitting_toInt n
    · rw [float, nearestDouble_of_value short denotes]
      exact (Number.equalsWhole_iff x n.toInt).mpr denotes

theorem toInt64_of_primitive (primitive : numeral.IsPrimitive) (n : Int64) :
    numeral.toInt64 = .ok n ↔ numeral.value? = some (n.toInt : ℚ) := by
  cases numeral with
  | views => exact primitive.elim
  | whole value =>
    rw [toInt64_eq_ok_iff, value?, Option.some.injEq, Int.cast_inj]
    constructor
    · rintro ⟨i, view, -, rfl⟩
      obtain ⟨rfl, same⟩ := fitting_eq_some view
      exact same.symm
    · rintro rfl
      exact ⟨n.toInt, fitting_toInt n, decide_eq_true rfl, Int64.ofInt_toInt n⟩
  | double bits =>
    rw [value?, ← value?_read]
    exact toInt64_of_number (significand_read binary64 _) rfl (fun _ => rfl) n
  | single bits =>
    have short := significand_read binary32 bits.toNat
    rw [value?, ← value?_read]
    exact toInt64_of_number (short.trans (by decide)) rfl (fun _ => rfl) n

/-- A rational number is a 64-bit integer if it has no fraction and lies between the bounds. -/
theorem exists_toInt_iff (x : ℚ) :
    (∃ n : Int64, x = n.toInt) ↔ Int.fract x = 0 ∧ -2 ^ 63 ≤ x ∧ x < 2 ^ 63 := by
  constructor
  · rintro ⟨n, rfl⟩
    refine ⟨Int.fract_intCast _, ?_, ?_⟩
    · exact_mod_cast Int64.le_toInt n
    · exact_mod_cast Int64.toInt_lt n
  · rintro ⟨whole, lower, upper⟩
    have same : x = ⌊x⌋ := by rw [← Int.self_sub_fract, whole, sub_zero]
    rw [same] at lower upper
    refine ⟨Int64.ofInt ⌊x⌋, ?_⟩
    rw [Int64.toInt_ofInt_of_le (by exact_mod_cast lower) (by exact_mod_cast upper)]
    exact same

/-- A numeral of a primitive type is accepted if and only if it denotes a number without a fraction
from `-2 ^ 63` up to `2 ^ 63`, this bound excluded, and what is accepted is this number. Every
other numeral is refused as an argument. The float that an integer is compared by is the nearest
one. -/
theorem accepts_integers (primitive : numeral.IsPrimitive) :
    (∀ n : Int64, numeral.toInt64 = .ok n ↔ numeral.value? = some (n.toInt : ℚ)) ∧
      ((∃ n, numeral.toInt64 = .ok n) ↔
        ∃ x, numeral.value? = some x ∧ Int.fract x = 0 ∧ -2 ^ 63 ≤ x ∧ x < 2 ^ 63) ∧
      ((¬ ∃ x, numeral.value? = some x ∧ Int.fract x = 0 ∧ -2 ^ 63 ≤ x ∧ x < 2 ^ 63) →
        numeral.toInt64 =
          .error (.invalidArgument "value must be an integer in the 64-bit signed range")) ∧
      ∀ i, RoundsTo 52 i (nearestDouble i) := by
  have accepted := toInt64_of_primitive primitive
  have range : (∃ n, numeral.toInt64 = .ok n) ↔
      ∃ x, numeral.value? = some x ∧ Int.fract x = 0 ∧ -2 ^ 63 ≤ x ∧ x < 2 ^ 63 := by
    constructor
    · rintro ⟨n, ok⟩
      exact ⟨n.toInt, (accepted n).mp ok, (exists_toInt_iff _).mp ⟨n, rfl⟩⟩
    · rintro ⟨x, denotes, inside⟩
      obtain ⟨n, rfl⟩ := (exists_toInt_iff x).mpr inside
      exact ⟨n, (accepted n).mpr denotes⟩
  refine ⟨accepted, range, fun outside => ?_, roundsTo_nearestDouble⟩
  cases judged : numeral.toInt64 with
  | ok n => exact absurd (range.mp ⟨n, judged⟩) outside
  | error fault => rw [eq_notAnInteger judged, notAnInteger]

/-- At the ends of the range, and where an integer and its neighbour share a float. -/
theorem accepts_integers_at_bounds :
    (whole (2 ^ 53 + 1)).toInt64 = .ok (2 ^ 53 + 1) ∧ nearestDouble (2 ^ 53 + 1) = 2 ^ 53 ∧
      (double 0xc3e0000000000000).toInt64 = .ok Int64.minValue ∧
      (double 0x43e0000000000000).toInt64 = .error notAnInteger ∧
      (single 0x3f000000).toInt64 = .error notAnInteger := by
  have least_value : (double 0xc3e0000000000000).value? = some (-2 ^ 63) := by
    show binary64.value? 0xc3e0000000000000 = _
    norm_num [Format.value?, binary64]
  have beyond_value : (double 0x43e0000000000000).value? = some (2 ^ 63) := by
    show binary64.value? 0x43e0000000000000 = _
    norm_num [Format.value?, binary64]
  have half_value : (single 0x3f000000).value? = some (1 / 2) := by
    show binary32.value? 0x3f000000 = _
    norm_num [Format.value?, binary32]
  refine ⟨(@accepts_integers (whole (2 ^ 53 + 1)) trivial).1 _ |>.mpr ?_, by decide,
    (@accepts_integers (double 0xc3e0000000000000) trivial).1 _ |>.mpr ?_,
    (@accepts_integers (double 0x43e0000000000000) trivial).2.2.1 ?_,
    (@accepts_integers (single 0x3f000000) trivial).2.2.1 ?_⟩
  · have same : ((2 ^ 53 + 1 : Int64)).toInt = 2 ^ 53 + 1 := by decide
    rw [same]
    rfl
  · rw [least_value, Int64.toInt_minValue]
    norm_num
  · rintro ⟨x, denotes, -, -, upper⟩
    rw [beyond_value] at denotes
    cases denotes
    exact lt_irrefl _ upper
  · rintro ⟨x, denotes, fraction, -⟩
    rw [half_value] at denotes
    cases denotes
    norm_num at fraction

end Numeral

end Interlock
