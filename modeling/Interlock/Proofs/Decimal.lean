import Interlock.Decimal.Fixed
import Mathlib.Algebra.Order.Field.Basic
import Mathlib.Algebra.Order.Field.Rat
import Mathlib.Algebra.Order.Ring.Abs
import Mathlib.Algebra.Order.Ring.Int
import Mathlib.Algebra.Ring.Parity
import Mathlib.Data.Rat.Defs
import Mathlib.Tactic.FieldSimp
import Mathlib.Tactic.Linarith
import Mathlib.Tactic.Ring

/-!
# Binary numbers as rational numbers

What a bit pattern denotes is said by its fields (`Format.value?`): a fraction below one, to which
a normal number adds one, at a power of two given by a biased exponent. What is read from the
pattern, a whole significand at a power of two, is the same number (`value?_read`), and a quotient
of two natural numbers (`Number.value?_finite_iff`).

Rounding such a quotient to the nearest whole number is monotone, no whole number is nearer
(`roundHalfEven_nearest`), and of two that are equally near the even one is taken.
-/

namespace Interlock.Decimal

/-- The rational number that a bit pattern denotes, if it is finite. The least exponent belongs to
the subnormal numbers, and the greatest one to infinity and to what is no number. -/
def Format.value? (f : Format) (bits : Nat) : Option ℚ :=
  let fraction : ℚ := (bits % 2 ^ f.fractionBits : Nat) / 2 ^ f.fractionBits
  let biased := bits / 2 ^ f.fractionBits % 2 ^ f.exponentBits
  let bias : ℤ := 2 ^ (f.exponentBits - 1) - 1
  let sign : ℚ := (-1) ^ (bits / 2 ^ (f.fractionBits + f.exponentBits))
  if biased = 2 ^ f.exponentBits - 1 then none
  else if biased = 0 then some (sign * fraction * 2 ^ (1 - bias))
  else some (sign * (1 + fraction) * 2 ^ (biased - bias))

namespace Number

/-- The rational number that has been read, if it is finite. -/
def value? : Number → Option ℚ
  | finite negative significand exponent =>
    some ((if negative then -1 else 1) * (significand * 2 ^ exponent))
  | _ => none

/-- The significand of a finite number. -/
def significand : Number → Nat
  | finite _ significand _ => significand
  | _ => 0

end Number

/-! ## Reading -/

theorem sign_eq (bits place : Nat) :
    (if bits.testBit place then (-1 : ℚ) else 1) = (-1) ^ (bits / 2 ^ place) := by
  rw [Nat.testBit_eq_decide_div_mod_eq]
  rcases Nat.even_or_odd (bits / 2 ^ place) with even | odd
  · simp [even.neg_one_pow, Nat.even_iff.mp even]
  · simp [odd.neg_one_pow, Nat.odd_iff.mp odd]

/-- Reading moves the point behind the fraction. -/
theorem value?_read (f : Format) (bits : Nat) : (f.read bits).value? = f.value? bits := by
  have least : f.leastExponent = 1 - (2 ^ (f.exponentBits - 1) - 1) - f.fractionBits := by
    simp only [Format.leastExponent, Nat.one_shiftLeft]
    push_cast
    ring
  unfold Format.read Format.value?
  simp only [Nat.one_shiftLeft, Nat.shiftRight_eq_div_pow]
  split
  · split <;> rfl
  · split
    · simp only [Number.value?, sign_eq, least, zpow_sub₀ (two_ne_zero' ℚ), zpow_natCast]
      congr 1
      ring
    · rename_i normal
      have exponent : f.leastExponent +
          (bits / 2 ^ f.fractionBits % 2 ^ f.exponentBits - 1 : Nat) =
            (bits / 2 ^ f.fractionBits % 2 ^ f.exponentBits : Nat) -
              (2 ^ (f.exponentBits - 1) - 1) - f.fractionBits := by
        rw [least]
        omega
      rw [Number.value?, exponent, sign_eq, zpow_sub₀ (two_ne_zero' ℚ) _ (f.fractionBits : ℤ),
        zpow_natCast]
      congr 1
      push_cast
      field_simp

/-- A significand has one bit more than the fraction. -/
theorem significand_read (f : Format) (bits : Nat) :
    (f.read bits).significand < 2 ^ (f.fractionBits + 1) := by
  have fraction : bits % 2 ^ f.fractionBits < 2 ^ f.fractionBits :=
    Nat.mod_lt _ (Nat.two_pow_pos _)
  have double : 2 ^ (f.fractionBits + 1) = 2 ^ f.fractionBits + 2 ^ f.fractionBits := by
    rw [Nat.pow_succ]
    omega
  unfold Format.read
  simp only [Nat.one_shiftLeft]
  split
  · split <;> exact Nat.two_pow_pos _
  · split <;> simp only [Number.significand] <;> omega

theorem denominator_pos (exponent : Int) : 0 < denominator exponent := by
  rw [denominator, Nat.one_shiftLeft]
  exact Nat.two_pow_pos _

theorem numerator_div_denominator (significand : Nat) (exponent : Int) :
    (significand : ℚ) * 2 ^ exponent =
      (numerator significand exponent : ℚ) / denominator exponent := by
  simp only [numerator, denominator, Nat.shiftLeft_eq, Nat.one_mul]
  push_cast
  rcases Int.le_total 0 exponent with large | small
  · have whole : (-exponent).toNat = 0 := by omega
    rw [whole, pow_zero, div_one, ← zpow_natCast, Int.toNat_of_nonneg large]
  · have whole : exponent.toNat = 0 := by omega
    rw [whole, pow_zero, mul_one, ← zpow_natCast, Int.toNat_of_nonneg (by omega), zpow_neg,
      div_inv_eq_mul]

/-- A finite number is whole if its denominator divides its numerator. -/
theorem Number.value?_finite_iff {negative : Bool} {significand : Nat} {exponent n : Int} :
    (finite negative significand exponent).value? = some (n : ℚ) ↔
      (if negative then -(numerator significand exponent : ℤ)
        else numerator significand exponent) = n * denominator exponent := by
  have nonzero : (denominator exponent : ℚ) ≠ 0 :=
    Nat.cast_ne_zero.mpr (denominator_pos exponent).ne'
  rw [value?, numerator_div_denominator, Option.some.injEq, ← mul_div_assoc, div_eq_iff nonzero]
  cases negative with
  | false =>
    simp only [Bool.false_eq_true, if_false, one_mul]
    exact_mod_cast Iff.rfl
  | true =>
    simp only [if_true, neg_mul, one_mul]
    exact_mod_cast Iff.rfl

/-! ## Rounding -/

/-- The length of a number that has its spare bits cut off. -/
theorem length_of_spare (bits n : Nat) :
    n < 2 ^ (bits + 1) * 2 ^ (n.log2 - bits) ∧
      (n.log2 - bits = 0 ∨ 2 ^ bits * 2 ^ (n.log2 - bits) ≤ n) := by
  rw [← Nat.pow_add, ← Nat.pow_add]
  have upper : n < 2 ^ (n.log2 + 1) := Nat.lt_log2_self
  refine ⟨upper.trans_le (Nat.pow_le_pow_right Nat.two_pos (by omega)), ?_⟩
  by_cases spare : n.log2 - bits = 0
  · exact .inl spare
  · have nonzero : n ≠ 0 := by
      rintro rfl
      simp at spare
    have whole : bits + (n.log2 - bits) = n.log2 := by omega
    rw [whole]
    exact .inr (Nat.log2_self_le nonzero)

variable {num den bound : Nat}

theorem le_roundHalfEven (positive : 0 < den) (reached : bound * den ≤ num) :
    bound ≤ roundHalfEven num den := by
  have quotient := (Nat.le_div_iff_mul_le positive).mpr reached
  rcases (roundHalfEven_cases num den).1 with ⟨down, -⟩ | ⟨up, -⟩ <;> omega

theorem roundHalfEven_le (positive : 0 < den) (limited : num ≤ bound * den) :
    roundHalfEven num den ≤ bound := by
  rcases limited.lt_or_eq with less | rfl
  · have quotient := (Nat.div_lt_iff_lt_mul positive).mpr less
    rcases (roundHalfEven_cases num den).1 with ⟨down, -⟩ | ⟨up, -⟩ <;> omega
  · exact (roundHalfEven_mul bound den positive).le

/-- A quotient that is rounded by half a unit goes to the even neighbour. -/
theorem even_roundHalfEven (positive : 0 < den)
    (halfway : 2 * |(roundHalfEven num den : ℤ) * den - num| = den) :
    roundHalfEven num den % 2 = 0 := by
  have division : (num : ℤ) = (num / den : Nat) * den + (num % den : Nat) := by
    exact_mod_cast (Nat.div_add_mod' num den).symm
  obtain ⟨down_or_up, even_of_tie⟩ := roundHalfEven_cases num den
  refine even_of_tie ?_
  rcases down_or_up with ⟨down, -⟩ | ⟨up, -⟩
  · -- what has been taken off is the remainder
    have rest : ((num / den : Nat) : ℤ) * den - num = -(num % den : Nat) := by linarith
    rw [down, rest, abs_neg, Int.abs_natCast] at halfway
    omega
  · -- what has been added is what the remainder lacks
    have rest : ((num / den + 1 : Nat) : ℤ) * den - num = den - (num % den : Nat) := by
      rw [Nat.cast_succ, add_mul, one_mul]
      linarith
    have small := Nat.mod_lt num positive
    rw [up, rest, abs_of_nonneg (by omega)] at halfway
    omega

/-- Rounding moves a quotient by at most half a unit. -/
theorem roundHalfEven_within_half (positive : 0 < den) :
    2 * |(roundHalfEven num den : ℤ) * den - num| ≤ den := by
  obtain ⟨above, below⟩ := roundHalfEven_near num den positive
  zify at above below
  rcases abs_cases ((roundHalfEven num den : ℤ) * den - num) with ⟨size, -⟩ | ⟨size, -⟩ <;> omega

/-- Rounding moves a quotient by at most one half, and to an even number if it is as much. -/
theorem roundHalfEven_near_div (positive : 0 < den) :
    |(roundHalfEven num den : ℚ) - num / den| ≤ 1 / 2 ∧
      (|(roundHalfEven num den : ℚ) - num / den| = 1 / 2 → roundHalfEven num den % 2 = 0) := by
  have divisor : (0 : ℚ) < den := Nat.cast_pos.mpr positive
  have moved : |(roundHalfEven num den : ℚ) - num / den| =
      (2 * |(roundHalfEven num den : ℤ) * den - num| : ℤ) / den / 2 := by
    have scaled : (roundHalfEven num den : ℚ) - num / den =
        (roundHalfEven num den * den - num) / den := by
      field_simp
    rw [scaled, abs_div, abs_of_pos divisor]
    push_cast
    ring
  rw [moved, div_le_div_iff_of_pos_right two_pos, div_left_inj' two_ne_zero, div_le_one₀ divisor,
    div_eq_one_iff_eq divisor.ne']
  refine ⟨by exact_mod_cast roundHalfEven_within_half positive, fun tie => ?_⟩
  exact even_roundHalfEven positive (by exact_mod_cast tie)

/-- No multiple of the divisor is nearer, and if another one is as near, the rounded quotient is
even. -/
theorem roundHalfEven_nearest (positive : 0 < den) (k : ℤ) :
    |(roundHalfEven num den : ℤ) * den - num| ≤ |k * den - num| ∧
      (k ≠ roundHalfEven num den →
        |k * den - num| = |(roundHalfEven num den : ℤ) * den - num| →
        roundHalfEven num den % 2 = 0) := by
  have near := @roundHalfEven_within_half num den positive
  by_cases same : k = roundHalfEven num den
  · exact ⟨same ▸ le_rfl, fun other => absurd same other⟩
  · have apart : (den : ℤ) ≤ |k * den - roundHalfEven num den * den| := by
      rw [← sub_mul, abs_mul, Nat.abs_cast]
      exact le_mul_of_one_le_left (Int.natCast_nonneg den)
        (Int.one_le_abs (sub_ne_zero.mpr same))
    have triangle := abs_sub_le (k * den : ℤ) num (roundHalfEven num den * den)
    rw [abs_sub_comm (num : ℤ)] at triangle
    refine ⟨by linarith, fun _ tie => even_roundHalfEven positive ?_⟩
    linarith

end Interlock.Decimal
