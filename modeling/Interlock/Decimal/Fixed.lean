import Interlock.Decimal.Binary

/-!
# Fixed decimal places

A quotient is rounded to the nearest multiple of a power of ten; a quotient halfway between two
goes to the even one. `roundHalfEven` is that rule for whole numbers, and `fixed` writes an exact
binary number with it.
-/

namespace Interlock.Decimal

/-- The whole number nearest to `num / den`, the even one of two that are equally near. -/
def roundHalfEven (num den : Nat) : Nat :=
  let quotient := num / den
  let remainder := num % den
  if 2 * remainder < den then quotient
  else if den < 2 * remainder then quotient + 1
  else if quotient % 2 = 0 then quotient
  else quotient + 1

/-- A number of at least `width` digits, filled with zeros on the left. -/
def paddedDigits (width n : Nat) : List Char :=
  let digits := Nat.toDigits 10 n
  List.replicate (width - digits.length) '0' ++ digits

/-- `scaled` hundredths, thousandths, … with the point before the last `places` digits. -/
def pointed (places scaled : Nat) : List Char :=
  let whole := Nat.toDigits 10 (scaled / Nat.pow 10 places)
  if places = 0 then whole
  else whole ++ '.' :: paddedDigits places (scaled % Nat.pow 10 places)

/-- A number with exactly `places` digits after the point. The sign of a negative number stays
even if all digits are zero. -/
def fixed (places : Nat) : Number → String
  | .nan => "NaN"
  | .infinite negative => if negative then "-inf" else "inf"
  | .finite negative significand exponent =>
    let scaled := roundHalfEven (numerator significand exponent * Nat.pow 10 places)
      (denominator exponent)
    String.ofList ((if negative then ['-'] else []) ++ pointed places scaled)

/-- The quotient is rounded to the side that the remainder is nearer to, and to the even one if it
is halfway. -/
theorem roundHalfEven_cases (num den : Nat) :
    (roundHalfEven num den = num / den ∧ 2 * (num % den) ≤ den ∨
      roundHalfEven num den = num / den + 1 ∧ den ≤ 2 * (num % den)) ∧
      (2 * (num % den) = den → roundHalfEven num den % 2 = 0) := by
  unfold roundHalfEven
  dsimp only
  split
  · omega
  · split
    · omega
    · split <;> omega

/-- The rounded quotient is within half a unit of the exact one. -/
theorem roundHalfEven_near (num den : Nat) (positive : 0 < den) :
    2 * num ≤ 2 * (roundHalfEven num den * den) + den ∧
      2 * (roundHalfEven num den * den) ≤ 2 * num + den := by
  have division := Nat.div_add_mod' num den
  have small := Nat.mod_lt num positive
  rcases (roundHalfEven_cases num den).1 with ⟨down, near⟩ | ⟨up, near⟩
  · rw [down]
    omega
  · rw [up, Nat.add_one_mul (num / den) den]
    omega

/-- A multiple of the divisor is not rounded. -/
theorem roundHalfEven_mul (n den : Nat) (positive : 0 < den) :
    roundHalfEven (n * den) den = n := by
  simp [roundHalfEven, Nat.mul_div_cancel n positive, positive]

example : fixed 0 (.finite false 5 (-1)) = "2" ∧ fixed 0 (.finite true 3 (-1)) = "-2" := by cbv

example : fixed 2 (.finite true 0 0) = "-0.00" ∧ fixed 2 (.finite false 1 0) = "1.00" := by cbv

end Interlock.Decimal
