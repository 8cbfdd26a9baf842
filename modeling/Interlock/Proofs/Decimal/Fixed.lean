import Interlock.Proofs.Decimal
import Mathlib.Algebra.Ring.Int.Parity
import Mathlib.Tactic.Positivity

/-!
# Reading decimal numerals

A numeral is read digit by digit: an optional sign, digits, and an optional point with digits behind
it. What has been written with a fixed number of decimal places reads as a multiple of the last
place, the nearest one to the number that was written (`numeral?_fixed`).
-/

namespace Interlock.Decimal

/-! ## Digits -/

/-- The number that digits denote. -/
def digits? (text : List Char) : Option Nat :=
  if text ≠ [] ∧ text.all Char.isDigit then some (Nat.ofDigitChars 10 text 0) else none

/-- The number that a numeral without a sign denotes. If there is a point, there are digits on both
sides of it. -/
def unsigned? (text : List Char) : Option ℚ :=
  match text.splitOn '.' with
  | [whole] => do
    let n ← digits? whole
    return n
  | [whole, fraction] => do
    let n ← digits? whole
    let f ← digits? fraction
    return n + f / 10 ^ fraction.length
  | _ => none

/-- The number that a numeral denotes. -/
def numeral? : List Char → Option ℚ
  | '-' :: magnitude => (unsigned? magnitude).map (-·)
  | magnitude => unsigned? magnitude

theorem isDigit_toDigits (n : Nat) : ∀ c ∈ Nat.toDigits 10 n, c.isDigit := fun _ member =>
  Nat.isDigit_of_mem_toDigits (by decide) (by decide) member

theorem digits?_toDigits (n : Nat) : digits? (Nat.toDigits 10 n) = some n := by
  rw [digits?, if_pos ⟨Nat.toDigits_ne_nil, List.all_eq_true.mpr (isDigit_toDigits n)⟩,
    Nat.ofDigitChars_ten_toDigits]

theorem isDigit_paddedDigits (width n : Nat) : ∀ c ∈ paddedDigits width n, c.isDigit := by
  intro c member
  rcases List.mem_append.mp member with zero | digit
  · rw [List.eq_of_mem_replicate zero]
    rfl
  · exact isDigit_toDigits n c digit

/-- Zeros on the left do not count. -/
theorem digits?_paddedDigits (width n : Nat) : digits? (paddedDigits width n) = some n := by
  have nonempty : paddedDigits width n ≠ [] :=
    List.append_ne_nil_of_right_ne_nil _ Nat.toDigits_ne_nil
  rw [digits?, if_pos ⟨nonempty, List.all_eq_true.mpr (isDigit_paddedDigits width n)⟩,
    paddedDigits, Nat.ofDigitChars_append, Nat.ofDigitChars_replicate_zero, Nat.mul_zero,
    Nat.ofDigitChars_ten_toDigits]

theorem length_paddedDigits {width n : Nat} (some_digit : 0 < width) (small : n < 10 ^ width) :
    (paddedDigits width n).length = width := by
  have short := (Nat.length_toDigits_le_iff (by decide) some_digit).mpr small
  rw [paddedDigits, List.length_append, List.length_replicate]
  omega

/-! ## Numerals -/

theorem point_not_mem {text : List Char} (digits : ∀ c ∈ text, c.isDigit) : '.' ∉ text :=
  fun member => absurd (digits '.' member) (by decide)

theorem unsigned?_pointed (places scaled : Nat) :
    unsigned? (pointed places scaled) = some ((scaled : ℚ) / 10 ^ places) := by
  have power : Nat.pow 10 places = 10 ^ places := rfl
  have whole := point_not_mem (isDigit_toDigits (scaled / 10 ^ places))
  have fraction := point_not_mem (isDigit_paddedDigits places (scaled % 10 ^ places))
  rw [pointed, power]
  split
  next none_after =>
    rw [unsigned?, List.splitOn_eq_singleton whole]
    simp [digits?_toDigits, none_after]
  next some_after =>
    have length := length_paddedDigits (Nat.pos_of_ne_zero some_after)
      (Nat.mod_lt scaled (by positivity : 0 < 10 ^ places))
    have parts : ((scaled / 10 ^ places : Nat) : ℚ) + (scaled % 10 ^ places : Nat) / 10 ^ places =
        scaled / 10 ^ places := by
      rw [eq_div_iff (by positivity), add_mul, div_mul_cancel₀ _ (by positivity)]
      exact_mod_cast Nat.div_add_mod' scaled (10 ^ places)
    rw [unsigned?, List.splitOn_append_cons_self, List.splitOn_eq_singleton whole,
      List.splitOn_eq_singleton fraction]
    simp [digits?_toDigits, digits?_paddedDigits, length, parts]

theorem numeral?_minus (magnitude : List Char) :
    numeral? ('-' :: magnitude) = (unsigned? magnitude).map (-·) := rfl

theorem numeral?_of_isDigit {c : Char} {rest : List Char} (digit : c.isDigit) :
    numeral? (c :: rest) = unsigned? (c :: rest) := by
  unfold numeral?
  split
  next minus =>
    cases minus
    cases digit
  next => rfl

/-- What is written begins with a digit, and not with a sign. -/
theorem numeral?_pointed (places scaled : Nat) :
    numeral? (pointed places scaled) = some ((scaled : ℚ) / 10 ^ places) := by
  have digits := isDigit_toDigits (scaled / Nat.pow 10 places)
  rw [← unsigned?_pointed]
  unfold pointed
  dsimp only
  cases whole : Nat.toDigits 10 (scaled / Nat.pow 10 places) with
  | nil => exact absurd whole Nat.toDigits_ne_nil
  | cons c rest =>
    rw [whole] at digits
    have digit : c.isDigit := digits c List.mem_cons_self
    split <;> exact numeral?_of_isDigit digit

theorem toList_fixed (places : Nat) (negative : Bool) (significand : Nat) (exponent : Int) :
    (fixed places (.finite negative significand exponent)).toList =
      (if negative then ['-'] else []) ++
        pointed places (roundHalfEven (numerator significand exponent * 10 ^ places)
          (denominator exponent)) :=
  String.toList_ofList

/-- What is written with a number of decimal places denotes a multiple of the last place that is
nearest to the number, the even one of two that are equally near. -/
theorem numeral?_fixed {x : Number} {v : ℚ} (value : x.value? = some v) (places : Nat) :
    ∃ k : ℤ, numeral? (fixed places x).toList = some ((k : ℚ) / 10 ^ places) ∧
      |k - v * 10 ^ places| ≤ 1 / 2 ∧ (|k - v * 10 ^ places| = 1 / 2 → Even k) := by
  cases x with
  | nan => cases value
  | infinite negative => cases value
  | finite negative m e =>
    have rounding := @roundHalfEven_near_div (numerator m e * 10 ^ places) _ (denominator_pos e)
    have scaled : ((numerator m e * 10 ^ places : Nat) : ℚ) / denominator e =
        numerator m e / denominator e * 10 ^ places := by
      push_cast
      exact mul_div_right_comm _ _ _
    rw [scaled] at rounding
    rw [Number.value?, numerator_div_denominator, Option.some.injEq] at value
    rw [toList_fixed]
    generalize roundHalfEven (numerator m e * 10 ^ places) (denominator e) = n at rounding ⊢
    obtain ⟨near, even⟩ := rounding
    cases negative with
    | false =>
      rw [if_neg Bool.false_ne_true, one_mul] at value
      rw [if_neg Bool.false_ne_true, List.nil_append, numeral?_pointed, ← value]
      exact ⟨n, rfl, near, fun tie => (Int.even_coe_nat n).mpr (Nat.even_iff.mpr (even tie))⟩
    | true =>
      have mirrored : |((-n : ℤ) : ℚ) - v * 10 ^ places| =
          |(n : ℚ) - numerator m e / denominator e * 10 ^ places| := by
        rw [← value, ← abs_neg, if_pos rfl]
        congr 1
        push_cast
        ring
      rw [if_pos rfl, List.singleton_append, numeral?_minus, unsigned?_pointed]
      refine ⟨-n, ?_, by rwa [mirrored], fun tie => ?_⟩
      · rw [Option.map_some, Int.cast_neg, Int.cast_natCast, neg_div]
      · rw [mirrored] at tie
        exact ((Int.even_coe_nat n).mpr (Nat.even_iff.mpr (even tie))).neg

/-! ## Characters -/

/-- A digit, or a character of a number that is not finite, of a sign or of a point. -/
def Numeric (c : Char) : Prop :=
  c.isDigit ∨ c ∈ ['-', '.', 'N', 'a', 'i', 'n', 'f']

theorem numeric_pointed (places scaled : Nat) : ∀ c ∈ pointed places scaled, Numeric c := by
  have whole := isDigit_toDigits (scaled / Nat.pow 10 places)
  have fraction := isDigit_paddedDigits places (scaled % Nat.pow 10 places)
  intro c member
  rw [pointed] at member
  split at member
  · exact .inl (whole c member)
  · rcases List.mem_append.mp member with before | point
    · exact .inl (whole c before)
    · rcases List.mem_cons.mp point with rfl | after
      · exact .inr (by decide)
      · exact .inl (fraction c after)

theorem numeric_fixed (places : Nat) (x : Number) :
    ∀ c ∈ (fixed places x).toList, Numeric c := by
  cases x with
  | nan => exact fun c member => .inr ((by decide : "NaN".toList ⊆ _) member)
  | infinite negative =>
    cases negative with
    | true => exact fun c member => .inr ((by decide : "-inf".toList ⊆ _) member)
    | false => exact fun c member => .inr ((by decide : "inf".toList ⊆ _) member)
  | finite negative significand exponent =>
    intro c member
    rw [toList_fixed] at member
    rcases List.mem_append.mp member with sign | number
    · cases negative with
      | true =>
        obtain rfl := List.mem_singleton.mp sign
        exact .inr (by decide)
      | false => cases sign
    · exact numeric_pointed _ _ c number

end Interlock.Decimal
