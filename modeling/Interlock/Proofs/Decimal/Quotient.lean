import Interlock.Proofs.Decimal.Float

/-!
# Products and quotients of 64-bit floats

The quotient of two significands is cut off after more bits than a float has, and of what is cut off
it is only kept whether it is at least one half of the last bit, and whether it is anything else
than nothing or one half (`Keeps`). That is enough for rounding, which takes the multiple of a power
of two that is nearest to the quotient (`ofFloat_div`). A product is cut off and rounded in the same
way (`ofFloat_mul`). Rounding does not pass a number with a significand that is short enough
(`Rounds.le`, `Rounds.ge`), and what it changes is small against the number (`NearestTo.close`).
Such errors add up when numbers are multiplied or divided (`Close.mul`, `Close.div`).
-/

namespace Interlock.Decimal

open Float.Model (UnpackedFloat)
open Float.Model.UnpackedFloat

/-! ## Cutting off -/

/-- What is kept of a quotient when it is cut off: its whole part, whether the rest is at least one
half, and whether the rest is neither nothing nor one half. -/
structure Keeps (kept : ExtendedMantissa) (num den : Nat) : Prop where
  whole : kept.mantissa = num / den
  half : kept.roundBit = true ↔ den ≤ 2 * (num % den)
  uneven : kept.stickyBit = true ↔ num % den ≠ 0 ∧ 2 * (num % den) ≠ den

variable {kept : ExtendedMantissa} {num den : Nat}

theorem keeps_ofFraction (positive : 0 < den) :
    Keeps (.ofMantissaAndAccuracy (num / den) (accuracyOfFraction (num % den) den)) num den := by
  unfold accuracyOfFraction
  split
  next exact =>
    refine ⟨rfl, ?_, ?_⟩
    · simp [ExtendedMantissa.ofMantissaAndAccuracy, exact, positive.ne']
    · simp [ExtendedMantissa.ofMantissaAndAccuracy, exact]
  next inexact =>
    cases order : compare (2 * (num % den)) den with
    | lt =>
      rw [Nat.compare_eq_lt] at order
      refine ⟨rfl, ?_, ?_⟩ <;> simp [ExtendedMantissa.ofMantissaAndAccuracy] <;> omega
    | eq =>
      rw [Nat.compare_eq_eq] at order
      refine ⟨rfl, ?_, ?_⟩ <;> simp [ExtendedMantissa.ofMantissaAndAccuracy] <;> omega
    | gt =>
      rw [Nat.compare_eq_gt] at order
      refine ⟨rfl, ?_, ?_⟩ <;> simp [ExtendedMantissa.ofMantissaAndAccuracy] <;> omega

theorem keeps_exact (n : Nat) : Keeps (.ofMantissaAndAccuracy n .exact) n 1 := by
  refine ⟨(Nat.div_one n).symm, ?_, ?_⟩ <;>
    simp [ExtendedMantissa.ofMantissaAndAccuracy, Nat.mod_one]

/-- A shift halves the quotient. -/
theorem Keeps.shiftRightOne (keeps : Keeps kept num den) (positive : 0 < den) :
    Keeps kept.shiftRightOne num (den * 2) := by
  have rest : num % (den * 2) = num % den + den * (num / den % 2) := Nat.mod_mul
  have small := Nat.mod_lt num positive
  have bit : num / den % 2 = 0 ∨ num / den % 2 = 1 := by omega
  refine ⟨?_, ?_, ?_⟩
  · rw [← Nat.div_div_eq_div_mul, ← keeps.whole]
    rfl
  · rw [rest, ExtendedMantissa.shiftRightOne, keeps.whole, bne_iff_ne]
    rcases bit with bit | bit <;> rw [bit] <;> omega
  · rw [rest, ExtendedMantissa.shiftRightOne, Bool.or_eq_true, keeps.half, keeps.uneven]
    rcases bit with bit | bit <;> rw [bit] <;> omega

theorem Keeps.shiftRight (keeps : Keeps kept num den) (positive : 0 < den) (places : Nat) :
    Keeps (kept >>> places) num (den * 2 ^ places) := by
  change Keeps (places.repeat ExtendedMantissa.shiftRightOne kept) num (den * 2 ^ places)
  induction places with
  | zero => rwa [Nat.pow_zero, Nat.mul_one]
  | succ places ih =>
    rw [Nat.pow_succ, ← Nat.mul_assoc]
    exact ih.shiftRightOne (Nat.mul_pos positive (Nat.two_pow_pos places))

/-- What is kept is enough for rounding. -/
theorem Keeps.roundedMantissa (keeps : Keeps kept num den) :
    kept.roundedMantissa = roundHalfEven num den := by
  obtain ⟨mantissa, half, uneven⟩ := kept
  obtain ⟨whole, half_iff, uneven_iff⟩ := keeps
  dsimp only at whole half_iff uneven_iff
  unfold roundHalfEven
  cases half <;> cases uneven <;>
    simp only [ExtendedMantissa.roundedMantissa, ExtendedMantissa.accuracy,
      Accuracy.roundToNearestEven, reduceCtorEq, false_iff, true_iff] at half_iff uneven_iff ⊢ <;>
    split_ifs <;> omega

/-- The exponent at which a number has 53 bits, if there is one. -/
theorem targetExponent_binary64 (total : Int) :
    Float.Model.Format.binary64.targetExponent total = max (total - 53) (-1074) := rfl

variable {m : Nat} {e : Int} {accuracy : Accuracy}

/-- A significand of at least 53 bits loses those that are too many. -/
theorem shiftToTargetExponent_eq (long : 2 ^ 52 ≤ m) (least : -1074 ≤ e) :
    shiftToTargetExponent .binary64 m e accuracy =
      (ExtendedMantissa.ofMantissaAndAccuracy m accuracy >>> (m.log2 - 52),
        e + (m.log2 - 52 : Nat)) := by
  have bits : 52 ≤ m.log2 := (Nat.le_log2 (by omega)).mpr long
  have spare :
      (Float.Model.Format.binary64.targetExponent (Float.Model.totalExponent m e) - e).toNat =
        m.log2 - 52 := by
    rw [targetExponent_binary64, Float.Model.totalExponent]
    omega
  rw [shiftToTargetExponent, shiftToExponent, spare]

/-! ## Rounding -/

/-- The multiple of a power of two that is nearest to a number of 53 bits at this power. -/
structure Rounds (q : ℚ) (n : Nat) (exponent : Int) : Prop where
  reached : 2 ^ 52 * 2 ^ exponent ≤ q
  limited : q < 2 ^ 53 * 2 ^ exponent
  near : |n * 2 ^ exponent - q| ≤ 2 ^ exponent / 2

namespace Rounds

variable {q : ℚ} {n k : Nat} {exponent j : Int}

/-- What has 53 bits at a power of two has no more of them at a smaller one. -/
theorem le_of_length (shorter : (2 : ℚ) ^ 52 * 2 ^ exponent < 2 ^ 53 * 2 ^ j) : exponent ≤ j := by
  rw [← zpow_natCast, ← zpow_natCast, ← zpow_add₀ two_ne_zero, ← zpow_add₀ two_ne_zero,
    zpow_lt_zpow_iff_right₀ one_lt_two] at shorter
  push_cast at shorter
  omega

/-- A rounded number is not beyond a multiple of the power of two. -/
theorem le_multiple (rounds : Rounds q n exponent) (limited : q ≤ k * 2 ^ exponent) : n ≤ k := by
  have unit : (0 : ℚ) < 2 ^ exponent := zpow_pos two_pos exponent
  have near := (abs_le.mp rounds.near).2
  have below : (n : ℚ) * 2 ^ exponent < (k + 1 : Nat) * 2 ^ exponent := by
    push_cast
    linarith
  rw [mul_lt_mul_iff_left₀ unit, Nat.cast_lt] at below
  omega

theorem multiple_le (rounds : Rounds q n exponent) (reached : k * 2 ^ exponent ≤ q) : k ≤ n := by
  have unit : (0 : ℚ) < 2 ^ exponent := zpow_pos two_pos exponent
  have near := (abs_le.mp rounds.near).1
  have above : (k : ℚ) * 2 ^ exponent < (n + 1 : Nat) * 2 ^ exponent := by
    push_cast
    linarith
  rw [mul_lt_mul_iff_left₀ unit, Nat.cast_lt] at above
  omega

theorem exponent_le (rounds : Rounds q n exponent) (limited : q < 2 ^ 53 * 2 ^ j) :
    exponent ≤ j :=
  le_of_length (rounds.reached.trans_lt limited)

theorem le_exponent (rounds : Rounds q n exponent) (reached : 2 ^ 52 * 2 ^ j ≤ q) :
    j ≤ exponent :=
  le_of_length (reached.trans_lt rounds.limited)

/-- A rounded number is not beyond a number that has a significand of 53 bits. -/
theorem le (rounds : Rounds q n exponent) (short : k < 2 ^ 53) (limited : q ≤ k * 2 ^ j) :
    (n : ℚ) * 2 ^ exponent ≤ k * 2 ^ j := by
  have fine : exponent ≤ j := rounds.exponent_le <| limited.trans_lt <|
    mul_lt_mul_of_pos_right (by exact_mod_cast short) (zpow_pos two_pos j)
  rw [mul_zpow_eq k fine] at limited ⊢
  gcongr
  exact rounds.le_multiple limited

theorem ge (rounds : Rounds q n exponent) (short : k < 2 ^ 53) (reached : k * 2 ^ j ≤ q) :
    (k : ℚ) * 2 ^ j ≤ n * 2 ^ exponent := by
  rcases le_or_gt exponent j with fine | coarse
  · rw [mul_zpow_eq k fine] at reached ⊢
    gcongr
    exact rounds.multiple_le reached
  · -- the rounded number has all of its bits at a greater power of two
    have full : 2 ^ 52 ≤ n := rounds.multiple_le (by exact_mod_cast rounds.reached)
    calc (k : ℚ) * 2 ^ j ≤ 2 ^ 53 * 2 ^ j := by
          gcongr
          exact_mod_cast short.le
      _ ≤ 2 ^ 52 * 2 ^ exponent := length_le coarse
      _ ≤ n * 2 ^ exponent := by
          gcongr
          exact_mod_cast full

end Rounds

theorem rounds_roundHalfEven (positive : 0 < den) (reached : 2 ^ 52 * den ≤ num)
    (limited : num < 2 ^ 53 * den) (exponent : Int) :
    Rounds (num / den * 2 ^ exponent) (roundHalfEven num den) exponent := by
  have unit : (0 : ℚ) < 2 ^ exponent := zpow_pos two_pos exponent
  have divisor : (0 : ℚ) < den := Nat.cast_pos.mpr positive
  refine ⟨?_, ?_, ?_⟩
  · rw [mul_le_mul_iff_left₀ unit, le_div_iff₀ divisor]
    exact_mod_cast reached
  · rw [mul_lt_mul_iff_left₀ unit, div_lt_iff₀ divisor]
    exact_mod_cast limited
  · have near := (@roundHalfEven_near_div num den positive).1
    have scaled := mul_le_mul_of_nonneg_right near unit.le
    rw [← sub_mul, abs_mul, abs_of_pos unit]
    linarith

/-- A rounded significand that has a bit too many is a power of two, and loses nothing when it is
shifted. -/
theorem normal_of_rounded {n : Nat} (lower : 2 ^ 52 ≤ n) (upper : n ≤ 2 ^ 53) (least : -1074 ≤ e)
    (greatest : e ≤ 970) :
    ∃ kept exponent, shiftToTargetExponent .binary64 n e .exact = (kept, exponent) ∧
      Normal kept.mantissa exponent ∧ (kept.mantissa : ℚ) * 2 ^ exponent = n * 2 ^ e := by
  refine ⟨_, _, shiftToTargetExponent_eq lower least, ?_⟩
  rw [((keeps_exact n).shiftRight Nat.one_pos (n.log2 - 52)).whole, Nat.one_mul]
  rcases upper.lt_or_eq with short | rfl
  · have bits : n.log2 = 52 := (Nat.log2_eq_iff (by omega)).mpr ⟨lower, short⟩
    rw [bits, Nat.sub_self, pow_zero, Nat.div_one, Nat.cast_zero, add_zero]
    exact ⟨⟨⟨short, least, by omega, .inl lower⟩, lower⟩, rfl⟩
  · have half : 2 ^ 53 / 2 ^ (53 - 52) = 2 ^ 52 := by decide
    rw [Nat.log2_two_pow, half]
    refine ⟨⟨⟨by decide, by omega, by omega, .inl le_rfl⟩, le_rfl⟩, ?_⟩
    rw [Nat.cast_one, zpow_add_one₀ two_ne_zero]
    push_cast
    ring

/-- The quotient has 53 bits if the spare ones are cut off. -/
theorem length_of_quotient (positive : 0 < den) (long : 2 ^ 52 ≤ num / den) :
    2 ^ 52 * (den * 2 ^ ((num / den).log2 - 52)) ≤ num ∧
      num < 2 ^ 53 * (den * 2 ^ ((num / den).log2 - 52)) := by
  obtain ⟨upper, full⟩ := length_of_spare 52 (num / den)
  generalize (num / den).log2 - 52 = places at upper full ⊢
  have reached : 2 ^ 52 * 2 ^ places ≤ num / den := by
    rcases full with rfl | full
    · exact long
    · exact full
  rw [Nat.le_div_iff_mul_le positive, mul_right_comm, mul_assoc] at reached
  rw [Nat.div_lt_iff_lt_mul positive, mul_right_comm, mul_assoc] at upper
  exact ⟨reached, upper⟩

/-- A quotient of at least 53 bits is rounded to as many. -/
theorem rounds_roundWithAccuracy (positive : 0 < den) (long : 2 ^ 52 ≤ num / den)
    (keeps : Keeps (.ofMantissaAndAccuracy (num / den) accuracy) num den) (least : -1074 ≤ e)
    (greatest : e + ((num / den).log2 - 52 : Nat) ≤ 970) (sign : Sign) :
    ∃ (m : Nat) (e' : Int) (nonzero : 0 < m) (n : Nat) (exponent : Int),
      roundWithAccuracy .binary64 sign (num / den) e accuracy = .finite sign m e' nonzero ∧
        Normal m e' ∧ (m : ℚ) * 2 ^ e' = n * 2 ^ exponent ∧
        Rounds ((num : ℚ) / den * 2 ^ e) n exponent := by
  have shift := @shiftToTargetExponent_eq _ _ accuracy long least
  obtain ⟨reached, limited⟩ := length_of_quotient positive long
  generalize (num / den).log2 - 52 = places at shift greatest reached limited
  have divisor : 0 < den * 2 ^ places := Nat.mul_pos positive (Nat.two_pow_pos places)
  have rounded := (keeps.shiftRight positive places).roundedMantissa
  have lower := le_roundHalfEven divisor reached
  have upper := roundHalfEven_le divisor limited.le
  have rounds := rounds_roundHalfEven divisor reached limited (e + places)
  generalize roundHalfEven num (den * 2 ^ places) = n at rounded lower upper rounds
  obtain ⟨kept, exponent, last_shift, normal, same⟩ :=
    normal_of_rounded lower upper (by omega : -1074 ≤ e + places) greatest
  refine ⟨kept.mantissa, exponent, normal.positive, n, e + places, ?_, normal, same, ?_⟩
  · rw [roundWithAccuracy, shift]
    dsimp only
    rw [rounded, last_shift]
    exact dif_neg normal.positive.ne'
  · have cut : (num : ℚ) / (den * 2 ^ places : Nat) * 2 ^ (e + places) = num / den * 2 ^ e := by
      rw [zpow_add₀ two_ne_zero, zpow_natCast]
      push_cast
      field_simp
    rwa [cut] at rounds

/-- The significand and the exponent of the float that is nearest to a number. -/
def NearestTo (q : ℚ) (significand : Nat) (exponent : Int) : Prop :=
  Normal significand exponent ∧
    ∃ (n : Nat) (j : Int), (significand : ℚ) * 2 ^ exponent = n * 2 ^ j ∧ Rounds q n j

/-- A number with a significand of all bits is the nearest one to itself. -/
theorem Normal.nearestTo (normal : Normal m e) : NearestTo (m * 2 ^ e) m e := by
  have unit : (0 : ℚ) < 2 ^ e := zpow_pos two_pos e
  refine ⟨normal, m, e, rfl, ?_, ?_, ?_⟩
  · gcongr
    exact_mod_cast normal.full
  · gcongr
    exact_mod_cast normal.short
  · rw [sub_self, abs_zero]
    positivity

/-- A float with a significand of all bits denotes what it was packed from. -/
theorem ofFloat_pack (normal : Normal m e) (sign : Sign) (positive : 0 < m) :
    ofFloat (.ofModel (.pack (.finite sign m e positive))) = .finite (isNegative sign) m e := by
  rw [ofFloat_eq]
  exact congrArg Number.ofUnpacked (normal.unpack_pack sign positive)

/-- A significand of at least 53 bits is rounded to as many. -/
theorem roundWithAccuracy_exact (long : 2 ^ 52 ≤ m) (least : -1074 ≤ e)
    (greatest : e + (m.log2 - 52 : Nat) ≤ 970) (sign : Sign) :
    ∃ (m' : Nat) (e' : Int) (nonzero : 0 < m'),
      roundWithAccuracy .binary64 sign m e .exact = .finite sign m' e' nonzero ∧
        NearestTo (m * 2 ^ e) m' e' := by
  have rounded := @rounds_roundWithAccuracy m 1 e .exact Nat.one_pos
  simp only [Nat.div_one, Nat.cast_one, div_one] at rounded
  obtain ⟨m', e', nonzero, n, j, done, normal, same, rounds⟩ :=
    rounded long (keeps_exact m) least greatest sign
  exact ⟨m', e', nonzero, done, normal, n, j, same, rounds⟩

/-! ## Rounding errors -/

/-- The multiples of a power of two that have 53 bits are this close to each other. -/
def ulp : ℚ :=
  1 / 2 ^ 52

/-- The numbers are as close as so many roundings leave them. -/
structure Close (roundings : Nat) (x y : ℚ) : Prop where
  positive : 0 < x
  le : x ≤ (1 + ulp) ^ roundings * y
  ge : y ≤ (1 + ulp) ^ roundings * x

namespace Close

variable {j k : Nat} {x y z w : ℚ}

theorem one_le_pow : 1 ≤ (1 + ulp) ^ k :=
  one_le_pow₀ (by norm_num [ulp])

theorem positive' (close : Close k x y) : 0 < y := by
  have := close.positive.trans_le close.le
  exact pos_of_mul_pos_right this (zero_le_one.trans one_le_pow)

theorem refl (positive : 0 < x) : Close k x x :=
  have more := le_mul_of_one_le_left positive.le one_le_pow
  ⟨positive, more, more⟩

theorem trans (close : Close j x y) (close' : Close k y z) : Close (j + k) x z := by
  have lower : 0 ≤ (1 + ulp) ^ j := zero_le_one.trans one_le_pow
  have lower' : 0 ≤ (1 + ulp) ^ k := zero_le_one.trans one_le_pow
  refine ⟨close.positive, ?_, ?_⟩
  · calc x ≤ (1 + ulp) ^ j * y := close.le
      _ ≤ (1 + ulp) ^ j * ((1 + ulp) ^ k * z) := mul_le_mul_of_nonneg_left close'.le lower
      _ = (1 + ulp) ^ (j + k) * z := by ring
  · calc z ≤ (1 + ulp) ^ k * y := close'.ge
      _ ≤ (1 + ulp) ^ k * ((1 + ulp) ^ j * x) := mul_le_mul_of_nonneg_left close.ge lower'
      _ = (1 + ulp) ^ (j + k) * x := by ring

theorem mul (close : Close j x y) (close' : Close k z w) : Close (j + k) (x * z) (y * w) := by
  refine ⟨mul_pos close.positive close'.positive, ?_, ?_⟩
  · calc x * z ≤ (1 + ulp) ^ j * y * ((1 + ulp) ^ k * w) :=
        mul_le_mul close.le close'.le close'.positive.le (close.positive.le.trans close.le)
      _ = (1 + ulp) ^ (j + k) * (y * w) := by ring
  · calc y * w ≤ (1 + ulp) ^ j * x * ((1 + ulp) ^ k * z) :=
        mul_le_mul close.ge close'.ge close'.positive'.le (close.positive'.le.trans close.ge)
      _ = (1 + ulp) ^ (j + k) * (x * z) := by ring

theorem inv (close : Close k x y) : Close k x⁻¹ y⁻¹ := by
  have positive := close.positive
  have positive' := close.positive'
  refine ⟨inv_pos.mpr positive, ?_, ?_⟩
  · rw [← div_eq_mul_inv, le_div_iff₀ positive', inv_mul_le_iff₀ positive, mul_comm]
    exact close.ge
  · rw [← div_eq_mul_inv, le_div_iff₀ positive, inv_mul_le_iff₀ positive', mul_comm]
    exact close.le

theorem div (close : Close j x y) (close' : Close k z w) : Close (j + k) (x / z) (y / w) := by
  rw [div_eq_mul_inv, div_eq_mul_inv]
  exact close.mul close'.inv

/-- What four roundings change at most. -/
theorem error (close : Close 4 x y) : |x - y| ≤ y / 2 ^ 49 := by
  have positive := close.positive'
  have upper : (1 + ulp) ^ 4 ≤ 1 + 1 / 2 ^ 49 := by norm_num [ulp]
  have lower : (1 - 1 / 2 ^ 49) * (1 + ulp) ^ 4 ≤ 1 := by norm_num [ulp]
  have above : x ≤ (1 + 1 / 2 ^ 49) * y :=
    close.le.trans (mul_le_mul_of_nonneg_right upper positive.le)
  have below : (1 - 1 / 2 ^ 49) * y ≤ x :=
    calc (1 - 1 / 2 ^ 49) * y ≤ (1 - 1 / 2 ^ 49) * ((1 + ulp) ^ 4 * x) :=
          mul_le_mul_of_nonneg_left close.ge (by norm_num)
      _ = (1 - 1 / 2 ^ 49) * (1 + ulp) ^ 4 * x := by ring
      _ ≤ 1 * x := mul_le_mul_of_nonneg_right lower close.positive.le
      _ = x := one_mul x
  rw [abs_le]
  constructor <;> linarith

end Close

/-- The nearest float is off by half of the last of its bits at most. -/
theorem NearestTo.close {q : ℚ} (nearest : NearestTo q m e) : Close 1 (m * 2 ^ e) q := by
  obtain ⟨normal, n, j, same, rounds⟩ := nearest
  have unit : (0 : ℚ) < 2 ^ j := zpow_pos two_pos j
  have full : (2 : ℚ) ^ 52 * 2 ^ j ≤ n * 2 ^ j := by
    gcongr
    exact_mod_cast rounds.multiple_le (by exact_mod_cast rounds.reached)
  have reached := rounds.reached
  obtain ⟨above, below⟩ := abs_le.mp rounds.near
  refine ⟨mul_pos (Nat.cast_pos.mpr normal.positive) (zpow_pos two_pos e), ?_, ?_⟩ <;>
    rw [same, ulp] <;> linarith

/-- The exponent of the nearest float follows from the size of the number. -/
theorem NearestTo.exponent {q : ℚ} {low high : Int} (nearest : NearestTo q m e)
    (lower : 2 ^ low ≤ q) (upper : q < 2 ^ high) : low < e + 54 ∧ e + 51 < high := by
  have normal := nearest.1
  have unit : (0 : ℚ) < 2 ^ e := zpow_pos two_pos e
  have twice : (1 + ulp) ^ 1 ≤ 2 := by norm_num [ulp]
  have positive : 0 < q := (zpow_pos two_pos low).trans_le lower
  have short : (m : ℚ) < 2 ^ 53 := by exact_mod_cast normal.short
  have full : (2 : ℚ) ^ 52 ≤ m := by exact_mod_cast normal.full
  constructor
  · rw [← zpow_lt_zpow_iff_right₀ (one_lt_two (α := ℚ)), zpow_add₀ two_ne_zero]
    calc (2 : ℚ) ^ low ≤ q := lower
      _ ≤ (1 + ulp) ^ 1 * (m * 2 ^ e) := nearest.close.ge
      _ ≤ 2 * (m * 2 ^ e) := by gcongr
      _ < 2 * (2 ^ 53 * 2 ^ e) := by gcongr
      _ = 2 ^ e * 2 ^ (54 : Int) := by rw [zpow_ofNat]; ring
  · have scaled : (2 : ℚ) ^ (e + 52) < 2 ^ (high + 1) := by
      rw [zpow_add₀ two_ne_zero, zpow_add_one₀ two_ne_zero, zpow_ofNat]
      calc (2 : ℚ) ^ e * 2 ^ 52 ≤ m * 2 ^ e := by rw [mul_comm]; gcongr
        _ ≤ (1 + ulp) ^ 1 * q := nearest.close.le
        _ ≤ 2 * q := by gcongr
        _ < 2 * 2 ^ high := by gcongr
        _ = 2 ^ high * 2 := mul_comm ..
    rw [zpow_lt_zpow_iff_right₀ one_lt_two] at scaled
    omega

/-! ## Multiplication and division -/

variable {m₁ m₂ : Nat} {e₁ e₂ : Int} {x y : Float}

/-- The product of two floats is the nearest one to the product of their numbers. -/
theorem ofFloat_mul (x_eq : ofFloat x = .finite false m₁ e₁)
    (y_eq : ofFloat y = .finite false m₂ e₂) (normal₁ : Normal m₁ e₁) (normal₂ : Normal m₂ e₂)
    (least : -1074 ≤ e₁ + e₂) (greatest : e₁ + e₂ ≤ 917) :
    ∃ m e, ofFloat (x * y) = .finite false m e ∧
      NearestTo ((m₁ : ℚ) * 2 ^ e₁ * (m₂ * 2 ^ e₂)) m e := by
  have long : 2 ^ 52 ≤ m₁ * m₂ := normal₁.full.trans (Nat.le_mul_of_pos_right m₁ normal₂.positive)
  have bits : (m₁ * m₂).log2 < 53 + 53 := by
    rw [Nat.log2_lt (by omega), Nat.pow_add]
    exact Nat.mul_lt_mul'' normal₁.short normal₂.short
  obtain ⟨m, e, nonzero, rounded, nearest⟩ :=
    roundWithAccuracy_exact long least (by omega) .positive
  refine ⟨m, e, ?_, ?_⟩
  · have packed : x * y = .ofModel (.pack (.finite .positive m e nonzero)) := by
      change Float.ofModel (.pack (.mul .binary64 x.toModel.unpack y.toModel.unpack)) = _
      rw [unpack_of_ofFloat x_eq normal₁.positive, unpack_of_ofFloat y_eq normal₂.positive,
        UnpackedFloat.mul, ← rounded]
      rfl
    rw [packed, ofFloat_pack nearest.1]
    rfl
  · have product : ((m₁ * m₂ : Nat) : ℚ) * 2 ^ (e₁ + e₂) = m₁ * 2 ^ e₁ * (m₂ * 2 ^ e₂) := by
      rw [zpow_add₀ two_ne_zero]
      push_cast
      ring
    rwa [product] at nearest

/-- The quotient of two floats is the nearest one to the quotient of their numbers. -/
theorem ofFloat_div (x_eq : ofFloat x = .finite false m₁ e₁)
    (y_eq : ofFloat y = .finite false m₂ e₂) (normal₁ : Normal m₁ e₁) (normal₂ : Normal m₂ e₂)
    (least : -1021 ≤ e₁ - e₂) (greatest : e₁ - e₂ ≤ 1022) :
    ∃ m e, ofFloat (x / y) = .finite false m e ∧
      NearestTo ((m₁ : ℚ) * 2 ^ e₁ / (m₂ * 2 ^ e₂)) m e := by
  have positive₂ : 0 < m₂ := normal₂.positive
  obtain ⟨num, num_eq⟩ : ∃ num, m₁ * 2 ^ 53 = num := ⟨_, rfl⟩
  have core : divCore .binary64 m₁ e₁ m₂ e₂ =
      (num / m₂, e₁ - e₂ - 53, accuracyOfFraction (num % m₂) m₂) := by
    have target : min (e₁ - e₂) (Float.Model.Format.binary64.targetExponent
        (Float.Model.totalExponent m₁ e₁ - Float.Model.totalExponent m₂ e₂)) = e₁ - e₂ - 53 := by
      rw [targetExponent_binary64, Float.Model.totalExponent, Float.Model.totalExponent,
        normal₁.log2_eq, normal₂.log2_eq]
      omega
    have places : (e₁ - e₂ - (e₁ - e₂ - 53)).toNat = 53 := by omega
    rw [divCore, target, places, Nat.shiftLeft_eq, num_eq]
  obtain ⟨long, short⟩ : 2 ^ 52 ≤ num / m₂ ∧ num / m₂ < 2 ^ 54 := by
    have := normal₁.full
    have := normal₁.short
    have := normal₂.full
    have := normal₂.short
    rw [Nat.le_div_iff_mul_le positive₂, Nat.div_lt_iff_lt_mul positive₂]
    omega
  have bits : (num / m₂).log2 < 54 := (Nat.log2_lt (by omega)).mpr short
  obtain ⟨m, e, nonzero, n, j, rounded, normal, same, rounds⟩ :=
    rounds_roundWithAccuracy positive₂ long (keeps_ofFraction positive₂)
      (by omega : -1074 ≤ e₁ - e₂ - 53) (by omega) .positive
  refine ⟨m, e, ?_, normal, n, j, same, ?_⟩
  · have packed : x / y = .ofModel (.pack (.finite .positive m e nonzero)) := by
      change Float.ofModel (.pack (.div .binary64 x.toModel.unpack y.toModel.unpack)) = _
      rw [unpack_of_ofFloat x_eq normal₁.positive, unpack_of_ofFloat y_eq positive₂,
        UnpackedFloat.div, core, ← rounded]
      rfl
    rw [packed, ofFloat_pack normal]
    rfl
  · have quotient : (num : ℚ) / m₂ * 2 ^ (e₁ - e₂ - 53) = m₁ * 2 ^ e₁ / (m₂ * 2 ^ e₂) := by
      rw [← num_eq, zpow_sub₀ two_ne_zero, zpow_sub₀ two_ne_zero]
      push_cast
      field_simp
    rwa [quotient] at rounds

/-- A float can be divided by a smaller one that is not too small. -/
theorem value?_div_of_le {v : ℚ} (value : (ofFloat x).value? = some v)
    (divisor : ofFloat y = .finite false m₂ e₂) (normal : Normal m₂ e₂) (least : -51 ≤ e₂)
    (reached : (m₂ : ℚ) * 2 ^ e₂ ≤ v) :
    ∃ (n : Nat) (exponent : Int), (ofFloat (x / y)).value? = some ((n : ℚ) * 2 ^ exponent) ∧
      Rounds (v / (m₂ * 2 ^ e₂)) n exponent := by
  have positive : (0 : ℚ) < m₂ * 2 ^ e₂ :=
    mul_pos (Nat.cast_pos.mpr normal.positive) (zpow_pos two_pos e₂)
  obtain ⟨m₁, e₁, dividend, rfl⟩ := finite_of_positive value (positive.trans_le reached)
  have canonical := canonical_of_read dividend
  have greater : e₂ ≤ e₁ := by
    by_contra smaller
    have less := canonical.lt_of_lt normal.toCanonical (by omega)
    linarith
  have full : 2 ^ 52 ≤ m₁ := canonical.full_or_least.resolve_right (by omega)
  have greatest := canonical.greatest
  obtain ⟨m, e, divided, -, n, j, same, rounds⟩ :=
    ofFloat_div dividend divisor ⟨canonical, full⟩ normal (by omega) (by omega)
  refine ⟨n, j, ?_, rounds⟩
  rw [divided, ← same]
  simp [Number.value?]

end Interlock.Decimal
