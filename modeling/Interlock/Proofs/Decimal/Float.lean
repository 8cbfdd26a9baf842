import Interlock.Proofs.Decimal
import Mathlib

/-!
# 64-bit floats as numbers

A float is unpacked into a sign, a significand and an exponent before anything is done with it, and
the result is packed again. What a float unpacks into is what its bit pattern reads as
(`ofFloat_eq`), and a significand of all bits is not changed by packing (`Normal.unpack_pack`).

The exponent of a float is the least one at which the significand is short enough, so that of two
floats the one with the smaller exponent is the smaller one. Therefore floats that denote positive
numbers are in the order of these (`float_le_iff`).
-/

namespace Interlock.Decimal

open Float.Model (UnpackedFloat)
open Float.Model.UnpackedFloat

/-! ## Unpacking -/

/-- Whether a sign is that of negative numbers. -/
def isNegative : Sign → Bool
  | .negative => true
  | .positive => false

/-- The number that an unpacked float denotes. -/
def Number.ofUnpacked : UnpackedFloat → Number
  | .notANumber => .nan
  | .infinity sign => .infinite (isNegative sign)
  | .zero sign => .finite (isNegative sign) 0 (-1074)
  | .finite sign significand exponent _ => .finite (isNegative sign) significand exponent

theorem isNegative_ofBitVec (bit : BitVec 1) : isNegative (Sign.ofBitVec bit) = bit.getLsbD 0 := by
  revert bit
  decide

theorem read_binary64 (bits : Nat) :
    binary64.read bits =
      if bits / 2 ^ 52 % 2 ^ 11 = 2 ^ 11 - 1 then
        if bits % 2 ^ 52 = 0 then .infinite (bits.testBit 63) else .nan
      else if bits / 2 ^ 52 % 2 ^ 11 = 0 then .finite (bits.testBit 63) (bits % 2 ^ 52) (-1074)
      else .finite (bits.testBit 63) (2 ^ 52 + bits % 2 ^ 52)
        (-1074 + (bits / 2 ^ 52 % 2 ^ 11 - 1 : Nat)) := by
  rw [← Nat.shiftRight_eq_div_pow]
  rfl

theorem ofFloat_eq (x : Float) : ofFloat x = .ofUnpacked x.toModel.unpack := by
  obtain ⟨⟨⟨bits⟩, valid⟩⟩ := x
  change binary64.read bits.toNat = .ofUnpacked (unpack Float.Model.Format.binary64 bits)
  have fraction : bits.toNat % 2 ^ 52 = (@unpackMantissa .binary64 bits).toNat := by
    rw [unpackMantissa_def, BitVec.extractLsb'_toNat]
    rfl
  have field : bits.toNat / 2 ^ 52 % 2 ^ 11 = (@unpackExponent .binary64 bits).toNat := by
    rw [unpackExponent_def, BitVec.extractLsb'_toNat, Nat.shiftRight_eq_div_pow]
  have sign : bits.toNat.testBit 63 =
      isNegative (Sign.ofBitVec (@unpackSign .binary64 bits)) := by
    rw [unpackSign_def, isNegative_ofBitVec, BitVec.getLsbD_extractLsb']
    rfl
  have special : @unpackExponent .binary64 bits = -1 ↔
      (@unpackExponent .binary64 bits).toNat = 2 ^ 11 - 1 := BitVec.toNat_inj.symm
  have subnormal : @unpackExponent .binary64 bits = 0 ↔
      (@unpackExponent .binary64 bits).toNat = 0 := BitVec.toNat_inj.symm
  have zero : @unpackMantissa .binary64 bits = 0 ↔
      (@unpackMantissa .binary64 bits).toNat = 0 := BitVec.toNat_inj.symm
  rw [read_binary64, fraction, field, sign]
  fun_cases unpack with
  | case1 _ _ _ _ all_ones empty =>
    rw [if_pos (special.mp all_ones), if_pos (zero.mp empty)]
    rfl
  | case2 _ _ all_ones nonempty =>
    rw [if_pos (special.mp all_ones), if_neg (mt zero.mpr nonempty)]
    rfl
  | case3 _ _ _ _ finite least empty =>
    rw [if_neg (mt special.mpr finite), if_pos (subnormal.mp least), zero.mp empty]
    rfl
  | case4 _ _ exponent _ _ finite least nonempty =>
    have exponent_eq : exponent + 1 = -1074 := by
      simp only [exponent, least]
      rfl
    rw [if_neg (mt special.mpr finite), if_pos (subnormal.mp least), Number.ofUnpacked, exponent_eq]
  | case5 mantissa biased exponent _ _ finite normal =>
    have positive : biased.toNat ≠ 0 := mt subnormal.mpr normal
    have exponent_eq : exponent = -1074 + (biased.toNat - 1 : Nat) := by
      simp only [exponent, Float.Model.Format.exponentBias]
      omega
    have significand : (1#1 ++ mantissa).toNat = 2 ^ 52 + mantissa.toNat := by
      rw [BitVec.toNat_append]
      exact (Nat.shiftLeft_add_eq_or_of_lt mantissa.isLt 1).symm
    rw [if_neg (mt special.mpr finite), if_neg positive, Number.ofUnpacked, exponent_eq,
      significand]

/-- A float that denotes a positive number is unpacked as this number. -/
theorem unpack_of_ofFloat {x : Float} {m : Nat} {e : Int} (x_eq : ofFloat x = .finite false m e)
    (nonzero : 0 < m) : x.toModel.unpack = .finite .positive m e nonzero := by
  rw [ofFloat_eq] at x_eq
  cases unpacked : x.toModel.unpack with
  | notANumber => rw [unpacked] at x_eq; cases x_eq
  | infinity sign => rw [unpacked] at x_eq; cases x_eq
  | zero sign =>
    rw [unpacked] at x_eq
    obtain ⟨-, zero, -⟩ := Number.finite.inj x_eq
    exact absurd zero nonzero.ne
  | finite sign significand exponent _ =>
    rw [unpacked] at x_eq
    obtain ⟨same_sign, rfl, rfl⟩ := Number.finite.inj x_eq
    cases sign with
    | positive => rfl
    | negative => cases same_sign

/-- A positive number is read as a significand and an exponent. -/
theorem finite_of_positive {x : Number} {v : ℚ} (value : x.value? = some v) (positive : 0 < v) :
    ∃ (m : Nat) (e : Int), x = .finite false m e ∧ v = m * 2 ^ e := by
  cases x with
  | nan => cases value
  | infinite negative => cases value
  | finite negative m e =>
    cases negative with
    | false => exact ⟨m, e, rfl, by simpa [Number.value?] using value.symm⟩
    | true =>
      have same : v = -(m * 2 ^ e) := by simpa [Number.value?] using value.symm
      have magnitude : (0 : ℚ) ≤ m * 2 ^ e := by positivity
      linarith

/-! ## Significands -/

/-- A significand and an exponent as floats have them: the exponent is the least one at which the
significand is short enough. -/
structure Canonical (significand : Nat) (exponent : Int) : Prop where
  short : significand < 2 ^ 53
  least : -1074 ≤ exponent
  greatest : exponent ≤ 971
  full_or_least : 2 ^ 52 ≤ significand ∨ exponent = -1074

/-- A significand of all 53 bits, at an exponent that a float can have. -/
structure Normal (significand : Nat) (exponent : Int) : Prop
    extends Canonical significand exponent where
  full : 2 ^ 52 ≤ significand

theorem canonical_of_read {bits m : Nat} {e : Int} {negative : Bool}
    (read : binary64.read bits = .finite negative m e) : Canonical m e := by
  have fraction := Nat.mod_lt bits (Nat.two_pow_pos 52)
  have field := Nat.mod_lt (bits / 2 ^ 52) (Nat.two_pow_pos 11)
  rw [read_binary64] at read
  split at read
  · split at read <;> cases read
  · split at read
    · obtain ⟨-, rfl, rfl⟩ := Number.finite.inj read
      exact ⟨by omega, by omega, by omega, .inr rfl⟩
    · obtain ⟨-, rfl, rfl⟩ := Number.finite.inj read
      exact ⟨by omega, by omega, by omega, .inl (by omega)⟩

variable {m m₁ m₂ : Nat} {e e₁ e₂ : Int}

theorem Normal.positive (normal : Normal m e) : 0 < m :=
  (Nat.two_pow_pos 52).trans_le normal.full

theorem Normal.log2_eq (normal : Normal m e) : m.log2 = 52 :=
  (Nat.log2_eq_iff normal.positive.ne').mpr ⟨normal.full, normal.short⟩

/-- A significand of all bits is packed as it is. -/
theorem Normal.unpack_pack (normal : Normal m e) (sign : Sign) (positive : 0 < m) :
    (Float.Model.pack (.finite sign m e positive)).unpack = .finite sign m e positive := by
  have bits : m.log2 + 1 = 53 := by rw [normal.log2_eq]
  obtain ⟨⟨short, least, greatest, -⟩, full⟩ := normal
  obtain ⟨biased, biased_eq⟩ : ∃ biased, (e + (1023 : Nat) + (52 : Nat)).toNat = biased := ⟨_, rfl⟩
  have packed : UnpackedFloat.pack .binary64 (.finite sign m e positive) =
      packComponents .binary64 sign (BitVec.ofNat 11 biased) (BitVec.ofNat 52 m) := by
    have bias : Float.Model.Format.binary64.exponentBias = 1023 := rfl
    rw [UnpackedFloat.pack]
    dsimp only
    rw [bias, biased_eq, if_neg (by omega)]
    exact if_pos bits
  have biased_toNat : (BitVec.ofNat 11 biased).toNat = biased :=
    Nat.mod_eq_of_lt (by omega)
  have different {field : BitVec 11} (other : field.toNat ≠ biased) :
      BitVec.ofNat 11 biased ≠ field := by
    rintro rfl
    exact other biased_toNat
  have not_ones : BitVec.ofNat 11 biased ≠ -1#11 := different (by change 2047 ≠ biased; omega)
  have not_zero : BitVec.ofNat 11 biased ≠ 0#11 := different (by change 0 ≠ biased; omega)
  have significand : (1#1 ++ BitVec.ofNat 52 m).toNat = m := by
    rw [BitVec.toNat_append]
    refine (Nat.shiftLeft_add_eq_or_of_lt (BitVec.ofNat 52 m).isLt 1).symm.trans ?_
    rw [BitVec.toNat_ofNat]
    omega
  change unpack .binary64 (UnpackedFloat.pack .binary64 (.finite sign m e positive)) = _
  rw [packed, unpack]
  simp only [unpackExponent_packComponents, unpackMantissa_packComponents,
    unpackSign_packComponents, Sign.ofBitVec_toBitVec]
  rw [if_neg not_ones, if_neg not_zero]
  have exponent : (biased : Int) - (1023 + 52 : Nat) = e := by omega
  congr 1
  rw [biased_toNat]
  exact exponent

/-! ## Order -/

/-- What has 53 bits at a power of two has no more of them at a greater one. -/
theorem length_le {exponent : Int} (smaller : e < exponent) :
    (2 : ℚ) ^ 53 * 2 ^ e ≤ 2 ^ 52 * 2 ^ exponent := by
  calc (2 : ℚ) ^ 53 * 2 ^ e = 2 ^ 52 * 2 ^ (e + 1) := by
        rw [zpow_add_one₀ two_ne_zero]
        ring
    _ ≤ 2 ^ 52 * 2 ^ exponent := by
        gcongr
        · exact one_le_two
        · omega

/-- A number is a whole multiple of each smaller power of two. -/
theorem mul_zpow_eq (m : Nat) {exponent : Int} (finer : exponent ≤ e) :
    (m : ℚ) * 2 ^ e = (m * 2 ^ (e - exponent).toNat : Nat) * 2 ^ exponent := by
  obtain ⟨places, rfl⟩ := Int.le.dest finer
  rw [zpow_add₀ two_ne_zero, zpow_natCast, add_sub_cancel_left, Int.toNat_natCast]
  push_cast
  ring

/-- A number is smaller than all that have a significand of all bits at a greater exponent. -/
theorem Canonical.lt_of_exponent_lt (canonical : Canonical m e) {exponent : Int}
    (smaller : e < exponent) : (m : ℚ) * 2 ^ e < 2 ^ 52 * 2 ^ exponent := by
  have short : (m : ℚ) < 2 ^ 53 := by exact_mod_cast canonical.short
  exact (mul_lt_mul_of_pos_right short (zpow_pos two_pos e)).trans_le (length_le smaller)

/-- The number with the smaller exponent is the smaller one. -/
theorem Canonical.lt_of_lt (canonical₁ : Canonical m₁ e₁) (canonical₂ : Canonical m₂ e₂)
    (smaller : e₁ < e₂) : (m₁ : ℚ) * 2 ^ e₁ < m₂ * 2 ^ e₂ := by
  have least := canonical₁.least
  have full : 2 ^ 52 ≤ m₂ := canonical₂.full_or_least.resolve_right (by omega)
  refine (canonical₁.lt_of_exponent_lt smaller).trans_le ?_
  gcongr
  exact_mod_cast full

theorem Canonical.isLE_iff (canonical₁ : Canonical m₁ e₁) (canonical₂ : Canonical m₂ e₂) :
    ((compare e₁ e₂).then (compare m₁ m₂)).isLE ↔ (m₁ : ℚ) * 2 ^ e₁ ≤ m₂ * 2 ^ e₂ := by
  rcases lt_trichotomy e₁ e₂ with smaller | rfl | greater
  · rw [compare_lt_iff_lt.mpr smaller]
    simp [(canonical₁.lt_of_lt canonical₂ smaller).le]
  · rw [compare_eq_iff_eq.mpr rfl, mul_le_mul_iff_left₀ (zpow_pos two_pos e₁), Nat.cast_le]
    exact Nat.isLE_compare
  · rw [compare_gt_iff_gt.mpr greater]
    simp [canonical₂.lt_of_lt canonical₁ greater]

/-- A positive float is at most another one if the numbers are in this order. -/
theorem float_le_iff {x y : Float} {w : ℚ} (x_eq : ofFloat x = .finite false m₁ e₁)
    (nonzero : 0 < m₁) (value : (ofFloat y).value? = some w) (nonnegative : 0 ≤ w) :
    x ≤ y ↔ (m₁ : ℚ) * 2 ^ e₁ ≤ w := by
  have compared : x ≤ y ↔ (x.toModel.unpack.compare y.toModel.unpack).any (·.isLE) = true :=
    decide_eq_true_iff
  have positive : (0 : ℚ) < m₁ * 2 ^ e₁ :=
    mul_pos (Nat.cast_pos.mpr nonzero) (zpow_pos two_pos e₁)
  have y_eq := ofFloat_eq y
  rw [compared, unpack_of_ofFloat x_eq nonzero]
  rw [y_eq] at value
  cases unpacked : y.toModel.unpack with
  | notANumber => rw [unpacked] at value; cases value
  | infinity sign => rw [unpacked] at value; cases value
  | zero sign =>
    have zero : w = 0 := by simpa [unpacked, Number.ofUnpacked, Number.value?] using value.symm
    rw [zero]
    exact iff_of_false Bool.false_ne_true (not_le.mpr positive)
  | finite sign m₂ e₂ nonzero₂ =>
    rw [unpacked] at value y_eq
    have magnitude : (0 : ℚ) < m₂ * 2 ^ e₂ :=
      mul_pos (Nat.cast_pos.mpr nonzero₂) (zpow_pos two_pos e₂)
    cases sign with
    | negative =>
      have negative : w = -(m₂ * 2 ^ e₂) := by
        simpa [Number.ofUnpacked, isNegative, Number.value?] using value.symm
      linarith
    | positive =>
      have same : w = m₂ * 2 ^ e₂ := by
        simpa [Number.ofUnpacked, isNegative, Number.value?] using value.symm
      rw [same]
      exact (canonical_of_read x_eq).isLE_iff (canonical_of_read y_eq)

/-- Between a number with a significand of all bits and the one before it there are no floats. -/
theorem Canonical.le_pred (canonical : Canonical m e) {k : Nat} {exponent : Int}
    (full : 2 ^ 52 < k) (less : (m : ℚ) * 2 ^ e < k * 2 ^ exponent) :
    (m : ℚ) * 2 ^ e ≤ (k - 1 : Nat) * 2 ^ exponent := by
  rcases lt_or_ge e exponent with fine | coarse
  · refine (canonical.lt_of_exponent_lt fine).le.trans ?_
    gcongr
    exact_mod_cast (by omega : 2 ^ 52 ≤ k - 1)
  · rw [mul_zpow_eq m coarse, mul_lt_mul_iff_left₀ (zpow_pos two_pos exponent),
      Nat.cast_lt] at less
    rw [mul_zpow_eq m coarse, mul_le_mul_iff_left₀ (zpow_pos two_pos exponent), Nat.cast_le]
    omega

end Interlock.Decimal
