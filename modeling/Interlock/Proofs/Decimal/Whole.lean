import Interlock.Proofs.Decimal.Quotient

/-!
# Whole numbers and powers of ten as floats

A positive whole number of 64 bits becomes the nearest float, and so does a power of ten
(`ofFloat_toFloat`, `ofFloat_ofScientific`). So a product or a quotient of the two is off by three
roundings (`close_mul`, `close_div`). Multiplying by one changes no whole number, and dividing by a
power of ten does not change zero.
-/

namespace Interlock.Decimal

open Float.Model (UnpackedFloat)
open Float.Model.UnpackedFloat

variable {m n p : Nat} {e : Int} {x : Float}

/-! ## Whole numbers of 64 bits -/

/-- A positive whole number becomes the nearest float. -/
theorem toFloat_eq_pack (positive : 0 < n) (fits : n < 2 ^ 64) :
    ∃ (m : Nat) (e : Int) (nonzero : 0 < m),
      (UInt64.ofNat n).toFloat = .ofModel (.pack (.finite .positive m e nonzero)) ∧
        NearestTo n m e := by
  have long : 2 ^ n.log2 ≤ n := Nat.log2_self_le positive.ne'
  have bits : n.log2 < 64 := (Nat.log2_lt positive.ne').mpr fits
  obtain ⟨places, places_eq⟩ : ∃ places, 52 - n.log2 = places := ⟨_, rfl⟩
  have padded : (UInt64.ofNat n).toFloat = .ofModel (.pack
      (roundWithAccuracy .binary64 .positive (n * 2 ^ places) (-places) .exact)) := by
    have order : compare (n : Int) 0 = .gt := by
      rw [Int.compare_eq_gt]
      omega
    have shift : (0 - Float.Model.Format.binary64.targetExponent
        (Float.Model.totalExponent n 0)).toNat = places := by
      rw [targetExponent_binary64, Float.Model.totalExponent]
      omega
    change Float.ofModel (.pack (normalize .binary64 (UInt64.ofNat n).toNat 0 .positive)) = _
    rw [UInt64.toNat_ofNat_of_lt' fits, UnpackedFloat.normalize, order]
    dsimp only
    rw [Int.toNat_natCast, UnpackedFloat.round, decreaseExponent, shift, Nat.shiftLeft_eq,
      Int.zero_sub]
  have full : 2 ^ 52 ≤ n * 2 ^ places := by
    calc 2 ^ 52 ≤ 2 ^ (n.log2 + places) := Nat.pow_le_pow_right (by decide) (by omega)
      _ = 2 ^ n.log2 * 2 ^ places := Nat.pow_add ..
      _ ≤ n * 2 ^ places := Nat.mul_le_mul_right _ long
  have short : (n * 2 ^ places).log2 < 64 + 52 := by
    rw [Nat.log2_lt (by omega), Nat.pow_add]
    exact Nat.mul_lt_mul_of_lt_of_le fits (Nat.pow_le_pow_right (by decide) (by omega)) (by decide)
  obtain ⟨m, e, nonzero, done, nearest⟩ :=
    roundWithAccuracy_exact full (e := -(places : Int)) (by omega) (by omega) .positive
  refine ⟨m, e, nonzero, by rw [padded, done], ?_⟩
  have same : ((n * 2 ^ places : Nat) : ℚ) * 2 ^ (-places : Int) = n := by
    rw [Nat.cast_mul, mul_assoc, zpow_neg, zpow_natCast]
    push_cast
    field_simp
  rwa [same] at nearest

/-- The significand and the exponent of a positive whole number as a float. -/
theorem ofFloat_toFloat (positive : 0 < n) (fits : n < 2 ^ 64) :
    ∃ m e, ofFloat (UInt64.ofNat n).toFloat = .finite false m e ∧ NearestTo n m e := by
  obtain ⟨m, e, nonzero, packed, nearest⟩ := toFloat_eq_pack positive fits
  exact ⟨m, e, by rw [packed, ofFloat_pack nearest.1]; rfl, nearest⟩

theorem unpack_one :
    (Float.ofScientific 1 false 0).toModel.unpack = .finite .positive (2 ^ 52) (-52) (by decide) :=
  unpack_of_ofFloat (by decide +kernel) _

/-- A significand of all bits that is multiplied by one is as before. -/
theorem roundWithAccuracy_mul_one (normal : Normal m e) (least : -1022 ≤ e) (sign : Sign) :
    roundWithAccuracy .binary64 sign (m * 2 ^ 52) (e - 52) .exact =
      .finite sign m e normal.positive := by
  have full := normal.full
  have length : (m * 2 ^ 52).log2 = 104 := by
    have short := normal.short
    rw [Nat.log2_eq_iff (by omega)]
    omega
  have rounded := ((keeps_exact (m * 2 ^ 52)).shiftRight Nat.one_pos 52).roundedMantissa
  rw [Nat.one_mul, roundHalfEven_mul _ _ (by decide)] at rounded
  have significand :
      (ExtendedMantissa.ofMantissaAndAccuracy m .exact >>> (52 - 52)).mantissa = m := by
    simpa using ((keeps_exact m).shiftRight Nat.one_pos (52 - 52)).whole
  have exponent : e - 52 + (104 - 52 : Nat) + (52 - 52 : Nat) = e := by omega
  rw [roundWithAccuracy, shiftToTargetExponent_eq (by omega) (by omega), length]
  dsimp only
  rw [rounded, shiftToTargetExponent_eq full (by omega), normal.log2_eq]
  simp only [significand, exponent]
  exact dif_neg normal.positive.ne'

/-- The product of a whole number and one is the whole number. -/
theorem toFloat_mul_one (fits : n < 2 ^ 64) :
    (UInt64.ofNat n).toFloat * Float.ofScientific 1 false 0 = (UInt64.ofNat n).toFloat := by
  rcases Nat.eq_zero_or_pos n with rfl | positive
  · decide +kernel
  · obtain ⟨m, e, nonzero, packed, normal, k, j, same, rounds⟩ := toFloat_eq_pack positive fits
    have least : -52 ≤ e := by
      have one : ((1 : Nat) : ℚ) * 2 ^ (0 : Int) ≤ k * 2 ^ j :=
        rounds.ge (by decide) (by simpa using Nat.one_le_iff_ne_zero.mpr positive.ne')
      refine Rounds.le_of_length (lt_of_le_of_lt ?_ (mul_lt_mul_of_pos_right
        (show (m : ℚ) < 2 ^ 53 by exact_mod_cast normal.short) (zpow_pos two_pos e)))
      rw [same]
      exact le_trans (by norm_num) one
    rw [packed]
    change Float.ofModel (.pack (.mul .binary64 (Float.Model.pack _).unpack
      (Float.ofScientific 1 false 0).toModel.unpack)) = _
    rw [normal.unpack_pack, unpack_one, UnpackedFloat.mul]
    exact congrArg (Float.ofModel <| .pack ·)
      (roundWithAccuracy_mul_one normal (by omega) .positive)

theorem isInf_of_ofFloat (x_eq : ofFloat x = .finite false m e) (positive : 0 < m) :
    x.isInf = false := by
  change x.toModel.unpack.isInf = false
  rw [unpack_of_ofFloat x_eq positive]
  rfl

theorem isInf_toFloat (fits : n < 2 ^ 64) : (UInt64.ofNat n).toFloat.isInf = false := by
  rcases Nat.eq_zero_or_pos n with rfl | positive
  · decide +kernel
  · obtain ⟨m, e, whole, nearest⟩ := ofFloat_toFloat positive fits
    exact isInf_of_ofFloat whole nearest.1.positive

/-! ## Powers of ten -/

/-- The least powers of ten are floats. -/
theorem ofFloat_ofScientific_least : ∀ p < 23, ofFloat (Float.ofScientific 1 false p) =
    .finite false (10 ^ p * 2 ^ 52 / 2 ^ (10 ^ p).log2) ((10 ^ p).log2 - 52) := by
  decide +kernel

theorem nearestTo_least (small : p < 23) :
    NearestTo (10 ^ p) (10 ^ p * 2 ^ 52 / 2 ^ (10 ^ p).log2) ((10 ^ p).log2 - 52) := by
  have each : ∀ p < 23, 2 ^ 52 ≤ 10 ^ p * 2 ^ 52 / 2 ^ (10 ^ p).log2 ∧
      10 ^ p * 2 ^ 52 / 2 ^ (10 ^ p).log2 < 2 ^ 53 ∧ (10 ^ p).log2 < 74 ∧
      10 ^ p * 2 ^ 52 / 2 ^ (10 ^ p).log2 * 2 ^ (10 ^ p).log2 = 10 ^ p * 2 ^ 52 := by
    decide +kernel
  obtain ⟨full, short, bits, exact⟩ := each p small
  generalize 10 ^ p * 2 ^ 52 / 2 ^ (10 ^ p).log2 = m at full short exact ⊢
  generalize (10 ^ p).log2 = places at bits exact ⊢
  have normal : Normal m (places - 52) := ⟨⟨short, by omega, by omega, .inl full⟩, full⟩
  have worth : (m : ℚ) * 2 ^ (places - 52 : Int) = 10 ^ p := by
    rw [zpow_sub₀ two_ne_zero, zpow_natCast, zpow_ofNat, ← mul_div_assoc,
      div_eq_iff (by positivity)]
    exact_mod_cast exact
  rw [← worth]
  exact normal.nearestTo

/-- A power of ten becomes the nearest float. -/
theorem ofFloat_ofScientific (small : p < 308) :
    ∃ m e, ofFloat (Float.ofScientific 1 false p) = .finite false m e ∧ NearestTo (10 ^ p) m e := by
  rcases Nat.lt_or_ge p 23 with least | greater
  · exact ⟨_, _, ofFloat_ofScientific_least p least, nearestTo_least least⟩
  have shifted : Float.ofScientific 1 false p = .ofModel (.pack
      (roundWithAccuracy .binary64 .positive (2 ^ 53 * 10 ^ p) (-53) .exact)) := by
    unfold Float.ofScientific
    rw [dif_neg (by omega)]
    change Float.ofModel (.pack (.ofScientific .binary64 1 p)) = _
    unfold UnpackedFloat.ofScientific
    rw [dif_neg (by decide), if_neg (by simp; omega), if_neg (by simp; omega), if_pos (by omega)]
    rfl
  obtain ⟨bits, bits_eq⟩ : ∃ bits, bits = 1020 := ⟨_, rfl⟩
  have short : (2 ^ 53 * 10 ^ p).log2 < 53 + bits := by
    rw [Nat.log2_lt (by positivity), Nat.pow_add]
    refine Nat.mul_lt_mul_of_pos_left ?_ (by decide)
    calc 10 ^ p ≤ 10 ^ 307 := Nat.pow_le_pow_right (by decide) (by omega)
      _ < 2 ^ bits := by
        rw [bits_eq]
        decide +kernel
  have long : 2 ^ 52 ≤ 2 ^ 53 * 10 ^ p :=
    Nat.le_mul_of_pos_right (2 ^ 53) (Nat.pow_pos (by decide)) |>.trans' (by decide)
  obtain ⟨m, e, nonzero, done, nearest⟩ :=
    roundWithAccuracy_exact long (e := -53) (by decide) (by omega) .positive
  refine ⟨m, e, ?_, ?_⟩
  · rw [shifted, done, ofFloat_pack nearest.1]
    rfl
  · have worth : ((2 ^ 53 * 10 ^ p : Nat) : ℚ) * 2 ^ (-53 : Int) = 10 ^ p := by
      rw [zpow_neg, zpow_ofNat, mul_inv_eq_iff_eq_mul₀ (by positivity), mul_comm (10 ^ p : ℚ)]
      exact_mod_cast rfl
    rwa [worth] at nearest

/-- The greatest power of ten that is finite as a float. -/
theorem ofFloat_ofScientific_308 : ofFloat (Float.ofScientific 1 false 308) =
    .finite false 5010420900022432 971 := by
  decide +kernel

theorem unpack_ofScientific (small : p ≤ 308) :
    ∃ (m : Nat) (e : Int) (nonzero : 0 < m),
      (Float.ofScientific 1 false p).toModel.unpack = .finite .positive m e nonzero := by
  rcases small.lt_or_eq with smaller | rfl
  · obtain ⟨m, e, power, normal, -⟩ := ofFloat_ofScientific smaller
    exact ⟨m, e, normal.positive, unpack_of_ofFloat power normal.positive⟩
  · exact ⟨_, _, by decide, unpack_of_ofFloat ofFloat_ofScientific_308 _⟩

/-! ## Products and quotients -/

theorem ten_pow_lt {j : Nat} (positive : 0 < j) (small : p ≤ 3 * j) :
    (10 : ℚ) ^ p < 2 ^ (10 * j : Int) := by
  calc (10 : ℚ) ^ p ≤ 10 ^ (3 * j) := pow_le_pow_right₀ (by norm_num) small
    _ = 1000 ^ j := by rw [pow_mul]; norm_num
    _ < 1024 ^ j := pow_lt_pow_left₀ (by norm_num) (by norm_num) positive.ne'
    _ = 2 ^ (10 * j : Int) := by rw [zpow_mul, zpow_natCast]; norm_num

theorem exponent_toFloat (positive : 0 < n) (fits : n < 2 ^ 64) (nearest : NearestTo n m e) :
    -54 < e ∧ e < 13 := by
  have least : (2 : ℚ) ^ (0 : Int) ≤ n := by
    rw [zpow_zero]
    exact_mod_cast positive
  have greatest : (n : ℚ) < 2 ^ (64 : Int) := by
    rw [zpow_ofNat]
    exact_mod_cast fits
  have := nearest.exponent least greatest
  omega

theorem exponent_ofScientific {j : Nat} (positive : 0 < j) (small : p ≤ 3 * j)
    (nearest : NearestTo (10 ^ p) m e) : -54 < e ∧ e + 51 < 10 * j := by
  have least : (2 : ℚ) ^ (0 : Int) ≤ 10 ^ p := by
    rw [zpow_zero]
    exact one_le_pow₀ (by norm_num)
  have := nearest.exponent least (ten_pow_lt positive small)
  omega

/-- A whole number that is multiplied by a power of ten is rounded three times. -/
theorem close_mul (positive : 0 < n) (fits : n < 2 ^ 64) (small : p ≤ 282) :
    ∃ m e, ofFloat ((UInt64.ofNat n).toFloat * Float.ofScientific 1 false p) = .finite false m e ∧
      Normal m e ∧ Close 3 (m * 2 ^ e) (n * 10 ^ p) := by
  obtain ⟨m₁, e₁, whole, nearest₁⟩ := ofFloat_toFloat positive fits
  obtain ⟨m₂, e₂, power, nearest₂⟩ := ofFloat_ofScientific (p := p) (by omega)
  have := exponent_toFloat positive fits nearest₁
  have := exponent_ofScientific (j := 94) (by decide) small nearest₂
  obtain ⟨m, e, product, nearest⟩ :=
    ofFloat_mul whole power nearest₁.1 nearest₂.1 (by omega) (by omega)
  exact ⟨m, e, product, nearest.1, nearest.close.trans (nearest₁.close.mul nearest₂.close)⟩

/-- A whole number that is divided by a power of ten is rounded three times. -/
theorem close_div (positive : 0 < n) (fits : n < 2 ^ 64) (small : p ≤ 300) :
    ∃ m e, ofFloat ((UInt64.ofNat n).toFloat / Float.ofScientific 1 false p) = .finite false m e ∧
      Normal m e ∧ Close 3 (m * 2 ^ e) (n / 10 ^ p) := by
  obtain ⟨m₁, e₁, whole, nearest₁⟩ := ofFloat_toFloat positive fits
  obtain ⟨m₂, e₂, power, nearest₂⟩ := ofFloat_ofScientific (p := p) (by omega)
  have := exponent_toFloat positive fits nearest₁
  have := exponent_ofScientific (j := 100) (by decide) small nearest₂
  obtain ⟨m, e, quotient, nearest⟩ :=
    ofFloat_div whole power nearest₁.1 nearest₂.1 (by omega) (by omega)
  exact ⟨m, e, quotient, nearest.1, nearest.close.trans (nearest₁.close.div nearest₂.close)⟩

theorem ofFloat_neg (x_eq : ofFloat x = .finite false m e) (normal : Normal m e) :
    ofFloat (-x) = .finite true m e := by
  have packed : -x = .ofModel (.pack (.finite .negative m e normal.positive)) := by
    change Float.ofModel (.pack x.toModel.unpack.neg) = _
    rw [unpack_of_ofFloat x_eq normal.positive]
    rfl
  rw [packed, ofFloat_pack normal]
  rfl

/-! ## Zero -/

/-- What equals zero is unpacked as zero of one of the signs. -/
theorem beq_zero_iff : x == 0 ↔ ∃ sign, x.toModel.unpack = .zero sign := by
  have zero : (0 : Float).toModel.unpack = .zero .positive := by rfl
  change UnpackedFloat.beq x.toModel.unpack (0 : Float).toModel.unpack = true ↔ _
  rw [zero]
  cases x.toModel.unpack with
  | zero sign => exact ⟨fun _ => ⟨sign, rfl⟩, fun _ => rfl⟩
  | notANumber => exact ⟨nofun, nofun⟩
  | infinity sign => cases sign <;> exact ⟨nofun, nofun⟩
  | finite sign m e nonzero => cases sign <;> exact ⟨nofun, nofun⟩

theorem eq_pack_of_zero {sign : Sign} (zero : x.toModel.unpack = .zero sign) :
    x = .ofModel (.pack (.zero sign)) := by
  have read := ofFloat_eq x
  rw [zero] at read
  obtain ⟨⟨⟨bits⟩, valid⟩⟩ := x
  change binary64.read bits.toNat = .finite (isNegative sign) 0 (-1074) at read
  have none : bits.toNat.testBit 63 = isNegative sign ∧ bits.toNat % 2 ^ 63 = 0 := by
    rw [read_binary64] at read
    split at read
    · split at read <;> cases read
    split at read
    · obtain ⟨same, fraction, -⟩ := Number.finite.inj read
      exact ⟨same, by omega⟩
    · have significand := (Number.finite.inj read).2.1
      omega
  have bound : bits.toNat < 2 ^ 64 := bits.isLt
  obtain ⟨same, rest⟩ := none
  rw [Nat.testBit_eq_decide_div_mod_eq] at same
  have known : bits = (UnpackedFloat.pack .binary64 (.zero sign)) := by
    refine BitVec.eq_of_toNat_eq ?_
    cases sign with
    | positive =>
      change _ = 0
      have lower := of_decide_eq_false same
      omega
    | negative =>
      change _ = 2 ^ 63
      have upper := of_decide_eq_true same
      omega
  subst known
  rfl

theorem zero_div (zero : x == 0) (small : p ≤ 308) : x / Float.ofScientific 1 false p = x := by
  obtain ⟨sign, unpacked⟩ := beq_zero_iff.mp zero
  obtain ⟨m, e, nonzero, divisor⟩ := unpack_ofScientific small
  change Float.ofModel (.pack (.div .binary64 x.toModel.unpack _)) = x
  rw [unpacked, divisor, eq_pack_of_zero unpacked]
  cases sign <;> rfl

theorem toFloat_beq_zero (fits : n < 2 ^ 64) : (UInt64.ofNat n).toFloat == 0 ↔ n = 0 := by
  constructor
  · intro zero
    by_contra nonzero
    obtain ⟨m, e, positive, packed, normal, -⟩ := toFloat_eq_pack (Nat.pos_of_ne_zero nonzero) fits
    obtain ⟨sign, unpacked⟩ := beq_zero_iff.mp zero
    rw [packed, normal.unpack_pack] at unpacked
    cases unpacked
  · rintro rfl
    decide +kernel

end Interlock.Decimal
