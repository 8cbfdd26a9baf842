import Interlock.Proofs.Json.Float

/-!
# How exact floats are

The digits that are gathered from a number are its first ones, so what they come to is close to the
number (`Number.Gathered.close`), and when they are scaled they are rounded three times
(`exists_scaled`). A number that is neither too great nor too small is thus read as a float that is
off by at most one part in `2 ^ 49` (`Number.readAs_close`).
-/

namespace Interlock.Json

open Decimal (Close Normal ulp ofFloat)

/-! ## What is written -/

/-- What the digits and the exponent come to. -/
def Number.size (n : Number) : ℚ :=
  amount 0 (n.whole ++ n.fraction) * 10 ^ (n.power - n.fraction.length)

/-- The rational number that is written. -/
def Number.worth (n : Number) : ℚ :=
  if n.negative then -n.size else n.size

variable {n : Number} {m : Nat} {back : List Nat} {e : Int} {p q : ℚ}

theorem Number.size_nonneg : 0 ≤ n.size := by
  unfold size
  positivity

theorem Number.abs_worth : |n.worth| = n.size := by
  unfold worth
  split
  · rw [abs_neg, abs_of_nonneg size_nonneg]
  · exact abs_of_nonneg size_nonneg

theorem digitValues_lt {cs : List Char} (digits : ∀ c ∈ cs, c.isDigit) :
    ∀ d ∈ digitValues cs, d < 10 := by
  intro d among
  obtain ⟨c, c_mem, rfl⟩ := List.mem_map.mp among
  exact (digit_worth (digits c c_mem)).1

theorem Number.Written.digits {cs : List Char} (written : n.Written cs) :
    ∀ d ∈ n.whole ++ n.fraction, d < 10 := by
  obtain ⟨-, before, after, -⟩ := written
  intro d among
  rcases List.mem_append.mp among with among | among
  · exact digitValues_lt before.1.2 d among
  · cases after with
    | absent => cases among
    | present after => exact digitValues_lt after.2 d among

/-! ## The first digits -/

theorem amount_reached (k : Nat) (digits : List Nat) :
    k * 10 ^ digits.length ≤ amount k digits := by
  induction digits generalizing k with
  | nil => exact (Nat.mul_one k).le
  | cons d digits ih =>
    calc k * 10 ^ (digits.length + 1) = k * 10 * 10 ^ digits.length := by ring
      _ ≤ (k * 10 + d) * 10 ^ digits.length := by gcongr; omega
      _ ≤ amount (k * 10 + d) digits := ih _

theorem amount_limited {digits : List Nat} (small : ∀ d ∈ digits, d < 10) (k : Nat) :
    amount k digits < (k + 1) * 10 ^ digits.length := by
  induction digits generalizing k with
  | nil => exact (Nat.lt_succ_self k).trans_eq (Nat.mul_one _).symm
  | cons d digits ih =>
    obtain ⟨digit, others⟩ := List.forall_mem_cons.mp small
    calc amount (k * 10 + d) digits < (k * 10 + d + 1) * 10 ^ digits.length := ih others _
      _ ≤ (k + 1) * 10 * 10 ^ digits.length := by gcongr; omega
      _ = (k + 1) * 10 ^ (digits.length + 1) := by ring

/-- The first digits of a number come to `m`, and the last one of them is at this place. -/
structure Begins (m : Nat) (e : Int) (q : ℚ) : Prop where
  reached : m * 10 ^ e ≤ q
  limited : q < (m + 1) * 10 ^ e

theorem begins_self : Begins m e (m * 10 ^ e) := by
  have unit : (0 : ℚ) < 10 ^ e := by positivity
  exact ⟨le_rfl, by gcongr; exact lt_add_one _⟩

theorem begins_append (front : List Nat) {back : List Nat} (small : ∀ d ∈ back, d < 10) (e : Int) :
    Begins (amount 0 front) e (amount 0 (front ++ back) * 10 ^ (e - back.length)) := by
  have unit : (0 : ℚ) < 10 ^ (e - back.length) := by positivity
  have split : (10 : ℚ) ^ e = 10 ^ back.length * 10 ^ (e - back.length) := by
    rw [← zpow_natCast, ← zpow_add₀ (by norm_num)]
    congr 1
    omega
  rw [amount_append]
  constructor
  · rw [split, ← mul_assoc]
    gcongr
    exact_mod_cast amount_reached ..
  · rw [split, ← mul_assoc]
    gcongr
    exact_mod_cast amount_limited small _

/-- Numbers with the same first digits are close to each other if there are enough of these. -/
theorem Begins.close (begins : Begins m e p) (begins' : Begins m e q) (long : 2 ^ 52 ≤ m) :
    Close 1 p q := by
  have unit : (0 : ℚ) < 10 ^ e := by positivity
  have long' : (2 : ℚ) ^ 52 ≤ m := by exact_mod_cast long
  have next : (m + 1 : ℚ) * 10 ^ e ≤ (1 + ulp) ^ 1 * (m * 10 ^ e) := by
    rw [pow_one, ← mul_assoc]
    gcongr
    rw [ulp]
    linarith
  have step : 0 ≤ (1 + ulp) ^ 1 := zero_le_one.trans Close.one_le_pow
  refine ⟨lt_of_lt_of_le (by positivity) begins.reached, ?_, ?_⟩
  · exact begins.limited.le.trans (next.trans (mul_le_mul_of_nonneg_left begins'.reached step))
  · exact begins'.limited.le.trans (next.trans (mul_le_mul_of_nonneg_left begins.reached step))

theorem Filled.long {d : Nat} (filled : Filled m (d :: back)) (digit : d < 10) : 2 ^ 52 ≤ m := by
  have full : 2 ^ 64 ≤ m * 10 + d := filled.full d rfl
  omega

/-- The digits that are gathered are enough to tell what the number is worth. -/
theorem Number.Gathered.close (gathered : n.Gathered m e)
    (digits : ∀ d ∈ n.whole ++ n.fraction, d < 10) (positive : 0 < n.size) :
    Close 1 (m * 10 ^ (e + n.power)) n.size := by
  obtain @⟨front, dropped, decimals, unread, whole, before, fraction, after⟩ := gathered
  unfold size at positive ⊢
  rw [whole, fraction] at digits positive ⊢
  cases dropped with
  | nil =>
    rw [List.append_nil] at digits positive ⊢
    have shift : ((0 : Nat) - decimals.length + n.power : Int) = n.power - decimals.length := by
      omega
    cases unread with
    | nil =>
      rw [List.append_nil] at positive ⊢
      rw [List.length_nil, shift]
      exact .refl positive
    | cons d unread =>
      have long := after.long (digits d (by simp))
      have others : ∀ d' ∈ d :: unread, d' < 10 := fun d' among => digits d' (by simp [among])
      have begins := begins_append (front ++ decimals) others (n.power - decimals.length)
      rw [List.append_assoc, sub_sub, ← Nat.cast_add, ← List.length_append] at begins
      rw [List.length_nil, shift]
      exact begins_self.close begins long
  | cons d dropped =>
    -- what is appended after digits have been dropped does not matter any more
    have long := before.long (digits d (by simp))
    have others : ∀ d' ∈ decimals, d' < 10 := fun d' among => digits d' (by simp [among])
    have others' : ∀ d' ∈ d :: dropped ++ (decimals ++ unread), d' < 10 := fun d' among =>
      digits d' (by rw [List.append_assoc]; exact List.mem_append_right _ among)
    obtain ⟨place, place_eq⟩ : ∃ place : Int, place = (d :: dropped).length + n.power := ⟨_, rfl⟩
    have shorter := begins_append front others place
    have longer := begins_append front others' place
    have shift : ((d :: dropped).length - decimals.length + n.power : Int) =
        place - decimals.length := by
      omega
    have shift' : n.power - ((decimals ++ unread).length : Int) =
        place - (d :: dropped ++ (decimals ++ unread)).length := by
      have length : (d :: dropped ++ (decimals ++ unread)).length = _ := List.length_append
      omega
    rw [shift, shift', List.append_assoc]
    exact shorter.close longer long

/-! ## Scaling -/

/-- Whole numbers of 64 bits are scaled in this range, and rounded three times. -/
theorem exists_scaled (positive : 0 < m) (fits : m < 2 ^ 64)
    (lower : 10 ^ (-281 : Int) ≤ (m * 10 ^ e : ℚ)) (upper : (m * 10 ^ e : ℚ) ≤ 10 ^ (281 : Int)) :
    ∃ x, Scaled m e x ∧ ∃ k j, ofFloat x = .finite false k j ∧ Normal k j ∧
      Close 3 (k * 2 ^ j) (m * 10 ^ e) := by
  have unit : (0 : ℚ) < 10 ^ e := by positivity
  rcases lt_or_ge e 0 with below | above
  · obtain ⟨places, rfl⟩ : ∃ places : Nat, e = -places := ⟨(-e).toNat, by omega⟩
    have small : places ≤ 300 := by
      have : (10 : ℚ) ^ (-281 : Int) < 10 ^ (20 - places : Int) := by
        refine lower.trans_lt ?_
        rw [sub_eq_add_neg, zpow_add₀ (by norm_num), zpow_ofNat]
        gcongr
        exact_mod_cast fits.trans (by norm_num)
      rw [zpow_lt_zpow_iff_right₀ (by norm_num)] at this
      omega
    obtain ⟨k, j, quotient, normal, close⟩ := Decimal.close_div positive fits small
    refine ⟨_, .lowered (by omega) (.once (by omega)), k, j, quotient, normal, ?_⟩
    rwa [zpow_neg, zpow_natCast, ← div_eq_mul_inv]
  · obtain ⟨places, rfl⟩ := Int.eq_ofNat_of_zero_le above
    have small : places ≤ 281 := by
      have : (10 : ℚ) ^ (places : Int) ≤ 10 ^ (281 : Int) := by
        refine le_trans (le_mul_of_one_le_left unit.le ?_) upper
        exact_mod_cast positive
      rw [zpow_le_zpow_iff_right₀ (by norm_num)] at this
      omega
    obtain ⟨k, j, product, normal, close⟩ :=
      Decimal.close_mul positive fits (p := places) (by omega)
    refine ⟨_, .raised (by omega) (Decimal.isInf_of_ofFloat product normal.positive), k, j, product,
      normal, ?_⟩
    rwa [zpow_natCast]

/-- Rounding once leaves a number within a range that is a bit wider. -/
theorem range_of_close (close : Close 1 p q) (lower : 10 ^ (-280 : Int) ≤ q)
    (upper : q ≤ 10 ^ (280 : Int)) : 10 ^ (-281 : Int) ≤ p ∧ p ≤ 10 ^ (281 : Int) := by
  have twice : (1 + ulp) ^ 1 ≤ 2 := by norm_num [ulp]
  have tenth : (10 : ℚ) ^ (-280 : Int) = 10 ^ (-281 : Int) * 10 :=
    zpow_add_one₀ (by norm_num) (-281)
  have unit : (0 : ℚ) < 10 ^ (-281 : Int) := by positivity
  constructor
  · have := close.ge.trans (mul_le_mul_of_nonneg_right twice close.positive.le)
    linarith
  · calc p ≤ (1 + ulp) ^ 1 * q := close.le
      _ ≤ 10 * 10 ^ (280 : Int) :=
        mul_le_mul (twice.trans (by norm_num)) upper close.positive'.le (by norm_num)
      _ = 10 ^ (281 : Int) := (zpow_one_add₀ (by norm_num) 280).symm

/-- A number in this range is read as exactly one float, which differs from what is written by at
most one part in `2 ^ 49`. -/
theorem Number.readAs_close {cs : List Char} (written : n.Written cs)
    (small : n.power.natAbs < 2 ^ 31) (lower : 10 ^ (-280 : Int) ≤ |n.worth|)
    (upper : |n.worth| ≤ 10 ^ (280 : Int)) :
    ∃ x, (∀ y, n.ReadAs y ↔ y = x) ∧
      ∃ v, (ofFloat x).value? = some v ∧ |v - n.worth| ≤ |n.worth| / 2 ^ 49 := by
  rw [abs_worth] at lower upper ⊢
  have positive : 0 < n.size := lt_of_lt_of_le (by positivity) lower
  obtain ⟨m, e, gathered⟩ := n.exists_gathered
  have front := gathered.close written.digits positive
  have some_digit : 0 < m := by
    refine Nat.pos_of_ne_zero ?_
    rintro rfl
    simpa using front.positive
  obtain ⟨lower', upper'⟩ := range_of_close front lower upper
  obtain ⟨x, scaled, k, j, x_eq, normal, close⟩ :=
    exists_scaled some_digit gathered.fits lower' upper'
  have error := (close.trans front).error
  have readAs := ReadAs.scaled gathered small scaled
  refine ⟨_, fun y => ⟨readAs.unique, fun same => same ▸ readAs⟩, ?_⟩
  unfold worth
  split
  · refine ⟨-(k * 2 ^ j), ?_, ?_⟩
    · rw [Decimal.ofFloat_neg x_eq normal]
      simp [Decimal.Number.value?]
    · rwa [neg_sub_neg, abs_sub_comm]
  · exact ⟨k * 2 ^ j, by simp [x_eq, Decimal.Number.value?], error⟩

end Interlock.Json
