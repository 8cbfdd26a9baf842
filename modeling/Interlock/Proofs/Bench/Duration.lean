import Interlock.Bench.Table
import Interlock.Proofs.Decimal.Fixed
import Interlock.Proofs.Decimal.Quotient

/-!
# The number and the unit of a duration

The unit of a duration is chosen before its number is rounded, first by the division and then to
decimal places. A number that is just below the next unit may be rounded up to a thousand
(`NearlyThousand`) and is shown as that: a duration of 1000 ns is shown as `1.00 µs`, and one of
999.6 ns as `1000 ns`. All other numbers fit their unit (`duration_fits`).
-/

namespace Interlock.Bench

open Decimal

/-- The number and the unit of a text that has both, with a space in between. -/
def amount? (text : String) : Option (ℚ × String) :=
  match text.toList.splitOn ' ' with
  | [number, unit] => (numeral? number).map fun r => (r, String.ofList unit)
  | _ => none

/-- A number of nanoseconds that is rounded up to a thousand of the unit that it is shown in. -/
def NearlyThousand (v : ℚ) : Prop :=
  999.5 ≤ v ∧ v < 10 ^ 3 ∨ 999995 ≤ v ∧ v < 10 ^ 6 ∨ 999995000 ≤ v ∧ v < 10 ^ 9

theorem amount?_append {places : Nat} {x : Number} {r : ℚ} {unit suffix : String}
    (reads : numeral? (fixed places x).toList = some r)
    (separated : suffix.toList = ' ' :: unit.toList) (single : ' ' ∉ unit.toList) :
    amount? (fixed places x ++ suffix) = some (r, unit) := by
  have number : ' ' ∉ (fixed places x).toList := fun member =>
    absurd (numeric_fixed places x ' ' member) (by unfold Numeric; decide)
  rw [amount?, String.toList_append, separated, List.splitOn_append_cons_self,
    List.splitOn_eq_singleton number, List.splitOn_eq_singleton single]
  simp [reads]

/-! ## Divisors -/

/-- A float that denotes a number, and not a small one. -/
def IsDivisor (y : Float) (w : ℚ) : Prop :=
  ∃ (m : Nat) (e : Int), ofFloat y = .finite false m e ∧ 2 ^ 52 ≤ m ∧ -51 ≤ e ∧
    (m : ℚ) * 2 ^ e = w

theorem isDivisor_thousand : IsDivisor 1e3 (10 ^ 3) :=
  ⟨10 ^ 3 * 2 ^ 43, -43, rfl, by decide, by decide, by norm_num⟩

theorem isDivisor_million : IsDivisor 1e6 (10 ^ 6) :=
  ⟨10 ^ 6 * 2 ^ 33, -33, rfl, by decide, by decide, by norm_num⟩

theorem isDivisor_billion : IsDivisor 1e9 (10 ^ 9) :=
  ⟨10 ^ 9 * 2 ^ 23, -23, rfl, by decide, by decide, by norm_num⟩

variable {ns y : Float} {v w : ℚ}

theorem IsDivisor.positive (divisor : IsDivisor y w) : 0 < w := by
  obtain ⟨m, e, -, full, -, rfl⟩ := divisor
  exact mul_pos (Nat.cast_pos.mpr (by omega)) (zpow_pos two_pos e)

theorem IsDivisor.le_iff (divisor : IsDivisor y w) (value : (ofFloat ns).value? = some v)
    (nonnegative : 0 ≤ v) : ns ≥ y ↔ w ≤ v := by
  obtain ⟨m, e, y_eq, full, -, rfl⟩ := divisor
  exact float_le_iff y_eq (by omega) value nonnegative

/-! ## Quotients -/

/-- The greatest float below 999.995, from where on a number with two decimal places is rounded up
to a thousand. -/
def roundingLimit : ℚ := 8796049041742888 * 2 ^ (-43 : ℤ)

section Limits

variable {q : ℚ} {n : Nat} {exponent : Int}

theorem one_le_rounded (rounds : Rounds q n exponent) (reached : 1 ≤ q) :
    (1 : ℚ) ≤ n * 2 ^ exponent := by
  simpa using rounds.ge (k := 1) (j := 0) (by decide) (by simpa using reached)

theorem rounded_le_thousand (rounds : Rounds q n exponent) (limited : q ≤ 1000) :
    (n : ℚ) * 2 ^ exponent ≤ 1000 := by
  simpa using rounds.le (k := 1000) (j := 0) (by decide) (by simpa using limited)

theorem rounded_le_limit (rounds : Rounds q n exponent) (limited : q ≤ roundingLimit) :
    (n : ℚ) * 2 ^ exponent ≤ roundingLimit := by
  unfold roundingLimit at limited ⊢
  exact rounds.le (k := 8796049041742888) (by decide) limited

/-- No float is nearer to 999.995 than the next one after the limit. -/
theorem lt_rounded (rounds : Rounds q n exponent) (reached : 999.995 ≤ q) (limited : q < 1000) :
    (999.995 : ℚ) < n * 2 ^ exponent := by
  obtain rfl : exponent = -43 :=
    le_antisymm (rounds.exponent_le (by norm_num; linarith))
      (rounds.le_exponent (by norm_num; linarith))
  have near := (abs_le.mp rounds.near).1
  have beyond : 8796049041742888 < n := by
    by_contra within
    have within : (n : ℚ) ≤ 8796049041742888 := by exact_mod_cast not_lt.mp within
    norm_num at near
    linarith
  have next : (8796049041742889 : ℚ) ≤ n := by exact_mod_cast beyond
  norm_num
  linarith

end Limits

/-- A bound on a whole number need not be exact. -/
theorem cast_le_of_lt_add_one {k b : ℤ} (less : (k : ℚ) < b + 1) : (k : ℚ) ≤ b :=
  Int.cast_le.mpr (Int.lt_add_one_iff.mp (by exact_mod_cast less))

/-- What is shown of a quotient: at least one, at most a thousand if the quotient is below, and less
than a thousand up to the limit. -/
theorem IsDivisor.bounds (divisor : IsDivisor y w) (value : (ofFloat ns).value? = some v)
    (reached : w ≤ v) :
    ∃ r, numeral? (hundredths (ns / y)).toList = some r ∧ 1 ≤ r ∧ (v < 1000 * w → r ≤ 1000) ∧
      (999.995 * w ≤ v → v < 1000 * w → 1000 ≤ r) ∧ (v / w ≤ roundingLimit → r < 1000) := by
  have positive := divisor.positive
  obtain ⟨m, e, y_eq, full, least, w_eq⟩ := divisor
  obtain ⟨n, exponent, quotient, rounds⟩ :=
    value?_div_of_le value y_eq ⟨canonical_of_read y_eq, full⟩ least (w_eq ▸ reached)
  rw [w_eq] at rounds
  obtain ⟨k, reads, near, -⟩ := numeral?_fixed quotient 2
  obtain ⟨above, below⟩ := abs_le.mp near
  refine ⟨k / 10 ^ 2, reads, ?_, fun limited => ?_, fun close limited => ?_, fun small => ?_⟩
  · have rounded := one_le_rounded rounds ((one_le_div positive).mpr reached)
    have whole := cast_le_of_lt_add_one (k := 100) (b := k) (by push_cast; linarith)
    push_cast at whole
    linarith
  · have rounded := rounded_le_thousand rounds ((div_le_iff₀ positive).mpr limited.le)
    have whole := cast_le_of_lt_add_one (k := k) (b := 100000) (by push_cast; linarith)
    push_cast at whole
    linarith
  · have rounded := lt_rounded rounds ((le_div_iff₀ positive).mpr close)
      ((div_lt_iff₀ positive).mpr limited)
    have whole := cast_le_of_lt_add_one (k := 100000) (b := k) (by push_cast; linarith)
    push_cast at whole
    linarith
  · have rounded := rounded_le_limit rounds small
    norm_num [roundingLimit] at rounded
    have whole := cast_le_of_lt_add_one (k := k) (b := 99999) (by push_cast; linarith)
    push_cast at whole
    linarith

/-- A quotient below a thousand is shown as a thousand from 999.995 on, if all smaller ones are at
most the limit. -/
theorem IsDivisor.shown (divisor : IsDivisor y w) (value : (ofFloat ns).value? = some v)
    (reached : w ≤ v) (limited : v < 1000 * w) (gap : v < 999.995 * w → v / w ≤ roundingLimit) :
    ∃ r, numeral? (hundredths (ns / y)).toList = some r ∧ 1 ≤ r ∧ r ≤ 1000 ∧
      (r = 1000 ↔ 999.995 * w ≤ v) := by
  obtain ⟨r, reads, one, top, close, less⟩ := divisor.bounds value reached
  refine ⟨r, reads, one, top limited, fun equal => ?_, fun near =>
    (top limited).antisymm (close near limited)⟩
  by_contra below
  exact (less (gap (not_le.mp below))).ne equal

/-- There are no floats between a bound of 53 bits and the one before it, so that a quotient that is
less than the bound is at most the limit. -/
theorem IsDivisor.le_limit (divisor : IsDivisor y w) (value : (ofFloat ns).value? = some v)
    (reached : w ≤ v) {k : Nat} {j : Int} (full : 2 ^ 52 < k) (less : v < k * 2 ^ j)
    (before : (k - 1 : Nat) * 2 ^ j ≤ roundingLimit * w) : v / w ≤ roundingLimit := by
  have positive := divisor.positive
  obtain ⟨m, e, ns_eq, rfl⟩ := finite_of_positive value (positive.trans_le reached)
  rw [div_le_iff₀ positive]
  exact ((canonical_of_read ns_eq).le_pred full less).trans before

/-! ## Durations -/

/-- A number of nanoseconds is shown as a thousand from half a nanosecond below. -/
theorem whole_nanoseconds (value : (ofFloat ns).value? = some v) (limited : v < 1000) :
    ∃ r, numeral? (fixed 0 (ofFloat ns)).toList = some r ∧ r ≤ 1000 ∧ (r = 1000 ↔ 999.5 ≤ v) := by
  obtain ⟨k, reads, near, even⟩ := numeral?_fixed value 0
  rw [pow_zero, div_one] at reads
  rw [pow_zero, mul_one] at near even
  obtain ⟨above, below⟩ := abs_le.mp near
  have top : (k : ℚ) ≤ 1000 := by
    exact_mod_cast cast_le_of_lt_add_one (b := 1000) (by push_cast; linarith)
  refine ⟨k, reads, top, fun equal => by linarith, fun close => top.antisymm ?_⟩
  -- of the two neighbours of 999.5 the even one is taken
  have upper : k ≠ 999 := by
    rintro rfl
    push_cast at above even
    have halfway : v = 999.5 := by linarith
    exact absurd (even (by rw [halfway]; norm_num [abs_of_neg])) (by decide)
  have lower : 998 < k := by
    have : (998 : ℚ) < k := by linarith
    exact_mod_cast this
  exact_mod_cast (by omega : 1000 ≤ k)

/-- The number that is shown of a finite duration fits its unit: before a unit that is not the
greatest one it is at most a thousand, and a thousand only if the duration is that near to the next
unit; before a unit that is not the smallest one it is at least one. -/
theorem duration_fits (value : binary64.value? ns.toBits.toNat = some v) (nonnegative : 0 ≤ v) :
    ∃ r unit, amount? (duration ns) = some (r, unit) ∧ unit ∈ ["ns", "µs", "ms", "s"] ∧
      (unit ≠ "s" → r ≤ 1000 ∧ (r = 1000 ↔ NearlyThousand v)) ∧ (unit ≠ "ns" → 1 ≤ r) := by
  rw [← value?_read] at value
  change (ofFloat ns).value? = some v at value
  have seconds := isDivisor_billion.le_iff value nonnegative
  have milliseconds := isDivisor_million.le_iff value nonnegative
  have microseconds := isDivisor_thousand.le_iff value nonnegative
  unfold duration
  split
  next large =>
    obtain ⟨r, reads, one, -⟩ := isDivisor_billion.bounds value (seconds.mp large)
    exact ⟨r, "s", amount?_append reads rfl (by decide), by decide, fun other => absurd rfl other,
      fun _ => one⟩
  split
  next small large =>
    have reached := milliseconds.mp large
    have limited := not_le.mp (mt seconds.mpr small)
    have nearly : NearlyThousand v ↔ 999.995 * 10 ^ 6 ≤ v := by
      unfold NearlyThousand
      grind
    obtain ⟨r, reads, one, top, thousand⟩ := isDivisor_million.shown value reached (by linarith)
      fun below => isDivisor_million.le_limit value reached (k := 999995000 * 2 ^ 23) (j := -23)
        (by decide) (by norm_num; linarith) (by norm_num [roundingLimit])
    exact ⟨r, "ms", amount?_append reads rfl (by decide), by decide,
      fun _ => ⟨top, thousand.trans nearly.symm⟩, fun _ => one⟩
  split
  next _ small large =>
    have reached := microseconds.mp large
    have limited := not_le.mp (mt milliseconds.mpr small)
    have nearly : NearlyThousand v ↔ 999.995 * 10 ^ 3 ≤ v := by
      unfold NearlyThousand
      grind
    obtain ⟨r, reads, one, top, thousand⟩ := isDivisor_thousand.shown value reached (by linarith)
      fun below => isDivisor_thousand.le_limit value reached (k := 999995 * 2 ^ 33) (j := -33)
        (by decide) (by norm_num; linarith) (by norm_num [roundingLimit])
    exact ⟨r, "µs", amount?_append reads rfl (by decide), by decide,
      fun _ => ⟨top, thousand.trans nearly.symm⟩, fun _ => one⟩
  next _ _ small =>
    have limited := not_le.mp (mt microseconds.mpr small)
    have nearly : NearlyThousand v ↔ 999.5 ≤ v := by
      unfold NearlyThousand
      grind
    obtain ⟨r, reads, top, thousand⟩ := whole_nanoseconds value (by linarith)
    exact ⟨r, "ns", amount?_append reads rfl (by decide), by decide,
      fun _ => ⟨top, thousand.trans nearly.symm⟩, fun other => absurd rfl other⟩

/-- Half a nanosecond less than a millisecond is shown as a thousand microseconds. -/
theorem duration_fits_below_millisecond :
    duration 999999.5 = "1000.00 µs" ∧ NearlyThousand 999999.5 := by
  have value : binary64.value? (999999.5 : Float).toBits.toNat = some 999999.5 := by
    change binary64.value? 0x412e847f00000000 = _
    norm_num [Format.value?, binary64]
  have shown : duration 999999.5 = "1000.00 µs" := rfl
  have reads : amount? "1000.00 µs" = some (1000, "µs") := by cbv
  obtain ⟨r, unit, text, -, thousand, -⟩ := duration_fits value (by norm_num)
  rw [shown, reads] at text
  obtain ⟨rfl, rfl⟩ := Prod.mk.inj (Option.some.inj text)
  exact ⟨shown, (thousand (by decide)).2.mp rfl⟩

/-- The number in front of a unit may be a thousand, although as much is shown in the next unit if
it need not be rounded. -/
theorem nanoseconds_reach_thousand :
    duration 999.6 = "1000 ns" ∧ duration 1000 = "1.00 µs" ∧
      ¬ ∀ (ns : Float) (v : ℚ), binary64.value? ns.toBits.toNat = some v → 0 ≤ v →
        ∀ r unit, amount? (duration ns) = some (r, unit) → unit ≠ "s" → r < 1000 := by
  refine ⟨rfl, rfl, fun fits => ?_⟩
  have value : binary64.value? (999.6 : Float).toBits.toNat = some (0x1f3ccccccccccd / 2 ^ 43) := by
    change binary64.value? 0x408f3ccccccccccd = _
    norm_num [Format.value?, binary64]
  exact absurd (fits 999.6 _ value (by norm_num) 1000 "ns" rfl (by decide)) (lt_irrefl 1000)

end Interlock.Bench
