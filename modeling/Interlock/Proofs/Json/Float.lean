import Interlock.Proofs.Decimal.Whole
import Interlock.Proofs.Json.Document
import Interlock.Proofs.Json.Number

/-!
# The floats of numbers

The digits of a number are a whole number of 64 bits, times a power of ten (`Number.Gathered`). The
number is read as the float of the former multiplied or divided by the float of the latter
(`Scaled`), with the sign it is written with. So the reader of floats takes exactly the numbers for
which there is such a float (`readFloat_takes`).
-/

namespace Interlock.Json

/-! ## What a number is worth -/

/-- A whole number of 64 bits that has more of them if the next of the digits is appended. -/
structure Filled (m : Nat) (left : List Nat) : Prop where
  fits : m < 2 ^ 64
  full : ∀ d ∈ left.head?, 2 ^ 64 ≤ m * 10 + d

/-- The digits come to a whole number of 64 bits times a power of ten. Digits that are left before
the point count as zeros, and those that are left after it do not count. -/
inductive Number.Gathered (n : Number) : Nat → Int → Prop where
  | mk {digits dropped decimals unread : List Nat} (whole : n.whole = digits ++ dropped)
    (before : Filled (amount 0 digits) dropped) (fraction : n.fraction = decimals ++ unread)
    (after : Filled (amount 0 (digits ++ decimals)) unread) :
    n.Gathered (amount 0 (digits ++ decimals)) (dropped.length - decimals.length)

/-- The exponent as it is written. -/
def Number.power (n : Number) : Int :=
  match n.exponent with
  | none => 0
  | some (negative, digits) => if negative then -amount 0 digits else amount 0 digits

/-- The float that is nearest to a whole number of 64 bits. -/
def nearest (m : Nat) : Float :=
  (UInt64.ofNat m).toFloat

/-- The float that is nearest to a power of ten. -/
def tenTo (places : Nat) : Float :=
  Float.ofScientific 1 false places

/-- The quotient by a power of ten, which is divided by in several steps if it is no float. -/
inductive Divided : Float → Nat → Float → Prop where
  | once {x : Float} {places : Nat} (small : places ≤ 308) : Divided x places (x / tenTo places)
  | again {x y : Float} {places : Nat} (positive : 0 < places)
    (further : Divided (x / tenTo 308) places y) : Divided x (places + 308) y

/-- The float of a whole number times a power of ten. -/
inductive Scaled (m : Nat) : Int → Float → Prop where
  | raised {places : Nat} (small : places ≤ 308)
    (finite : (nearest m * tenTo places).isInf = false) : Scaled m places (nearest m * tenTo places)
  | lowered {places : Nat} {x : Float} (positive : 0 < places)
    (quotient : Divided (nearest m) places x) : Scaled m (-places) x
  | zero {places : Nat} (great : 308 < places) (none : m = 0) : Scaled m places 0

/-- The number is read as the float. Exponents of more than 31 bits are not told apart. -/
inductive Number.ReadAs (n : Number) : Float → Prop where
  | scaled {m : Nat} {e : Int} {x : Float} (gathered : n.Gathered m e)
    (small : n.power.natAbs < 2 ^ 31) (scaled : Scaled m (e + n.power) x) :
    n.ReadAs (if n.negative then -x else x)
  | vanished {m : Nat} {e : Int} (gathered : n.Gathered m e) (great : 2 ^ 31 ≤ n.power.natAbs)
    (none : m = 0 ∨ n.power < 0) : n.ReadAs (if n.negative then -0 else 0)

/-- The characters write a number that is read as the float. -/
def Literal (cs : List Char) (x : Float) : Prop :=
  ∃ n : Number, n.Written cs ∧ n.ReadAs x

/-! ## Gathering digits -/

theorem amount_append (n : Nat) (ds es : List Nat) :
    amount n (ds ++ es) = amount (amount n ds) es :=
  List.foldl_append

variable {n : Number} {m k : Nat} {digits left : List Nat} {x y : Float} {e : Int}

theorem limit_eq : Number.limit = 2 ^ 64 - 1 :=
  rfl

/-- Digits are gathered until the next one does not fit. -/
theorem exists_of_absorb (fits : k ≤ Number.limit)
    (gathered : absorb Number.limit k digits = (m, left)) :
    ∃ front, digits = front ++ left ∧ amount k front = m ∧ Filled m left := by
  fun_induction absorb Number.limit k digits with
  | case1 k =>
    cases gathered
    refine ⟨[], rfl, rfl, by rw [limit_eq] at fits; omega, ?_⟩
    intro d nothing
    cases nothing
  | case2 k d rest beyond =>
    cases gathered
    refine ⟨[], rfl, rfl, by rw [limit_eq] at fits; omega, ?_⟩
    rintro _ ⟨⟩
    rw [limit_eq] at beyond
    omega
  | case3 k d rest within ih =>
    obtain ⟨front, rfl, worth, filled⟩ := ih (Nat.le_of_not_gt within) gathered
    exact ⟨d :: front, rfl, worth, filled⟩

theorem absorb_append (filled : Filled (amount k digits) left) :
    absorb Number.limit k (digits ++ left) = (amount k digits, left) := by
  induction digits generalizing k with
  | nil =>
    cases left with
    | nil => rfl
    | cons d left =>
      have beyond : Number.limit < k * 10 + d := by
        have full : 2 ^ 64 ≤ k * 10 + d := filled.full d rfl
        rw [limit_eq]
        omega
      exact if_pos beyond
  | cons d digits ih =>
    have within : ¬ Number.limit < k * 10 + d := by
      have more := le_amount (k * 10 + d) digits
      have fits : amount (k * 10 + d) digits < 2 ^ 64 := filled.fits
      rw [limit_eq]
      omega
    rw [List.cons_append, absorb, if_neg within]
    exact ih filled

theorem Number.gathered_of_absorb {dropped unread : List Nat}
    (before : absorb limit 0 n.whole = (k, dropped))
    (after : absorb limit k n.fraction = (m, unread)) :
    n.Gathered m (dropped.length - (n.fraction.length - unread.length)) := by
  obtain ⟨digits, whole, rfl, filled⟩ := exists_of_absorb (Nat.zero_le _) before
  have fits : amount 0 digits ≤ limit := by
    have := filled.fits
    rw [limit_eq]
    omega
  obtain ⟨decimals, fraction, worth, filled'⟩ := exists_of_absorb fits after
  rw [← amount_append] at worth
  subst worth
  have length : (n.fraction.length : Int) - unread.length = decimals.length := by
    rw [fraction, List.length_append]
    omega
  rw [length]
  exact .mk whole filled fraction filled'

/-- There is always a way to gather the digits. -/
theorem Number.exists_gathered (n : Number) : ∃ m e, n.Gathered m e :=
  ⟨_, _, gathered_of_absorb rfl rfl⟩

theorem Number.Gathered.fits (gathered : n.Gathered m e) : m < 2 ^ 64 := by
  obtain ⟨-, -, -, filled⟩ := gathered
  exact filled.fits

theorem Number.Gathered.absorbed {dropped unread : List Nat} {m' : Nat}
    (before : absorb limit 0 n.whole = (k, dropped))
    (after : absorb limit k n.fraction = (m, unread)) (gathered : n.Gathered m' e) :
    m' = m ∧ e = dropped.length - (n.fraction.length - unread.length) := by
  obtain @⟨digits, left, decimals, left', whole, filled, fraction, filled'⟩ := gathered
  rw [whole, absorb_append filled] at before
  obtain ⟨rfl, rfl⟩ := Prod.mk.inj before
  rw [amount_append] at filled' ⊢
  rw [fraction, absorb_append filled'] at after
  obtain ⟨rfl, rfl⟩ := Prod.mk.inj after
  refine ⟨rfl, ?_⟩
  rw [fraction, List.length_append]
  omega

/-! ## Powers of ten -/

/-- Zero stays zero, however often it is divided. -/
theorem divided_of_zero (zero : x == 0) (times : Nat) {places : Nat} (positive : 0 < places)
    (small : places ≤ 308) : Divided x (places + 308 * times) x := by
  induction times with
  | zero =>
    have once := Divided.once (x := x) small
    rwa [tenTo, Decimal.zero_div zero small] at once
  | succ times ih =>
    rw [Nat.mul_succ, ← Nat.add_assoc]
    refine .again (Nat.add_pos_left positive _) ?_
    rwa [tenTo, Decimal.zero_div zero (by decide)]

theorem divided_spec (x : Float) (times : Nat) {places : Nat} (positive : 0 < places)
    (small : places ≤ 308) : Divided x (places + 308 * times) (divided x places times) := by
  induction times generalizing x with
  | zero => exact .once small
  | succ times ih =>
    rw [divided]
    split
    · rename_i zero
      exact divided_of_zero zero _ positive small
    · rw [Nat.mul_succ, ← Nat.add_assoc]
      exact .again (Nat.add_pos_left positive _) (ih _)

theorem Divided.unique {z : Float} (divided : Divided x k y) (other : Divided x k z) : y = z := by
  induction divided with
  | once small =>
    cases other with
    | once => rfl
    | again positive => omega
  | again positive further ih =>
    cases other
    · omega
    · exact ih ‹_›

/-- The quotient is that of as many steps as go. -/
theorem divided_eq_iff (positive : 0 < k) :
    divided x (k - 308 * ((k - 1) / 308)) ((k - 1) / 308) = y ↔ Divided x k y := by
  have done : Divided x (k - 308 * ((k - 1) / 308) + 308 * ((k - 1) / 308)) _ :=
    divided_spec x ((k - 1) / 308) (by omega) (by omega)
  rw [Nat.sub_add_cancel (by omega)] at done
  constructor
  · rintro rfl
    exact done
  · exact done.unique

theorem scaled_neg (positive : 0 < k) :
    scaled m (-k) = some (divided (nearest m) (k - 308 * ((k - 1) / 308)) ((k - 1) / 308)) := by
  have below : (-k : Int) < 0 := by omega
  have same : (- -(k : Int)).toNat = k := by omega
  unfold scaled
  rw [if_pos below, same]
  rfl

theorem scaled_natCast (fits : m < 2 ^ 64) :
    scaled m k =
      if k ≤ 308 then
        if (nearest m * tenTo k).isInf then none else some (nearest m * tenTo k)
      else if m = 0 then some 0
      else none := by
  have zero : (UInt64.ofNat m).toFloat == 0 ↔ m = 0 := Decimal.toFloat_beq_zero fits
  have above : ¬ (k : Int) < 0 := by omega
  have bound : (k : Int) ≤ 308 ↔ k ≤ 308 := by omega
  unfold scaled
  rw [if_neg above]
  simp only [bound, zero]
  split
  · rfl
  split
  · subst m
    rfl
  · rfl

/-- Whole numbers are scaled as they should be. -/
theorem scaled_eq_some_iff (fits : m < 2 ^ 64) : scaled m e = some x ↔ Scaled m e x := by
  constructor
  · intro done
    rcases lt_or_ge e 0 with below | above
    · obtain ⟨k, rfl⟩ : ∃ k : Nat, e = -k := ⟨(-e).toNat, by omega⟩
      have positive : 0 < k := by omega
      rw [scaled_neg positive, Option.some.injEq, divided_eq_iff positive] at done
      exact .lowered positive done
    · obtain ⟨k, rfl⟩ := Int.eq_ofNat_of_zero_le above
      rw [scaled_natCast fits] at done
      split at done
      · split at done <;> cases done
        rename_i small finite
        exact .raised small (Bool.eq_false_iff.mpr finite)
      · split at done <;> cases done
        rename_i great none
        exact .zero (Nat.lt_of_not_ge great) none
  · intro done
    cases done with
    | raised small finite => rw [scaled_natCast fits, if_pos small, finite]; rfl
    | lowered positive quotient =>
      rw [scaled_neg positive, Option.some.injEq, divided_eq_iff positive]
      exact quotient
    | zero great none => rw [scaled_natCast fits, if_neg (Nat.not_le_of_gt great), if_pos none]

/-- A whole number is what it is times one. -/
theorem scaled_zero (fits : m < 2 ^ 64) : scaled m 0 = some (nearest m) := by
  have one : nearest m * tenTo 0 = nearest m := Decimal.toFloat_mul_one fits
  have finite : (nearest m).isInf = false := Decimal.isInf_toFloat fits
  have done := scaled_natCast (k := 0) fits
  rw [if_pos (Nat.zero_le _), one, finite] at done
  exact done

/-! ## Numbers -/

/-- The sign of a number is that of its float. -/
theorem Number.toFloat_integer (fits : m < 2 ^ 64) :
    (n.integer m).toFloat = if n.negative then -nearest m else nearest m := by
  unfold integer
  cases n.negative with
  | false => rfl
  | true =>
    rw [if_neg (by decide), if_pos rfl]
    split
    · rfl
    · rename_i some
      rw [not_or] at some
      have below : -(m : Int) < 0 := by omega
      rw [Quantity.toFloat, if_pos below, Int.natAbs_neg, Int.natAbs_natCast, nearest]

/-- All digits are appended if what they come to is within the limit. -/
theorem amount_le_of_absorb {limit : Nat} (fits : k ≤ limit)
    (all : (absorb limit k digits).2 = []) : amount k digits ≤ limit := by
  fun_induction absorb limit k digits with
  | case1 k => exact fits
  | case2 k d rest beyond => cases all
  | case3 k d rest within ih => exact ih (Nat.le_of_not_gt within) all

theorem Number.magnitude_of_small (small : n.power.natAbs < 2 ^ 31) :
    n.magnitude m e = scaled m (e + n.power) := by
  unfold power at small ⊢
  unfold magnitude
  cases exponent : n.exponent with
  | none => simp
  | some written =>
    obtain ⟨negative, digits⟩ := written
    simp only [exponent] at small ⊢
    have within : amount 0 digits ≤ exponentLimit := by
      rw [exponentLimit]
      cases negative <;> simp only [Bool.false_eq_true, if_true, if_false] at small <;> omega
    rw [absorb_of_le within]
    cases negative <;> simp [sub_eq_add_neg]

theorem Number.magnitude_of_great (great : 2 ^ 31 ≤ n.power.natAbs) :
    n.magnitude m e = if m = 0 ∨ n.power < 0 then some 0 else none := by
  unfold power at great ⊢
  unfold magnitude
  cases exponent : n.exponent with
  | none => simp [exponent] at great
  | some written =>
    obtain ⟨negative, digits⟩ := written
    simp only [exponent] at great ⊢
    have beyond : (absorb exponentLimit 0 digits).2.isEmpty = false := by
      refine Bool.eq_false_iff.mpr fun all => ?_
      have within := amount_le_of_absorb (Nat.zero_le _) (List.isEmpty_iff.mp all)
      rw [exponentLimit] at within
      cases negative <;> simp only [Bool.false_eq_true, if_true, if_false] at great <;> omega
    have below :
        (if negative then -(amount 0 digits : Int) else amount 0 digits) < 0 ↔ negative := by
      cases negative <;>
        simp only [Bool.false_eq_true, if_true, if_false, iff_true, iff_false] at great ⊢ <;> omega
    simp only [beyond, below, Bool.false_eq_true, if_false]

/-- The float of a number is its magnitude with its sign. -/
theorem Number.map_toFloat_quantity {dropped unread : List Nat}
    (before : absorb limit 0 n.whole = (k, dropped))
    (after : absorb limit k n.fraction = (m, unread)) (fits : m < 2 ^ 64) :
    n.quantity.map Quantity.toFloat =
      (n.magnitude m (dropped.length - (n.fraction.length - unread.length))).map fun x =>
        if n.negative then -x else x := by
  unfold quantity
  rw [before]
  dsimp only
  split
  · rename_i plain
    obtain ⟨no_dropped, no_fraction, no_exponent⟩ := plain
    rw [List.isEmpty_iff] at no_dropped no_fraction
    rw [no_fraction] at after
    cases after
    rw [magnitude, Option.isNone_iff_eq_none.mp no_exponent]
    simp [no_dropped, no_fraction, scaled_zero fits, toFloat_integer fits]
  · rw [after]
    dsimp only
    rw [Option.map_map]
    rfl

theorem Number.readAs_iff : n.ReadAs x ↔ n.quantity.map Quantity.toFloat = some x := by
  obtain ⟨⟨k, dropped⟩, before⟩ : ∃ r, absorb limit 0 n.whole = r := ⟨_, rfl⟩
  obtain ⟨⟨m, unread⟩, after⟩ : ∃ r, absorb limit k n.fraction = r := ⟨_, rfl⟩
  have gathered := gathered_of_absorb before after
  have fits := gathered.fits
  rw [map_toFloat_quantity before after fits, Option.map_eq_some_iff]
  constructor
  · rintro (⟨gathered', small, scaled⟩ | ⟨gathered', great, none⟩)
    · obtain ⟨rfl, rfl⟩ := gathered'.absorbed before after
      exact ⟨_, by rwa [magnitude_of_small small, scaled_eq_some_iff fits], rfl⟩
    · obtain ⟨rfl, rfl⟩ := gathered'.absorbed before after
      exact ⟨0, by rw [magnitude_of_great great, if_pos none], rfl⟩
  · rintro ⟨x, done, rfl⟩
    rcases Nat.lt_or_ge n.power.natAbs (2 ^ 31) with small | great
    · rw [magnitude_of_small small, scaled_eq_some_iff fits] at done
      exact .scaled gathered small done
    · rw [magnitude_of_great great] at done
      split at done <;> cases done
      rename_i none
      exact .vanished gathered great none

/-- No number is read as two floats. -/
theorem Number.ReadAs.unique (readAs : n.ReadAs x) (other : n.ReadAs y) : y = x :=
  Option.some.inj ((readAs_iff.mp other).symm.trans (readAs_iff.mp readAs))

/-! ## Reading -/

theorem readFloat_eq_ok {ts rest : List Token} (reads : readFloat ts = .ok (x, rest)) :
    ∃ n : Number, ts = .number n :: rest ∧ n.quantity.map Quantity.toFloat = some x := by
  unfold readFloat at reads
  split at reads
  · split at reads <;> cases reads
    rename_i stands
    exact ⟨_, rfl, by rw [stands]; rfl⟩
  · cases reads

/-- Exactly the numbers that have a float are read. -/
theorem readFloat_takes : readFloat.Takes Literal where
  complete formed own us := by
    obtain ⟨n, written, readAs⟩ := own
    obtain ⟨quantity, stands, rfl⟩ := Option.map_eq_some_iff.mp (Number.readAs_iff.mp readAs)
    have number := tokensOf_number written .nil
    rw [List.append_nil] at number
    rw [number, tokensOf_nil]
    simp [readFloat, stands]
  sound reads := by
    obtain ⟨n, number, stands⟩ := readFloat_eq_ok reads
    obtain ⟨front, rest, written, leads, others⟩ := tokensOf_eq_cons number id
    cases written with
    | number written =>
      exact ⟨front, rest, .number written.numeric, ⟨n, written, Number.readAs_iff.mpr stands⟩,
        leads, others⟩

end Interlock.Json
