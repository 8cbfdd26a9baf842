import Interlock.Proofs.Json.Record

/-!
# Whole numbers

A number that is written without sign, point and exponent is a whole number, and the only way to
write it so is its decimal representation. The reader of integers takes these numbers and no other
value, as long as they fit.
-/

namespace Interlock.Json

/-! ## Decimal digits -/

theorem whole_toDigits (n : Nat) : Whole (Nat.toDigits 10 n) := by
  refine ⟨⟨Nat.toDigits_ne_nil, fun c => Nat.isDigit_of_mem_toDigits (by decide) (by decide)⟩, ?_⟩
  induction n using Nat.strongRecOn with
  | ind n ih =>
    intro zero
    rcases Nat.lt_or_ge n 10 with small | large
    · rw [Nat.toDigits_of_lt_base small] at zero ⊢
      rw [Option.some.inj zero]
    · -- the digits before the last one are not those of zero
      rw [Nat.toDigits_of_base_le (by decide) large,
        List.head?_append_of_ne_nil _ Nat.toDigits_ne_nil] at zero
      have front := congrArg (Nat.ofDigitChars 10 · 0) (ih (n / 10) (by omega) zero)
      simp only [Nat.ofDigitChars_ten_toDigits] at front
      have none : n / 10 = 0 := front
      omega

theorem toList_toString (n : Nat) : (toString n).toList = Nat.toDigits 10 n := by
  rw [Nat.toString_eq_ofList_toDigits, String.toList_ofList]

/-- A decimal representation is a value. -/
theorem forms_toString (n : Nat) : Forms .value (toString n).toList := by
  have numeric : Numeric ([] ++ (Nat.toDigits 10 n ++ ([] ++ []))) :=
    .mk (by decide) (whole_toDigits n) .absent .absent
  rw [toList_toString]
  simpa using Forms.number numeric

theorem digit_worth {c : Char} (digit : c.isDigit) :
    c.toNat - '0'.toNat < 10 ∧ Nat.digitChar (c.toNat - '0'.toNat) = c := by
  obtain ⟨lower, upper⟩ := Char.isDigit_iff_toNat.mp digit
  have bounds : '0'.toNat = 48 ∧ '9'.toNat = 57 := ⟨rfl, rfl⟩
  have small : c.toNat - '0'.toNat < 10 := by omega
  refine ⟨small, Char.toNat_inj.mp ?_⟩
  rw [Nat.toNat_digitChar_of_lt_ten small]
  omega

/-- More digits after those of a positive number. -/
theorem toDigits_append {n : Nat} (positive : 0 < n) {cs : List Char}
    (digits : ∀ c ∈ cs, c.isDigit) :
    Nat.toDigits 10 n ++ cs = Nat.toDigits 10 (Nat.ofDigitChars 10 cs n) := by
  induction cs generalizing n with
  | nil => rw [List.append_nil, Nat.ofDigitChars_nil]
  | cons c cs ih =>
    obtain ⟨digit, others⟩ := List.forall_mem_cons.mp digits
    obtain ⟨small, same⟩ := digit_worth digit
    have last := Nat.toDigits_append_toDigits (by decide) positive small
    rw [Nat.toDigits_of_lt_base small, same] at last
    rw [Nat.ofDigitChars_cons, ← ih (by omega) others, ← last, List.append_assoc,
      List.singleton_append]

/-- The digits of a whole number are the decimal representation of what they stand for. -/
theorem toDigits_ofDigitChars {cs : List Char} (whole : Whole cs) :
    Nat.toDigits 10 (Nat.ofDigitChars 10 cs 0) = cs := by
  obtain ⟨⟨some_digit, digits⟩, minimal⟩ := whole
  obtain ⟨c, cs, rfl⟩ := List.exists_cons_of_ne_nil some_digit
  obtain ⟨digit, others⟩ := List.forall_mem_cons.mp digits
  by_cases zero : c = '0'
  · subst zero
    rw [minimal rfl]
    rfl
  · obtain ⟨small, same⟩ := digit_worth digit
    have positive : 0 < c.toNat - '0'.toNat := by
      refine Nat.pos_of_ne_zero fun none => zero ?_
      rw [← same, none]
      rfl
    rw [Nat.ofDigitChars_cons, Nat.mul_zero, Nat.zero_add, ← toDigits_append positive others,
      Nat.toDigits_of_lt_base small, same, List.singleton_append]

/-! ## Quantities -/

/-- The number that digits stand for, after the digits of `n`. -/
def amount (n : Nat) (digits : List Nat) : Nat :=
  digits.foldl (fun n d => n * 10 + d) n

theorem amount_digitValues (n : Nat) (cs : List Char) :
    amount n (digitValues cs) = Nat.ofDigitChars 10 cs n := by
  rw [amount, digitValues, List.foldl_map, Nat.ofDigitChars_eq_foldl]
  simp only [Nat.mul_comm]

theorem le_amount (n : Nat) (digits : List Nat) : n ≤ amount n digits := by
  induction digits generalizing n with
  | nil => exact Nat.le_refl n
  | cons d digits ih =>
    have more := ih (n * 10 + d)
    rw [amount, List.foldl_cons, ← amount]
    omega

theorem absorb_eq {limit n : Nat} {digits : List Nat} (all : (absorb limit n digits).2 = []) :
    (absorb limit n digits).1 = amount n digits := by
  fun_induction absorb limit n digits with
  | case1 n => rfl
  | case2 n d rest beyond => cases all
  | case3 n d rest within ih => exact ih all

theorem absorb_of_le {limit n : Nat} {digits : List Nat} (fits : amount n digits ≤ limit) :
    absorb limit n digits = (amount n digits, []) := by
  fun_induction absorb limit n digits with
  | case1 n => rfl
  | case2 n d rest beyond =>
    have more := le_amount (n * 10 + d) rest
    exact absurd (Nat.le_trans more fits) (Nat.not_le_of_gt beyond)
  | case3 n d rest within ih => exact ih fits

namespace Number

variable {n : Number} {k : Nat}

/-- Only a number that is written as a whole number stands for one. -/
theorem plain_of_quantity (unsigned : n.quantity = some (.unsigned k)) :
    n.IsPlain ∧ amount 0 n.whole = k := by
  simp only [quantity] at unsigned
  split at unsigned
  case isTrue written =>
    obtain ⟨nothing, no_fraction, no_exponent⟩ := written
    have whole := absorb_eq (List.isEmpty_iff.mp nothing)
    rw [Option.some.injEq, whole, integer] at unsigned
    split at unsigned
    · rename_i positive
      refine ⟨⟨by simpa using positive, List.isEmpty_iff.mp no_fraction,
        Option.isNone_iff_eq_none.mp no_exponent⟩, Quantity.unsigned.inj unsigned⟩
    · split at unsigned <;> cases unsigned
  case isFalse =>
    obtain ⟨f, -, real⟩ := Option.map_eq_some_iff.mp unsigned
    cases real

theorem quantity_of_plain (plain : n.IsPlain) (fits : amount 0 n.whole ≤ limit) :
    n.quantity = some (.unsigned (amount 0 n.whole)) := by
  obtain ⟨positive, no_fraction, no_exponent⟩ := plain
  simp [quantity, absorb_of_le fits, no_fraction, no_exponent, integer, positive]

end Number

/-! ## Integers of 32 bits -/

theorem readUInt32_eq_ok {ts rest : List Token} {k : UInt32}
    (reads : readUInt32 ts = .ok (k, rest)) :
    ∃ n : Number, ts = .number n :: rest ∧ n.quantity = some (.unsigned k.toNat) := by
  unfold readUInt32 at reads
  split at reads
  case h_1 n rest =>
    split at reads
    case h_1 j unsigned =>
      split at reads <;> cases reads
      rename_i fits
      refine ⟨n, rfl, ?_⟩
      rw [unsigned, UInt32.toNat_ofNat_of_lt' fits]
    all_goals cases reads
  case h_2 => cases reads

theorem readUInt32_whole : readUInt32.Whole := by
  intro ts composes rest
  cases composes with
  | number n =>
    simp only [readUInt32, List.cons_append, List.nil_append]
    split
    · split <;> rfl
    all_goals rfl
  | _ => rfl

theorem readUInt32_toString (k : UInt32) :
    readUInt32 (tokens (toString k.toNat)) = .ok (k, []) := by
  have number : tokens (toString k.toNat) = _ :=
    (congrArg tokensOf (toList_toString k.toNat)).trans (tokensOf_whole (whole_toDigits k.toNat))
  have worth : amount 0 (digitValues (Nat.toDigits 10 k.toNat)) = k.toNat := by
    rw [amount_digitValues, Nat.ofDigitChars_ten_toDigits]
  have small : k.toNat < UInt32.size := k.toNat_lt
  have quantity := Number.quantity_of_plain
    (n := ⟨false, digitValues (Nat.toDigits 10 k.toNat), [], none⟩) ⟨rfl, rfl, rfl⟩
    (by rw [worth]; exact Nat.le_of_lt (Nat.lt_of_lt_of_le small (by decide)))
  rw [worth] at quantity
  simp only [number, readUInt32, quantity, if_pos small, UInt32.ofNat_toNat]

/-- A value whose first token is a number is written as a number. -/
theorem numeric_of_tokens {cs : List Char} (formed : Forms .value cs) {n : Number}
    {rest : List Token} (number : tokensOf cs = .number n :: rest) : Numeric cs := by
  cases formed with
  | number numeric => exact numeric
  | text quotable =>
    obtain ⟨contents, cut⟩ := tokensOf_quotable quotable
    rw [cut] at number
    cases number
  | null | yes | no => cases number
  | emptySequence | sequence =>
    rw [tokensOf_openBracket] at number
    cases number
  | emptyMapping | mapping =>
    rw [tokensOf_openBrace] at number
    cases number

/-- Exactly the decimal representations of the integers of 32 bits are read. -/
theorem readUInt32_eq_ok_iff {value : String} (formed : Forms .value value.toList) {k : UInt32} :
    (·.1) <$> readUInt32 (tokens value) = .ok k ↔ value = toString k.toNat := by
  constructor
  · intro read
    obtain ⟨rest, reads⟩ : ∃ rest, readUInt32 (tokens value) = .ok (k, rest) := by
      cases found : readUInt32 (tokens value) with
      | error problem =>
        rw [found] at read
        cases read
      | ok pair =>
        rw [found] at read
        cases read
        exact ⟨pair.2, rfl⟩
    obtain ⟨n, number, unsigned⟩ := readUInt32_eq_ok reads
    obtain ⟨plain, worth⟩ := Number.plain_of_quantity unsigned
    obtain ⟨n', written⟩ := (numeric_of_tokens formed number).exists_written
    have only : tokensOf value.toList = [.number n'] := by simpa using tokensOf_number written .nil
    obtain ⟨⟨⟩, rfl⟩ := List.cons.inj (only.symm.trans number)
    obtain ⟨whole, values⟩ := written.whole_of_isPlain plain
    rw [values, amount_digitValues] at worth
    have digits := toDigits_ofDigitChars whole
    rw [worth] at digits
    rw [Nat.toString_eq_ofList_toDigits, digits, String.ofList_toList]
  · rintro rfl
    rw [readUInt32_toString]
    rfl

end Interlock.Json
