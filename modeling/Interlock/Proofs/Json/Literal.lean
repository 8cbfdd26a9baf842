import Interlock.Json.Token
import Interlock.Proofs.Json.Grammar

/-!
# Number literals

A number is written with its digits one by one, so the characters that write it differ at most in
the mark and in the sign of the exponent (`Number.Written`). The scanner takes these characters and
no others: it takes all of them if nothing goes on after them (`scanNumber_append`), and whatever it
takes for a number is written so (`scanNumber_cases`).
-/

namespace Interlock.Json

/-! ## What is written -/

/-- What the digits are worth, one by one. -/
def digitValues (cs : List Char) : List Nat :=
  cs.map fun c => c.toNat - '0'.toNat

/-- The characters write digits after a point, or there are none and no point. -/
inductive Decimals : List Nat → List Char → Prop where
  | absent : Decimals [] []
  | present {digits : List Char} (after : Digits digits) :
    Decimals (digitValues digits) ('.' :: digits)

/-- The characters write an exponent: whether it is negative, and its digits. -/
inductive Power : Option (Bool × List Nat) → List Char → Prop where
  | absent : Power none []
  | present {mark : Char} {sign digits : List Char} (marked : mark ∈ ['e', 'E'])
    (signed : sign ∈ [[], ['+'], ['-']]) (after : Digits digits) :
    Power (some (decide (sign = ['-']), digitValues digits)) (mark :: (sign ++ digits))

/-- The characters write the number. -/
inductive Number.Written : Number → List Char → Prop where
  | mk {sign whole decimals power : List Char} {fraction : List Nat}
    {exponent : Option (Bool × List Nat)} (signed : sign ∈ [[], ['-']]) (before : Whole whole)
    (after : Decimals fraction decimals) (scaled : Power exponent power) :
    Number.Written ⟨decide (sign = ['-']), digitValues whole, fraction, exponent⟩
      (sign ++ (whole ++ (decimals ++ power)))

theorem Number.Written.numeric {n : Number} {cs : List Char} (written : n.Written cs) :
    Numeric cs := by
  obtain ⟨signed, before, after, scaled⟩ := written
  refine .mk signed before ?_ ?_
  · cases after with
    | absent => exact .absent
    | present after => exact .present after
  · cases scaled with
    | absent => exact .absent
    | present marked signed after => exact .present marked signed after

theorem Fraction.exists_decimals {cs : List Char} (fraction : Fraction cs) :
    ∃ values, Decimals values cs := by
  cases fraction with
  | absent => exact ⟨_, .absent⟩
  | present after => exact ⟨_, .present after⟩

theorem Exponent.exists_power {cs : List Char} (exponent : Exponent cs) :
    ∃ values, Power values cs := by
  cases exponent with
  | absent => exact ⟨_, .absent⟩
  | present marked signed after => exact ⟨_, .present marked signed after⟩

theorem Numeric.exists_written {cs : List Char} (numeric : Numeric cs) :
    ∃ n : Number, n.Written cs := by
  obtain ⟨signed, before, after, scaled⟩ := numeric
  obtain ⟨_, decimals⟩ := after.exists_decimals
  obtain ⟨_, power⟩ := scaled.exists_power
  exact ⟨_, .mk signed before decimals power⟩

/-! ## Digits -/

/-- No number goes on with these characters. -/
def Stops (rest : List Char) : Prop :=
  ∀ c ∈ rest.head?, c.isDigit = false ∧ c ∉ ['.', 'e', 'E']

theorem Stops.nil : Stops [] := nofun

theorem Stops.cons {c : Char} (stop : c.isDigit = false ∧ c ∉ ['.', 'e', 'E']) (rest : List Char) :
    Stops (c :: rest) := by
  rintro _ ⟨⟩
  exact stop

theorem Stops.blanks {blanks rest : List Char} (stops : Stops rest) (blank : Blanks blanks) :
    Stops (blanks ++ rest) := by
  cases blanks with
  | nil => exact stops
  | cons c blanks =>
    have first := (List.forall_mem_cons.mp blank).1
    refine .cons ?_ _
    simp only [List.mem_cons, List.not_mem_nil, or_false] at first
    rcases first with rfl | rfl | rfl | rfl
    all_goals decide

theorem scanDigits_append {digits rest : List Char} (all : ∀ c ∈ digits, c.isDigit)
    (others : ∀ c ∈ rest.head?, c.isDigit = false) :
    scanDigits (digits ++ rest) = (digitValues digits, rest) := by
  have taken : (digits ++ rest).takeWhile Char.isDigit = digits := by
    rw [List.takeWhile_append_of_pos all]
    cases rest with
    | nil => simp
    | cons c rest => simp [others c rfl]
  have left : (digits ++ rest).dropWhile Char.isDigit = rest := by
    rw [List.dropWhile_append_of_pos all]
    cases rest with
    | nil => simp
    | cons c rest => simp [others c rfl]
  rw [scanDigits, taken, left, digitValues]

theorem digitValues_ne_nil {digits : List Char} (some_digit : Digits digits) :
    digitValues digits ≠ [] := by
  simpa [digitValues] using some_digit.1

/-- No zero is the first of several digits. -/
theorem digitValues_ne_zero_cons {digits : List Char} (whole : Whole digits) (v : Nat)
    (vs : List Nat) : digitValues digits ≠ 0 :: v :: vs := by
  obtain ⟨⟨-, digit⟩, minimal⟩ := whole
  intro values
  obtain ⟨c, cs, rfl⟩ : ∃ c cs, digits = c :: cs :=
    List.exists_cons_of_ne_nil (by rintro rfl; cases values)
  obtain ⟨first, others⟩ := List.cons.inj values
  have zero : c = '0' := by
    obtain ⟨lower, -⟩ := Char.isDigit_iff_toNat.mp (digit c List.mem_cons_self)
    exact Char.toNat_inj.mp (Nat.le_antisymm (Nat.sub_eq_zero_iff_le.mp first) lower)
  obtain rfl := (List.cons.inj (minimal (by rw [zero]; rfl))).2
  cases others

/-- Digits are those of a whole number if no zero is the first of several. -/
theorem whole_of_digitValues {digits : List Char} (some_digit : Digits digits)
    (minimal : ∀ v vs, digitValues digits ≠ 0 :: v :: vs) : Whole digits := by
  refine ⟨some_digit, fun zero => ?_⟩
  cases digits with
  | nil => cases zero
  | cons c cs =>
    obtain rfl := Option.some.inj zero
    cases cs with
    | nil => rfl
    | cons d ds => exact absurd rfl (minimal _ _)

/-- Digits at the front are taken. -/
theorem afterDigits_append {digits rest : List Char} (some_digit : Digits digits)
    (others : ∀ c ∈ rest.head?, c.isDigit = false)
    (next : List Nat → List Char → Token × List Char) :
    afterDigits next (digits ++ rest) = next (digitValues digits) rest := by
  rw [afterDigits, scanDigits_append some_digit.2 others]
  split
  · rename_i nothing
    exact absurd (Prod.mk.inj nothing).1 (digitValues_ne_nil some_digit)
  · rename_i same
    obtain ⟨rfl, rfl⟩ := Prod.mk.inj same
    rfl

/-- The token tells that its characters break the grammar. -/
def Token.IsBroken : Token → Prop
  | .broken .. | .brokenText .. => True
  | _ => False

/-- There are digits at the front, or the token is broken. -/
theorem afterDigits_cases (next : List Nat → List Char → Token × List Char) (cs : List Char) :
    (afterDigits next cs).1.IsBroken ∨
      ∃ digits rest, Digits digits ∧ cs = digits ++ rest ∧
        afterDigits next cs = next (digitValues digits) rest := by
  unfold afterDigits
  split
  · exact .inl trivial
  · rename_i digits rest some_digit scanned
    obtain ⟨rfl, rfl⟩ := Prod.mk.inj scanned
    refine .inr ⟨cs.takeWhile Char.isDigit, cs.dropWhile Char.isDigit, ⟨?_, ?_⟩,
      List.takeWhile_append_dropWhile.symm, rfl⟩
    · intro none
      exact some_digit (by rw [none]; rfl)
    · exact List.all_eq_true.mp List.all_takeWhile

/-! ## The parts of a number -/

/-- The characters of an exponent are taken. -/
theorem scanExponent_append {exponent : Option (Bool × List Nat)} {power rest : List Char}
    (scaled : Power exponent power) (stops : Stops rest) (negative : Bool)
    (whole fraction : List Nat) :
    scanExponent negative whole fraction (power ++ rest) =
      (.number ⟨negative, whole, fraction, exponent⟩, rest) := by
  cases scaled with
  | absent =>
    rw [List.nil_append, scanExponent]
    all_goals
      rintro _ rfl
      simpa using stops _ rfl
  | @present mark sign digits marked signed after =>
    have taken := afterDigits_append after fun c first => (stops c first).1
    obtain ⟨d, ds, rfl⟩ := List.exists_cons_of_ne_nil after.1
    have no_sign : d ≠ '-' ∧ d ≠ '+' := by
      have digit := after.2 d List.mem_cons_self
      constructor <;> rintro rfl <;> cases digit
    simp only [List.mem_cons, List.not_mem_nil, or_false] at marked signed
    rcases marked with rfl | rfl <;> rcases signed with rfl | rfl | rfl
    all_goals simp_all [scanExponent]

/-- An exponent, or what follows a number without one, begins neither with a digit nor with a
point. -/
theorem Power.stops {exponent : Option (Bool × List Nat)} {power rest : List Char}
    (scaled : Power exponent power) (stops : Stops rest) :
    ∀ c ∈ (power ++ rest).head?, c.isDigit = false ∧ c ≠ '.' := by
  cases scaled with
  | absent =>
    intro c first
    obtain ⟨no_digit, other⟩ := stops c first
    exact ⟨no_digit, fun point => other (point ▸ List.mem_cons_self)⟩
  | present marked =>
    rintro c ⟨⟩
    simp only [List.mem_cons, List.not_mem_nil, or_false] at marked
    rcases marked with rfl | rfl
    all_goals decide

theorem scanFraction_append {fraction : List Nat} {exponent : Option (Bool × List Nat)}
    {decimals power rest : List Char} (after : Decimals fraction decimals)
    (scaled : Power exponent power) (stops : Stops rest) (negative : Bool) (whole : List Nat) :
    scanFraction negative whole (decimals ++ (power ++ rest)) =
      (.number ⟨negative, whole, fraction, exponent⟩, rest) := by
  have others := scaled.stops stops
  cases after with
  | absent =>
    rw [List.nil_append, scanFraction, scanExponent_append scaled stops]
    rintro rest point
    exact (others '.' (by rw [point]; rfl)).2 rfl
  | present after =>
    rw [List.cons_append, scanFraction, afterDigits_append after fun c first => (others c first).1,
      scanExponent_append scaled stops]

/-- The characters of a number after its sign are taken. -/
theorem scanNumber_append {fraction : List Nat} {exponent : Option (Bool × List Nat)}
    {whole decimals power rest : List Char} (before : Whole whole)
    (after : Decimals fraction decimals) (scaled : Power exponent power) (stops : Stops rest)
    (negative : Bool) :
    scanNumber negative (whole ++ (decimals ++ (power ++ rest))) =
      (.number ⟨negative, digitValues whole, fraction, exponent⟩, rest) := by
  have others : ∀ c ∈ (decimals ++ (power ++ rest)).head?, c.isDigit = false := by
    cases after with
    | absent => exact fun c first => (scaled.stops stops c first).1
    | present =>
      rintro c ⟨⟩
      rfl
  rw [scanNumber, afterDigits_append before.1 others]
  split
  · rename_i padded
    exact absurd padded (digitValues_ne_zero_cons before _ _)
  · exact scanFraction_append after scaled stops ..

/-! ## Back from what is taken -/

theorem scanExponent_cases (negative : Bool) (whole fraction : List Nat) (cs : List Char) :
    (scanExponent negative whole fraction cs).1.IsBroken ∨
      ∃ exponent power rest, Power exponent power ∧ cs = power ++ rest ∧
        scanExponent negative whole fraction cs =
          (.number ⟨negative, whole, fraction, exponent⟩, rest) := by
  have signed (mark : Char) (sign rest : List Char) (marked : mark ∈ ['e', 'E'])
      (known : sign ∈ [[], ['+'], ['-']]) :
      let scanned := afterDigits (fun digits rest =>
        (.number ⟨negative, whole, fraction, some (decide (sign = ['-']), digits)⟩, rest)) rest
      scanned.1.IsBroken ∨
        ∃ exponent power left, Power exponent power ∧ mark :: (sign ++ rest) = power ++ left ∧
          scanned = (.number ⟨negative, whole, fraction, exponent⟩, left) := by
    refine (afterDigits_cases _ rest).imp_right ?_
    rintro ⟨digits, left, some_digit, rfl, taken⟩
    refine ⟨_, _, left, .present marked known some_digit, ?_, taken⟩
    rw [List.cons_append, List.append_assoc]
  unfold scanExponent
  split
  · exact signed 'e' ['-'] _ (by decide) (by decide)
  · exact signed 'E' ['-'] _ (by decide) (by decide)
  · exact signed 'e' ['+'] _ (by decide) (by decide)
  · exact signed 'E' ['+'] _ (by decide) (by decide)
  · exact signed 'e' [] _ (by decide) (by decide)
  · exact signed 'E' [] _ (by decide) (by decide)
  · exact .inr ⟨none, [], _, .absent, rfl, rfl⟩

theorem scanFraction_cases (negative : Bool) (whole : List Nat) (cs : List Char) :
    (scanFraction negative whole cs).1.IsBroken ∨
      ∃ fraction exponent decimals power rest, Decimals fraction decimals ∧
        Power exponent power ∧ cs = decimals ++ (power ++ rest) ∧
        scanFraction negative whole cs = (.number ⟨negative, whole, fraction, exponent⟩, rest) := by
  unfold scanFraction
  split
  · rename_i rest
    rcases afterDigits_cases (scanExponent negative whole) rest with
      broken | ⟨digits, left, some_digit, rfl, taken⟩
    · exact .inl broken
    · rw [taken]
      refine (scanExponent_cases ..).imp_right ?_
      rintro ⟨exponent, power, rest, scaled, rfl, same⟩
      exact ⟨_, exponent, _, power, rest, .present some_digit, scaled, rfl, same⟩
  · refine (scanExponent_cases ..).imp_right ?_
    rintro ⟨exponent, power, rest, scaled, rfl, same⟩
    exact ⟨[], exponent, [], power, rest, .absent, scaled, rfl, same⟩

/-- What is taken for a number after its sign is broken, or it is a number as it is written. -/
theorem scanNumber_cases (negative : Bool) (cs : List Char) :
    (scanNumber negative cs).1.IsBroken ∨
      ∃ fraction exponent whole decimals power rest, Whole whole ∧ Decimals fraction decimals ∧
        Power exponent power ∧ cs = whole ++ (decimals ++ (power ++ rest)) ∧
        scanNumber negative cs =
          (.number ⟨negative, digitValues whole, fraction, exponent⟩, rest) := by
  rw [scanNumber]
  rcases afterDigits_cases _ cs with broken | ⟨digits, left, some_digit, rfl, taken⟩
  · exact .inl broken
  · rw [taken]
    split
    · exact .inl trivial
    · rename_i minimal
      refine (scanFraction_cases ..).imp_right ?_
      rintro ⟨fraction, exponent, decimals, power, rest, after, scaled, rfl, same⟩
      exact ⟨fraction, exponent, digits, decimals, power, rest,
        whole_of_digitValues some_digit minimal, after, scaled, rfl, same⟩

end Interlock.Json
