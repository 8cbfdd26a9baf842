import Mathlib.Data.List.Basic

/-!
# The grammar of JSON

What is well formed, said of the characters alone, without the tokens that a reader cuts them
into. `Forms` derives values, and the items and members inside them, from the rules of the
grammar. `Mapping` derives a whole text that is a mapping and keeps what its members are: each has
a name, which is what the characters between the quotes stand for, and a value, which is kept as
it is written.

Any escaped units are well formed between quotes. They stand for something only if the surrogates
among them are paired, so that is asked of the names in a `Mapping` and of no other text.
-/

namespace Interlock.Json

/-- Characters that may stand between the parts of a value. -/
def Blanks (cs : List Char) : Prop :=
  ∀ c ∈ cs, c ∈ [' ', '\t', '\n', '\r']

instance (cs : List Char) : Decidable (Blanks cs) :=
  List.decidableBAll _ cs

theorem Blanks.nil : Blanks [] := nofun

theorem Blanks.append {cs rest : List Char} (blank : Blanks cs) (blank' : Blanks rest) :
    Blanks (cs ++ rest) :=
  fun c member => (List.mem_append.mp member).elim (blank c) (blank' c)

/-! ## Numbers -/

/-- One digit or more. -/
def Digits (cs : List Char) : Prop :=
  cs ≠ [] ∧ ∀ c ∈ cs, c.isDigit

instance (cs : List Char) : Decidable (Digits cs) :=
  have : Decidable (∀ c ∈ cs, c.isDigit) := List.decidableBAll _ cs
  inferInstanceAs (Decidable (_ ∧ _))

/-- The digits of a whole number. No zero stands before another digit. -/
def Whole (cs : List Char) : Prop :=
  Digits cs ∧ (cs.head? = some '0' → cs = ['0'])

instance (cs : List Char) : Decidable (Whole cs) :=
  inferInstanceAs (Decidable (_ ∧ (_ → _)))

inductive Fraction : List Char → Prop where
  | absent : Fraction []
  | present {digits : List Char} (after : Digits digits) : Fraction ('.' :: digits)

inductive Exponent : List Char → Prop where
  | absent : Exponent []
  | present {mark : Char} {sign digits : List Char} (marked : mark ∈ ['e', 'E'])
    (signed : sign ∈ [[], ['+'], ['-']]) (after : Digits digits) :
    Exponent (mark :: (sign ++ digits))

inductive Numeric : List Char → Prop where
  | mk {sign whole fraction exponent : List Char} (signed : sign ∈ [[], ['-']])
    (before : Whole whole) (after : Fraction fraction) (scaled : Exponent exponent) :
    Numeric (sign ++ (whole ++ (fraction ++ exponent)))

/-! ## Texts -/

/-- The character is the hexadecimal digit of a value, in either case. -/
def HexDigit (value : Nat) (c : Char) : Prop :=
  "0123456789abcdef".toList[value]? = some c ∨ "0123456789ABCDEF".toList[value]? = some c

/-- Four hexadecimal digits and what they amount to. -/
inductive HexDigits : List Char → Nat → Prop where
  | mk {p q r s : Nat} {a b c d : Char} (first : HexDigit p a) (second : HexDigit q b)
    (third : HexDigit r c) (fourth : HexDigit s d) :
    HexDigits [a, b, c, d] (((p * 16 + q) * 16 + r) * 16 + s)

/-- The letters that may follow a backslash, with the characters that they stand for. -/
def escapes : List (Char × Char) :=
  [('"', '"'), ('\\', '\\'), ('/', '/'), ('b', '\x08'), ('f', '\x0c'), ('n', '\n'), ('r', '\r'),
    ('t', '\t')]

/-- The character stands for itself between quotes. -/
def Plain (c : Char) : Prop :=
  ' ' ≤ c ∧ c ≠ '"' ∧ c ≠ '\\'

instance (c : Char) : Decidable (Plain c) :=
  inferInstanceAs (Decidable (_ ∧ _))

/-- The characters between quotes are well formed. -/
inductive Quotable : List Char → Prop where
  | nil : Quotable []
  | plain {c : Char} {cs : List Char} (plain : Plain c) (rest : Quotable cs) : Quotable (c :: cs)
  | escape {letter c : Char} {cs : List Char} (known : (letter, c) ∈ escapes)
    (rest : Quotable cs) : Quotable ('\\' :: letter :: cs)
  | unit {digits cs : List Char} {unit : Nat} (value : HexDigits digits unit)
    (rest : Quotable cs) : Quotable ('\\' :: 'u' :: (digits ++ cs))

/-- The characters between quotes stand for the given ones. A character that needs two units is
escaped as its two surrogates. -/
inductive Spells : List Char → List Char → Prop where
  | nil : Spells [] []
  | plain {c : Char} {cs contents : List Char} (plain : Plain c) (rest : Spells cs contents) :
    Spells (c :: cs) (c :: contents)
  | escape {letter c : Char} {cs contents : List Char} (known : (letter, c) ∈ escapes)
    (rest : Spells cs contents) : Spells ('\\' :: letter :: cs) (c :: contents)
  | unit {c : Char} {digits cs contents : List Char} (value : HexDigits digits c.toNat)
    (rest : Spells cs contents) : Spells ('\\' :: 'u' :: (digits ++ cs)) (c :: contents)
  | pair {c : Char} {high low cs contents : List Char} (two_units : 0x10000 ≤ c.toNat)
    (first : HexDigits high (0xd800 + (c.toNat - 0x10000) / 0x400))
    (second : HexDigits low (0xdc00 + (c.toNat - 0x10000) % 0x400)) (rest : Spells cs contents) :
    Spells ('\\' :: 'u' :: (high ++ ('\\' :: 'u' :: (low ++ cs)))) (c :: contents)

/-! ## Values -/

/-- The parts that the grammar has rules for. -/
inductive Part where
  | value
  /-- A value with the blanks around it. -/
  | element
  | elements
  | member
  | members
  deriving DecidableEq, Repr

/-- The characters form a part. -/
inductive Forms : Part → List Char → Prop where
  | null : Forms .value ['n', 'u', 'l', 'l']
  | yes : Forms .value ['t', 'r', 'u', 'e']
  | no : Forms .value ['f', 'a', 'l', 's', 'e']
  | number {cs : List Char} (numeric : Numeric cs) : Forms .value cs
  | text {cs : List Char} (quotable : Quotable cs) : Forms .value ('"' :: (cs ++ ['"']))
  | emptySequence {blanks : List Char} (blank : Blanks blanks) :
    Forms .value ('[' :: (blanks ++ [']']))
  | sequence {cs : List Char} (items : Forms .elements cs) : Forms .value ('[' :: (cs ++ [']']))
  | emptyMapping {blanks : List Char} (blank : Blanks blanks) :
    Forms .value ('{' :: (blanks ++ ['}']))
  | mapping {cs : List Char} (items : Forms .members cs) : Forms .value ('{' :: (cs ++ ['}']))
  | element {before value after : List Char} (blank_before : Blanks before)
    (formed : Forms .value value) (blank_after : Blanks after) :
    Forms .element (before ++ (value ++ after))
  | lastElement {cs : List Char} (last : Forms .element cs) : Forms .elements cs
  | elements {cs rest : List Char} (first : Forms .element cs) (more : Forms .elements rest) :
    Forms .elements (cs ++ ',' :: rest)
  | member {before name after cs : List Char} (blank_before : Blanks before)
    (quotable : Quotable name) (blank_after : Blanks after) (formed : Forms .element cs) :
    Forms .member (before ++ '"' :: (name ++ '"' :: (after ++ ':' :: cs)))
  | lastMember {cs : List Char} (last : Forms .member cs) : Forms .members cs
  | members {cs rest : List Char} (first : Forms .member cs) (more : Forms .members rest) :
    Forms .members (cs ++ ',' :: rest)

/-! ## Mappings -/

/-- A member of a mapping: its name, unescaped, and its value as it is written. -/
structure Member where
  name : String
  value : String
  deriving DecidableEq, Repr

/-- The characters write a member, with the blanks around its parts. -/
inductive Member.Written (m : Member) : List Char → Prop where
  | mk {before name between after ending : List Char} (blank_before : Blanks before)
    (spells : Spells name m.name.toList) (blank_between : Blanks between)
    (blank_after : Blanks after) (formed : Forms .value m.value.toList)
    (blank_ending : Blanks ending) :
    m.Written (before ++
      '"' :: (name ++ '"' :: (between ++ ':' :: (after ++ (m.value.toList ++ ending)))))

/-- The characters write members, with commas between them. -/
inductive Listed : List Member → List Char → Prop where
  | last {m : Member} {cs : List Char} (written : m.Written cs) : Listed [m] cs
  | more {m : Member} {ms : List Member} {cs rest : List Char} (written : m.Written cs)
    (listed : Listed ms rest) : Listed (m :: ms) (cs ++ ',' :: rest)

/-- The characters are a mapping with the given members, with blanks around it. -/
inductive Mapping : List Member → List Char → Prop where
  | empty {before between after : List Char} (blank_before : Blanks before)
    (blank_between : Blanks between) (blank_after : Blanks after) :
    Mapping [] (before ++ '{' :: (between ++ '}' :: after))
  | some {ms : List Member} {before cs after : List Char} (blank_before : Blanks before)
    (listed : Listed ms cs) (blank_after : Blanks after) :
    Mapping ms (before ++ '{' :: (cs ++ '}' :: after))

/-- Blanks around a mapping are part of the text. -/
theorem Mapping.padded {ms : List Member} {cs before after : List Char} (mapping : Mapping ms cs)
    (blank_before : Blanks before) (blank_after : Blanks after) :
    Mapping ms (before ++ (cs ++ after)) := by
  cases mapping with
  | empty blank blank_between blank' =>
    simpa using Mapping.empty (blank_before.append blank) blank_between (blank'.append blank_after)
  | some blank listed blank' =>
    simpa using Mapping.some (blank_before.append blank) listed (blank'.append blank_after)

theorem Member.Written.formed {m : Member} {cs : List Char} (written : m.Written cs) :
    Forms .value m.value.toList := by
  obtain ⟨-, -, -, -, formed, -⟩ := written
  exact formed

/-- Blanks after a member are part of it. -/
theorem Member.Written.behind {m : Member} {cs blanks : List Char} (written : m.Written cs)
    (blank : Blanks blanks) : m.Written (cs ++ blanks) := by
  obtain ⟨before, spells, between, after, formed, ending⟩ := written
  simpa using Member.Written.mk before spells between after formed (ending.append blank)

theorem Listed.formed {ms : List Member} {cs : List Char} (listed : Listed ms cs) :
    ∀ m ∈ ms, Forms .value m.value.toList := by
  induction listed with
  | last written => simpa using written.formed
  | more written _ ih => exact List.forall_mem_cons.mpr ⟨written.formed, ih⟩

/-- The values of a mapping are values. -/
theorem Mapping.formed {ms : List Member} {cs : List Char} (mapping : Mapping ms cs) :
    ∀ m ∈ ms, Forms .value m.value.toList := by
  cases mapping with
  | empty => nofun
  | some _ listed => exact listed.formed

/-! ## What is between quotes -/

/-- Characters that stand for themselves spell themselves. -/
theorem Spells.of_plain {cs : List Char} (plain : cs.all fun c => Plain c) : Spells cs cs := by
  induction cs with
  | nil => exact .nil
  | cons c cs ih =>
    rw [List.all_cons, Bool.and_eq_true, decide_eq_true_eq] at plain
    exact .plain plain.1 (ih plain.2)

theorem escape_ne_unit {letter c : Char} (known : (letter, c) ∈ escapes) : letter ≠ 'u' := by
  rintro rfl
  revert known
  simp [escapes]

/-- What has contents is well formed. -/
theorem Spells.quotable {cs contents : List Char} (spells : Spells cs contents) : Quotable cs := by
  induction spells with
  | nil => exact .nil
  | plain plain _ ih => exact .plain plain ih
  | escape known _ ih => exact .escape known ih
  | unit value _ ih => exact .unit value ih
  | pair _ first second _ ih => exact .unit first (.unit second ih)

/-- Members that are listed form the members of a mapping. -/
theorem Listed.forms {ms : List Member} {cs : List Char} (listed : Listed ms cs) :
    Forms .members cs := by
  have member {m : Member} {cs : List Char} (written : m.Written cs) : Forms .member cs := by
    obtain ⟨before, spells, between, after, formed, ending⟩ := written
    exact .member before spells.quotable between (.element after formed ending)
  induction listed with
  | last written => exact .lastMember (member written)
  | more written _ ih => exact .members (member written) ih

end Interlock.Json
