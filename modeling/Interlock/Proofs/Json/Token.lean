import Interlock.Proofs.Json.Literal

/-!
# The tokens of what is well formed

A text is cut into tokens one after the other, so a part of a text has its own tokens if it ends
where a token ends. That is so for every part that the grammar forms, except that a number goes on
as long as the characters after it let it (`Stops`). `Forms.cut` says for every part that its tokens
do not depend on what comes after it and that they are put together as the grammar puts together
the part (`Composes`); blanks have left no trace in them.
-/

namespace Interlock.Json

/-! ## Cutting -/

/-- The tokens of a list of characters. -/
def tokensOf (cs : List Char) : List Token :=
  tokensWithin cs.length cs

theorem length_scanDigits (cs : List Char) : (scanDigits cs).2.length ≤ cs.length :=
  (List.dropWhile_suffix _).length_le

theorem length_scanText (surrogates : Surrogates) (done cs : List Char) :
    (scanText surrogates done cs).2.length ≤ cs.length := by
  fun_induction scanText surrogates done cs
  all_goals
    simp only [List.length_cons, List.length_nil] at *
    omega

theorem length_scanWord (token : Token) (word cs : List Char) :
    (scanWord token word cs).2.length ≤ cs.length := by
  fun_induction scanWord token word cs
  all_goals
    simp only [List.length_cons, List.length_nil] at *
    omega

/-- What follows digits is no longer than what is left of it afterwards. -/
theorem length_afterDigits {next : List Nat → List Char → Token × List Char}
    (shorter : ∀ digits rest, (next digits rest).2.length ≤ rest.length) (cs : List Char) :
    (afterDigits next cs).2.length ≤ (scanDigits cs).2.length := by
  unfold afterDigits
  split
  · simp [missingDigit]
  · rename_i scanned
    rw [scanned]
    exact shorter ..

theorem length_scanExponent (negative : Bool) (whole fraction : List Nat) (cs : List Char) :
    (scanExponent negative whole fraction cs).2.length ≤ cs.length := by
  have signed (below : Bool) (cs : List Char) :
      (afterDigits (fun digits rest =>
        (.number ⟨negative, whole, fraction, some (below, digits)⟩, rest)) cs).2.length ≤
        cs.length :=
    Nat.le_trans (length_afterDigits (fun _ _ => Nat.le_refl _) cs) (length_scanDigits cs)
  unfold scanExponent
  split
  case h_7 => exact Nat.le_refl _
  all_goals
    refine Nat.le_trans (signed _ _) ?_
    simp only [List.length_cons]
    omega

theorem length_scanFraction (negative : Bool) (whole : List Nat) (cs : List Char) :
    (scanFraction negative whole cs).2.length ≤ cs.length := by
  unfold scanFraction
  split
  case h_1 rest =>
    have bound := length_afterDigits (length_scanExponent negative whole) rest
    exact Nat.le_succ_of_le (Nat.le_trans bound (length_scanDigits rest))
  case h_2 => exact length_scanExponent ..

theorem length_scanNumber (negative : Bool) (cs : List Char) :
    (scanNumber negative cs).2.length ≤ (scanDigits cs).2.length := by
  refine length_afterDigits (fun digits rest => ?_) cs
  split
  · exact Nat.zero_le _
  · exact length_scanFraction ..

/-- A token takes at least its first character. -/
theorem length_scanToken (c : Char) (rest : List Char) :
    (scanToken c rest).2.length ≤ rest.length := by
  unfold scanToken
  split
  case h_7 => exact length_scanText ..
  case h_8 => exact Nat.le_trans (length_scanNumber ..) (length_scanDigits rest)
  case h_9 | h_10 | h_11 => exact length_scanWord ..
  case h_12 =>
    split
    case isTrue digit =>
      refine Nat.le_trans (length_scanNumber ..) ?_
      simpa [scanDigits, digit] using length_scanDigits rest
    case isFalse => simp
  all_goals exact Nat.le_refl _

/-- More steps than there are characters change nothing. -/
theorem tokensWithin_of_le {fuel fuel' : Nat} {cs : List Char} (enough : cs.length ≤ fuel)
    (enough' : cs.length ≤ fuel') : tokensWithin fuel cs = tokensWithin fuel' cs := by
  induction fuel generalizing fuel' cs with
  | zero =>
    obtain rfl : cs = [] := List.length_eq_zero_iff.mp (Nat.le_zero.mp enough)
    cases fuel' <;> rfl
  | succ fuel ih =>
    cases cs with
    | nil => cases fuel' <;> rfl
    | cons c rest =>
      obtain ⟨fuel', rfl⟩ : ∃ n, fuel' = n + 1 :=
        Nat.exists_eq_add_of_le' (Nat.le_trans (by simp) enough')
      have shorter := length_scanToken c rest
      simp only [List.length_cons, Nat.add_le_add_iff_right] at enough enough'
      simp only [tokensWithin]
      split
      · exact ih enough enough'
      · rw [ih (Nat.le_trans shorter enough) (Nat.le_trans shorter enough')]

@[simp]
theorem tokensOf_nil : tokensOf [] = [] := rfl

theorem tokensOf_of_blank {c : Char} (blank : isBlank c) (cs : List Char) :
    tokensOf (c :: cs) = tokensOf cs := by
  simp [tokensOf, tokensWithin, blank]

/-- The first token, and the tokens of what follows it. -/
theorem tokensOf_cons {c : Char} (visible : isBlank c = false) (cs : List Char) :
    tokensOf (c :: cs) = (scanToken c cs).1 :: tokensOf (scanToken c cs).2 := by
  have same := tokensWithin_of_le (length_scanToken c cs) (Nat.le_refl _)
  simp [tokensOf, tokensWithin, visible, same]

theorem tokensOf_blanks {blanks : List Char} (blank : Blanks blanks) (cs : List Char) :
    tokensOf (blanks ++ cs) = tokensOf cs := by
  induction blanks with
  | nil => rfl
  | cons c blanks ih =>
    obtain ⟨first, others⟩ := List.forall_mem_cons.mp blank
    have is_blank : isBlank c := by
      simp only [List.mem_cons, List.not_mem_nil, or_false] at first
      rcases first with rfl | rfl | rfl | rfl <;> rfl
    rw [List.cons_append, tokensOf_of_blank is_blank, ih others]

@[simp]
theorem tokensOf_openBracket (cs : List Char) :
    tokensOf ('[' :: cs) = .openBracket :: tokensOf cs :=
  tokensOf_cons rfl cs

@[simp]
theorem tokensOf_closeBracket (cs : List Char) :
    tokensOf (']' :: cs) = .closeBracket :: tokensOf cs :=
  tokensOf_cons rfl cs

@[simp]
theorem tokensOf_openBrace (cs : List Char) : tokensOf ('{' :: cs) = .openBrace :: tokensOf cs :=
  tokensOf_cons rfl cs

@[simp]
theorem tokensOf_closeBrace (cs : List Char) : tokensOf ('}' :: cs) = .closeBrace :: tokensOf cs :=
  tokensOf_cons rfl cs

@[simp]
theorem tokensOf_comma (cs : List Char) : tokensOf (',' :: cs) = .comma :: tokensOf cs :=
  tokensOf_cons rfl cs

@[simp]
theorem tokensOf_colon (cs : List Char) : tokensOf (':' :: cs) = .colon :: tokensOf cs :=
  tokensOf_cons rfl cs

/-! ## Texts -/

theorem hexValue_of_hexDigit {value : Nat} {c : Char} (digit : HexDigit value c) :
    hexValue c = some value := by
  have lower : ∀ p ∈ "0123456789abcdef".toList.zipIdx, hexValue p.1 = some p.2 := by decide
  have upper : ∀ p ∈ "0123456789ABCDEF".toList.zipIdx, hexValue p.1 = some p.2 := by decide
  rcases digit with found | found
  · exact lower (c, value) (List.mk_mem_zipIdx_iff_getElem?.mpr found)
  · exact upper (c, value) (List.mk_mem_zipIdx_iff_getElem?.mpr found)

theorem scanText_end (done rest : List Char) :
    scanText .paired done ('"' :: rest) = (.text (some (String.ofList done.reverse)), rest) := by
  rw [scanText, if_pos rfl]

theorem scanText_plain {c : Char} (plain : Plain c) (surrogates : Surrogates)
    (done cs : List Char) :
    scanText surrogates done (c :: cs) = scanText surrogates.interrupted (c :: done) cs := by
  obtain ⟨printed, no_quote, no_backslash⟩ := plain
  rw [scanText, if_neg (by simpa using printed)]
  all_goals simp [no_quote, no_backslash]

theorem scanText_escape {letter c : Char} (known : (letter, c) ∈ escapes)
    (surrogates : Surrogates) (done cs : List Char) :
    scanText surrogates done ('\\' :: letter :: cs) =
      scanText surrogates.interrupted (c :: done) cs := by
  have all : ∀ e ∈ escapes, unescaped e.1 = some e.2 := by decide
  have no_unit := escape_ne_unit known
  rw [scanText]
  · rw [all _ known]
  all_goals simp [no_unit]

theorem scanText_unit {digits : List Char} {unit : Nat} (value : HexDigits digits unit)
    (surrogates : Surrogates) (done cs : List Char) :
    scanText surrogates done ('\\' :: 'u' :: (digits ++ cs)) =
      scanText (surrogates.extended unit).1 ((surrogates.extended unit).2 ++ done) cs := by
  obtain ⟨first, second, third, fourth⟩ := value
  simp only [List.cons_append, List.nil_append, scanText, hexUnit, hexValue_of_hexDigit first,
    hexValue_of_hexDigit second, hexValue_of_hexDigit third, hexValue_of_hexDigit fourth]
  rfl

/-- What is well formed between quotes is one token, whatever follows it. -/
theorem scanText_of_quotable {cs : List Char} (quotable : Quotable cs) (surrogates : Surrogates)
    (done : List Char) :
    ∃ contents, ∀ rest,
      scanText surrogates done (cs ++ '"' :: rest) = (.text contents, rest) := by
  induction quotable generalizing surrogates done with
  | nil =>
    by_cases paired : surrogates = .paired
    · exact ⟨some (String.ofList done.reverse), fun rest => by simp [scanText, paired]⟩
    · exact ⟨none, fun rest => by simp [scanText, paired]⟩
  | plain plain _ ih =>
    obtain ⟨contents, scanned⟩ := ih surrogates.interrupted (_ :: done)
    exact ⟨contents, fun rest => (scanText_plain plain ..).trans (scanned rest)⟩
  | escape known _ ih =>
    obtain ⟨contents, scanned⟩ := ih surrogates.interrupted (_ :: done)
    exact ⟨contents, fun rest => (scanText_escape known ..).trans (scanned rest)⟩
  | @unit digits cs unit value _ ih =>
    obtain ⟨contents, scanned⟩ :=
      ih (surrogates.extended unit).1 ((surrogates.extended unit).2 ++ done)
    refine ⟨contents, fun rest => ?_⟩
    rw [List.cons_append, List.cons_append, List.append_assoc, scanText_unit value]
    exact scanned rest

/-- The only unit of a character is none of the surrogates. -/
theorem extended_of_unit (c : Char) : Surrogates.paired.extended c.toNat = (.paired, [c]) := by
  have valid : c.toNat < 0xd800 ∨ 0xdfff < c.toNat ∧ c.toNat < 0x110000 := c.valid
  rw [Surrogates.extended, if_neg (by omega), if_neg (by omega), Char.ofNat_toNat]

/-- The two units of a character are its surrogates. -/
theorem extended_of_pair {c : Char} (two_units : 0x10000 ≤ c.toNat) :
    Surrogates.paired.extended (0xd800 + (c.toNat - 0x10000) / 0x400) =
        (.half (0xd800 + (c.toNat - 0x10000) / 0x400), []) ∧
      (Surrogates.half (0xd800 + (c.toNat - 0x10000) / 0x400)).extended
        (0xdc00 + (c.toNat - 0x10000) % 0x400) = (.paired, [c]) := by
  have valid : c.toNat < 0xd800 ∨ 0xdfff < c.toNat ∧ c.toNat < 0x110000 := c.valid
  have number : 0x10000 + (0xd800 + (c.toNat - 0x10000) / 0x400 - 0xd800) * 0x400 +
      (0xdc00 + (c.toNat - 0x10000) % 0x400 - 0xdc00) = c.toNat := by omega
  refine ⟨?_, ?_⟩
  · rw [Surrogates.extended, if_pos (by omega)]
  · rw [Surrogates.extended, if_pos (by omega), number, Char.ofNat_toNat]

/-- The token between quotes has the contents that are spelled there. -/
theorem scanText_of_spells {cs contents : List Char} (spells : Spells cs contents)
    (done rest : List Char) :
    scanText .paired done (cs ++ '"' :: rest) =
      (.text (some (String.ofList (done.reverse ++ contents))), rest) := by
  have grown (c : Char) (done contents : List Char) :
      done.reverse ++ c :: contents = (c :: done).reverse ++ contents := by
    rw [List.reverse_cons, List.append_assoc, List.singleton_append]
  induction spells generalizing done with
  | nil => rw [List.nil_append, List.append_nil, scanText_end]
  | plain plain _ ih =>
    rw [List.cons_append, scanText_plain plain, grown]
    exact ih _
  | escape known _ ih =>
    rw [List.cons_append, List.cons_append, scanText_escape known, grown]
    exact ih _
  | unit value _ ih =>
    rw [List.cons_append, List.cons_append, List.append_assoc, scanText_unit value,
      extended_of_unit, grown]
    exact ih _
  | pair two_units first second _ ih =>
    obtain ⟨high, low⟩ := extended_of_pair two_units
    simp only [List.cons_append, List.append_assoc]
    rw [scanText_unit first, high, scanText_unit second, low, grown]
    exact ih _

theorem tokensOf_quotable {cs : List Char} (quotable : Quotable cs) :
    ∃ contents, ∀ rest,
      tokensOf ('"' :: (cs ++ '"' :: rest)) = .text contents :: tokensOf rest := by
  obtain ⟨contents, scanned⟩ := scanText_of_quotable quotable .paired []
  refine ⟨contents, fun rest => ?_⟩
  rw [tokensOf_cons rfl, scanToken, scanned]

theorem tokensOf_spells {cs : List Char} {name : String} (spells : Spells cs name.toList)
    (rest : List Char) :
    tokensOf ('"' :: (cs ++ '"' :: rest)) = .text (some name) :: tokensOf rest := by
  have contents : String.ofList ([].reverse ++ name.toList) = name := String.ofList_toList
  rw [tokensOf_cons rfl, scanToken, scanText_of_spells spells, contents]

/-! ## Numbers -/

theorem scanToken_of_isDigit {c : Char} (digit : c.isDigit) (rest : List Char) :
    scanToken c rest = scanNumber false (c :: rest) := by
  unfold scanToken
  split
  case h_12 => rw [if_pos digit]
  all_goals cases digit

theorem not_isBlank_of_isDigit {c : Char} (digit : c.isDigit) : isBlank c = false := by
  simp only [isBlank, Bool.or_eq_false_iff, decide_eq_false_iff_not]
  refine ⟨⟨⟨?_, ?_⟩, ?_⟩, ?_⟩
  all_goals
    rintro rfl
    cases digit

/-- A number is one token, as long as it does not go on. -/
theorem tokensOf_number {n : Number} {cs rest : List Char} (written : n.Written cs)
    (stops : Stops rest) : tokensOf (cs ++ rest) = .number n :: tokensOf rest := by
  obtain @⟨sign, whole, decimals, power, fraction, exponent, signed, before, after, scaled⟩ :=
    written
  have scanned := scanNumber_append before after scaled stops
  simp only [List.append_assoc]
  simp only [List.mem_cons, List.not_mem_nil, or_false] at signed
  rcases signed with rfl | rfl
  · obtain ⟨d, ds, rfl⟩ := List.exists_cons_of_ne_nil before.1.1
    have digit := before.1.2 d List.mem_cons_self
    have unsigned : scanToken d (ds ++ (decimals ++ (power ++ rest))) = _ :=
      (scanToken_of_isDigit digit _).trans (scanned false)
    rw [List.nil_append, List.cons_append, tokensOf_cons (not_isBlank_of_isDigit digit), unsigned]
    rfl
  · have minus : scanToken '-' (whole ++ (decimals ++ (power ++ rest))) = _ := scanned true
    rw [List.cons_append, List.nil_append, tokensOf_cons rfl, minus]
    rfl

/-- The number is written without sign, point and exponent. -/
def Number.IsPlain (n : Number) : Prop :=
  n.negative = false ∧ n.fraction = [] ∧ n.exponent = none

theorem Number.Written.whole_of_isPlain {n : Number} {cs : List Char} (written : n.Written cs)
    (plain : n.IsPlain) : Whole cs ∧ n.whole = digitValues cs := by
  obtain @⟨sign, whole, decimals, power, fraction, exponent, signed, before, after, scaled⟩ :=
    written
  obtain ⟨positive, no_fraction, no_exponent⟩ := plain
  cases after with
  | present after => exact absurd no_fraction (digitValues_ne_nil after)
  | absent =>
    cases scaled with
    | present => cases no_exponent
    | absent =>
      simp only [List.mem_cons, List.not_mem_nil, or_false] at signed
      rcases signed with rfl | rfl
      · simpa using before
      · cases positive

/-- The digits of a whole number are the number that is written with them. -/
theorem tokensOf_whole {cs : List Char} (whole : Whole cs) :
    tokensOf cs = [.number ⟨false, digitValues cs, [], none⟩] := by
  have written : Number.Written _ ([] ++ (cs ++ ([] ++ []))) :=
    .mk (by decide) whole .absent .absent
  simpa using tokensOf_number written .nil

/-! ## Values -/

/-- The tokens are put together as the grammar puts a part together. -/
inductive Composes : Part → List Token → Prop where
  | null : Composes .value [.null]
  | truth (value : Bool) : Composes .value [.truth value]
  | number (n : Number) : Composes .value [.number n]
  | text (contents : Option String) : Composes .value [.text contents]
  | emptySequence : Composes .value [.openBracket, .closeBracket]
  | sequence {ts : List Token} (items : Composes .elements ts) :
    Composes .value (.openBracket :: (ts ++ [.closeBracket]))
  | emptyMapping : Composes .value [.openBrace, .closeBrace]
  | mapping {ts : List Token} (items : Composes .members ts) :
    Composes .value (.openBrace :: (ts ++ [.closeBrace]))
  | element {ts : List Token} (formed : Composes .value ts) : Composes .element ts
  | lastElement {ts : List Token} (last : Composes .element ts) : Composes .elements ts
  | elements {ts rest : List Token} (first : Composes .element ts)
    (more : Composes .elements rest) : Composes .elements (ts ++ .comma :: rest)
  | member {ts : List Token} (name : Option String) (formed : Composes .element ts) :
    Composes .member (.text name :: .colon :: ts)
  | lastMember {ts : List Token} (last : Composes .member ts) : Composes .members ts
  | members {ts rest : List Token} (first : Composes .member ts) (more : Composes .members rest) :
    Composes .members (ts ++ .comma :: rest)

/-- The characters have these tokens, whatever comes after them that no number goes on with. -/
def CutInto (cs : List Char) (ts : List Token) : Prop :=
  ∀ rest, Stops rest → tokensOf (cs ++ rest) = ts ++ tokensOf rest

namespace CutInto

variable {before after cs others : List Char} {ts more : List Token}

theorem padded (blank_before : Blanks before) (cut : CutInto cs ts) (blank_after : Blanks after) :
    CutInto (before ++ (cs ++ after)) ts := by
  intro rest stops
  rw [List.append_assoc, List.append_assoc, tokensOf_blanks blank_before,
    cut _ (stops.blanks blank_after), tokensOf_blanks blank_after]

theorem blanks (blank : Blanks before) : CutInto before [] :=
  fun rest _ => tokensOf_blanks blank rest

theorem bracketed (cut : CutInto cs ts) :
    CutInto ('[' :: (cs ++ [']'])) (.openBracket :: (ts ++ [.closeBracket])) := by
  intro rest _
  have inner := cut (']' :: rest) (.cons (by decide) rest)
  simp [inner]

theorem braced (cut : CutInto cs ts) :
    CutInto ('{' :: (cs ++ ['}'])) (.openBrace :: (ts ++ [.closeBrace])) := by
  intro rest _
  have inner := cut ('}' :: rest) (.cons (by decide) rest)
  simp [inner]

/-- A comma ends a part, and another one follows. -/
theorem comma (cut : CutInto cs ts) (cut_more : CutInto others more) :
    CutInto (cs ++ ',' :: others) (ts ++ .comma :: more) := by
  intro rest stops
  have first := cut (',' :: (others ++ rest)) (.cons (by decide) _)
  simp [first, cut_more rest stops]

/-- A part with a name before it, which is cut as one token. -/
theorem named {name : List Char} {contents : Option String} (blank_before : Blanks before)
    (cut_name : ∀ rest,
      tokensOf ('"' :: (name ++ '"' :: rest)) = .text contents :: tokensOf rest)
    (blank_after : Blanks after) (cut : CutInto cs ts) :
    CutInto (before ++ '"' :: (name ++ '"' :: (after ++ ':' :: cs)))
      (.text contents :: .colon :: ts) := by
  intro rest stops
  rw [List.append_assoc, tokensOf_blanks blank_before]
  simp only [List.cons_append, List.append_assoc]
  rw [cut_name, tokensOf_blanks blank_after, tokensOf_colon, cut rest stops]

end CutInto

/-- The tokens of what is formed by the grammar are put together in the same way. -/
theorem Forms.cut {part : Part} {cs : List Char} (forms : Forms part cs) :
    ∃ ts, Composes part ts ∧ CutInto cs ts := by
  induction forms with
  | null => exact ⟨_, .null, fun _ _ => tokensOf_cons rfl _⟩
  | yes => exact ⟨_, .truth true, fun _ _ => tokensOf_cons rfl _⟩
  | no => exact ⟨_, .truth false, fun _ _ => tokensOf_cons rfl _⟩
  | number numeric =>
    obtain ⟨n, written⟩ := numeric.exists_written
    exact ⟨_, .number n, fun _ stops => tokensOf_number written stops⟩
  | text quotable =>
    obtain ⟨contents, cut⟩ := tokensOf_quotable quotable
    refine ⟨_, .text contents, fun rest _ => ?_⟩
    simpa using cut rest
  | emptySequence blank => exact ⟨_, .emptySequence, (CutInto.blanks blank).bracketed⟩
  | sequence _ ih =>
    obtain ⟨ts, composes, cut⟩ := ih
    exact ⟨_, .sequence composes, cut.bracketed⟩
  | emptyMapping blank => exact ⟨_, .emptyMapping, (CutInto.blanks blank).braced⟩
  | mapping _ ih =>
    obtain ⟨ts, composes, cut⟩ := ih
    exact ⟨_, .mapping composes, cut.braced⟩
  | element blank_before _ blank_after ih =>
    obtain ⟨ts, composes, cut⟩ := ih
    exact ⟨ts, .element composes, .padded blank_before cut blank_after⟩
  | lastElement _ ih =>
    obtain ⟨ts, composes, cut⟩ := ih
    exact ⟨ts, .lastElement composes, cut⟩
  | elements _ _ ih ih_more =>
    obtain ⟨ts, composes, cut⟩ := ih
    obtain ⟨more, composes_more, cut_more⟩ := ih_more
    exact ⟨_, .elements composes composes_more, cut.comma cut_more⟩
  | member blank_before quotable blank_after _ ih =>
    obtain ⟨ts, composes, cut⟩ := ih
    obtain ⟨name, cut_name⟩ := tokensOf_quotable quotable
    exact ⟨_, .member name composes, .named blank_before cut_name blank_after cut⟩
  | lastMember _ ih =>
    obtain ⟨ts, composes, cut⟩ := ih
    exact ⟨ts, .lastMember composes, cut⟩
  | members _ _ ih ih_more =>
    obtain ⟨ts, composes, cut⟩ := ih
    obtain ⟨more, composes_more, cut_more⟩ := ih_more
    exact ⟨_, .members composes composes_more, cut.comma cut_more⟩

end Interlock.Json
