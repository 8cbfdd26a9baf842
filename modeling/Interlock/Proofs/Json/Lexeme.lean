import Interlock.Proofs.Json.Token
import Interlock.Proofs.Text

/-!
# From tokens back to characters

A token that breaks no rule has been cut from characters that write it (`Token.Written`), with
nothing but blanks before them (`tokensOf_eq_cons`). Therefore tokens that are put together as the
grammar puts together a part come from characters that form this part (`Composes.formed`).
-/

namespace Interlock.Json

/-! ## Texts -/

theorem hexDigit_of_hexValue {c : Char} {value : Nat} (found : hexValue c = some value) :
    HexDigit value c := by
  have digits : ∀ v < 10, "0123456789abcdef".toList[v]? = some (Char.ofNat (48 + v)) := by decide
  have lower : ∀ v < 6, "0123456789abcdef".toList[v + 10]? = some (Char.ofNat (97 + v)) := by
    decide
  have upper : ∀ v < 6, "0123456789ABCDEF".toList[v + 10]? = some (Char.ofNat (65 + v)) := by
    decide
  have from_first {first : Nat} (reached : first ≤ c.toNat) :
      Char.ofNat (first + (c.toNat - first)) = c := by
    rw [Nat.add_sub_cancel' reached, Char.ofNat_toNat]
  unfold hexValue at found
  split at found
  case isTrue range =>
    obtain ⟨reached, limited⟩ : 48 ≤ c.toNat ∧ c.toNat ≤ 57 := range
    cases found
    exact .inl ((digits _ (by change c.toNat - 48 < 10; omega)).trans
      (congrArg some (from_first reached)))
  case isFalse =>
    split at found
    case isTrue range =>
      obtain ⟨reached, limited⟩ : 97 ≤ c.toNat ∧ c.toNat ≤ 102 := range
      cases found
      exact .inl ((lower _ (by change c.toNat - 97 < 6; omega)).trans
        (congrArg some (from_first reached)))
    case isFalse =>
      split at found
      case isTrue range =>
        obtain ⟨reached, limited⟩ : 65 ≤ c.toNat ∧ c.toNat ≤ 70 := range
        cases found
        exact .inr ((upper _ (by change c.toNat - 65 < 6; omega)).trans
          (congrArg some (from_first reached)))
      case isFalse => cases found

theorem HexDigit.lt {c : Char} {value : Nat} (digit : HexDigit value c) : value < 16 := by
  rcases digit with found | found
  all_goals exact (List.getElem?_eq_some_iff.mp found).1

theorem HexDigits.lt {digits : List Char} {unit : Nat} (value : HexDigits digits unit) :
    unit < 0x10000 := by
  obtain ⟨first, second, third, fourth⟩ := value
  have := first.lt
  have := second.lt
  have := third.lt
  have := fourth.lt
  omega

theorem hexDigits_of_hexUnit {a b c d : Char} {unit : Nat} (found : hexUnit a b c d = some unit) :
    HexDigits [a, b, c, d] unit := by
  simp only [hexUnit, bind, Option.bind_eq_some_iff] at found
  obtain ⟨p, first, q, second, r, third, s, fourth, same⟩ := found
  cases same
  exact .mk (hexDigit_of_hexValue first) (hexDigit_of_hexValue second)
    (hexDigit_of_hexValue third) (hexDigit_of_hexValue fourth)

theorem mem_escapes_of_unescaped {letter c : Char} (found : unescaped letter = some c) :
    (letter, c) ∈ escapes := by
  unfold unescaped at found
  split at found <;> cases found <;> decide

/-- What the characters that come after surrogates stand for, together with the last of these. -/
def Surrogates.Spells : Surrogates → List Char → List Char → Prop
  | paired, cs, contents => Json.Spells cs contents
  | half first, cs, contents =>
    ∃ c low rest others, cs = '\\' :: 'u' :: (low ++ rest) ∧ contents = c :: others ∧
      0x10000 ≤ c.toNat ∧ first = 0xd800 + (c.toNat - 0x10000) / 0x400 ∧
      HexDigits low (0xdc00 + (c.toNat - 0x10000) % 0x400) ∧ Json.Spells rest others
  | lone, _, _ => False

/-- A character that is no unit is spelled after paired surrogates only. -/
theorem Surrogates.Spells.of_interrupted {surrogates : Surrogates} {cs contents : List Char}
    (spells : surrogates.interrupted.Spells cs contents) :
    surrogates = .paired ∧ Json.Spells cs contents := by
  cases surrogates with
  | paired => exact ⟨rfl, spells⟩
  | half | lone => exact spells.elim

/-- The surrogates that have been met are halves of the first kind. -/
def Surrogates.Sound : Surrogates → Prop
  | half first => 0xd800 ≤ first ∧ first < 0xdc00
  | _ => True

theorem Surrogates.sound_extended (surrogates : Surrogates) (unit : Nat) :
    (surrogates.extended unit).1.Sound := by
  unfold extended
  split
  · split
    next first => exact first
    next => split <;> exact trivial
  · split <;> exact trivial
  · exact trivial

theorem Surrogates.sound_interrupted (surrogates : Surrogates) :
    surrogates.interrupted.Sound := by
  cases surrogates <;> exact trivial

/-- One more unit, and what it and the characters after it stand for. -/
theorem Surrogates.Spells.of_extended {surrogates : Surrogates} {digits cs contents : List Char}
    {unit : Nat} (value : HexDigits digits unit) (sound : surrogates.Sound)
    (spells : (surrogates.extended unit).1.Spells cs contents) :
    surrogates.Spells ('\\' :: 'u' :: (digits ++ cs))
      ((surrogates.extended unit).2.reverse ++ contents) := by
  have small := value.lt
  unfold extended at spells ⊢
  cases surrogates with
  | lone => exact spells.elim
  | paired =>
    dsimp only at spells ⊢
    by_cases first : 0xd800 ≤ unit ∧ unit < 0xdc00
    · rw [if_pos first] at spells ⊢
      obtain ⟨c, low, rest, others, rfl, rfl, two_units, rfl, second, spells⟩ := spells
      exact .pair two_units value second spells
    by_cases second : 0xdc00 ≤ unit ∧ unit < 0xe000
    · rw [if_neg first, if_pos second] at spells
      exact spells.elim
    · rw [if_neg first, if_neg second] at spells ⊢
      have valid : unit.isValidChar := by
        unfold Nat.isValidChar
        omega
      have same : (Char.ofNat unit).toNat = unit := Text.val_ofNat valid
      exact Json.Spells.unit (same.symm ▸ value) spells
  | half first =>
    dsimp only at spells ⊢
    by_cases second : 0xdc00 ≤ unit ∧ unit < 0xe000
    · rw [if_pos second] at spells ⊢
      obtain ⟨reached, limited⟩ := sound
      have valid : (0x10000 + (first - 0xd800) * 0x400 + (unit - 0xdc00)).isValidChar := by
        unfold Nat.isValidChar
        omega
      have number : (Char.ofNat (0x10000 + (first - 0xd800) * 0x400 + (unit - 0xdc00))).toNat =
          0x10000 + (first - 0xd800) * 0x400 + (unit - 0xdc00) := Text.val_ofNat valid
      refine ⟨_, digits, cs, contents, rfl, rfl, ?_, ?_, ?_, spells⟩
      · omega
      · omega
      · rw [number]
        have same : 0xdc00 + (0x10000 + (first - 0xd800) * 0x400 + (unit - 0xdc00) - 0x10000) %
            0x400 = unit := by omega
        rwa [same]
    · rw [if_neg second] at spells
      exact spells.elim

/-- What has been taken is a text: the characters before its closing quote are well formed, and if
it has contents, they are what these characters spell after those that are done. -/
def Surrogates.Takes (surrogates : Surrogates) (done cs : List Char) (taken : Token × List Char) :
    Prop :=
  ∃ front contents, Quotable front ∧ cs = front ++ '"' :: taken.2 ∧ taken.1 = .text contents ∧
    ∀ name, contents = some name →
      ∃ spelled, surrogates.Spells front spelled ∧ name = String.ofList (done.reverse ++ spelled)

/-- A character that is no escaped unit is taken before the others. -/
theorem Surrogates.Takes.of_interrupted {surrogates : Surrogates} {done cs : List Char} {c : Char}
    {taken : Token × List Char} (takes : surrogates.interrupted.Takes (c :: done) cs taken)
    (written : List Char)
    (quotable : ∀ {cs}, Quotable cs → Quotable (written ++ cs))
    (spells : ∀ {cs contents}, Json.Spells cs contents →
      Json.Spells (written ++ cs) (c :: contents)) :
    surrogates.Takes done (written ++ cs) taken := by
  obtain ⟨front, contents, formed, rfl, same, named⟩ := takes
  refine ⟨written ++ front, contents, quotable formed, by rw [List.append_assoc], same, ?_⟩
  rintro name found
  obtain ⟨spelled, after, rfl⟩ := named name found
  obtain ⟨rfl, after⟩ := after.of_interrupted
  refine ⟨c :: spelled, spells after, ?_⟩
  rw [List.reverse_cons, List.append_assoc, List.singleton_append]

/-- A text is broken, or it is taken up to its closing quote. -/
theorem scanText_cases {surrogates : Surrogates} (sound : surrogates.Sound)
    (done cs : List Char) :
    (scanText surrogates done cs).1.IsBroken ∨
      surrogates.Takes done cs (scanText surrogates done cs) := by
  fun_induction scanText surrogates done cs with
  | case1 | case5 | case6 | case8 | case9 | case10 => exact .inl trivial
  | case2 done rest =>
    refine .inr ⟨[], _, .nil, rfl, rfl, ?_⟩
    rintro name ⟨⟩
    exact ⟨[], .nil, by rw [List.append_nil]⟩
  | case3 surrogates done rest unpaired =>
    refine .inr ⟨[], none, .nil, rfl, rfl, ?_⟩
    intro name nothing
    cases nothing
  | case4 surrogates done a b c d rest unit found surrogates' complete extended ih =>
    have value := hexDigits_of_hexUnit found
    have next := surrogates.sound_extended unit
    rw [extended] at next
    refine (ih next).imp_right ?_
    rintro ⟨front, contents, formed, split, same, named⟩
    refine ⟨_, contents, .unit value formed,
      congrArg (['\\', 'u', a, b, c, d] ++ ·) split, same, ?_⟩
    rintro name found
    obtain ⟨spelled, after, rfl⟩ := named name found
    have before : (surrogates.extended unit).1.Spells front spelled := by rwa [extended]
    refine ⟨_, .of_extended value sound before, ?_⟩
    rw [extended, List.reverse_append, List.append_assoc]
  | case7 surrogates done letter rest _ _ c found ih =>
    have known := mem_escapes_of_unescaped found
    refine (ih surrogates.sound_interrupted).imp_right fun takes => ?_
    exact takes.of_interrupted ['\\', letter] (.escape known) (.escape known)
  | case11 surrogates done c rest no_quote _ _ no_letter no_end printed ih =>
    have plain : Plain c := by
      refine ⟨by simpa using printed, no_quote, ?_⟩
      rintro rfl
      cases rest with
      | nil => exact no_end rfl rfl
      | cons letter rest => exact no_letter _ _ rfl rfl
    refine (ih surrogates.sound_interrupted).imp_right fun takes => ?_
    exact takes.of_interrupted [c] (.plain plain) (.plain plain)

/-! ## Tokens -/

/-- The characters write the token. -/
inductive Token.Written : Token → List Char → Prop where
  | openBracket : Written .openBracket ['[']
  | closeBracket : Written .closeBracket [']']
  | openBrace : Written .openBrace ['{']
  | closeBrace : Written .closeBrace ['}']
  | comma : Written .comma [',']
  | colon : Written .colon [':']
  | null : Written .null ['n', 'u', 'l', 'l']
  | yes : Written (.truth true) ['t', 'r', 'u', 'e']
  | no : Written (.truth false) ['f', 'a', 'l', 's', 'e']
  | number {n : Number} {cs : List Char} (written : n.Written cs) : Written (.number n) cs
  | text {cs : List Char} {name : String} (spells : Spells cs name.toList) :
    Written (.text (some name)) ('"' :: (cs ++ ['"']))
  | unpaired {cs : List Char} (quotable : Quotable cs) :
    Written (.text none) ('"' :: (cs ++ ['"']))

theorem Token.Written.quoted {contents : Option String} {front : List Char}
    (written : (Token.text contents).Written front) :
    ∃ cs, Quotable cs ∧ front = '"' :: (cs ++ ['"']) := by
  cases written with
  | text spells => exact ⟨_, spells.quotable, rfl⟩
  | unpaired quotable => exact ⟨_, quotable, rfl⟩

theorem Token.Written.spelled {name : String} {front : List Char}
    (written : (Token.text (some name)).Written front) :
    ∃ cs, Spells cs name.toList ∧ front = '"' :: (cs ++ ['"']) := by
  cases written with
  | text spells => exact ⟨_, spells, rfl⟩

theorem scanWord_cases (token : Token) (word cs : List Char) :
    (scanWord token word cs).1.IsBroken ∨
      ∃ rest, cs = word ++ rest ∧ scanWord token word cs = (token, rest) := by
  fun_induction scanWord token word cs with
  | case1 rest => exact .inr ⟨rest, rfl, rfl⟩
  | case2 | case4 => exact .inl trivial
  | case3 expected word rest ih =>
    refine ih.imp_right ?_
    rintro ⟨rest, rfl, same⟩
    exact ⟨rest, rfl, same⟩

/-- A token is broken, or it is taken from characters that write it. -/
theorem scanToken_cases (c : Char) (cs : List Char) :
    (scanToken c cs).1.IsBroken ∨
      ∃ front, (scanToken c cs).1.Written front ∧ c :: cs = front ++ (scanToken c cs).2 := by
  have word {token : Token} {first : Char} {word : List Char}
      (written : token.Written (first :: word)) :
      (scanWord token word cs).1.IsBroken ∨ ∃ front,
        (scanWord token word cs).1.Written front ∧
          first :: cs = front ++ (scanWord token word cs).2 := by
    refine (scanWord_cases token word cs).imp_right ?_
    rintro ⟨rest, rfl, same⟩
    rw [same]
    exact ⟨_, written, rfl⟩
  unfold scanToken
  split
  case h_1 => exact .inr ⟨_, .openBracket, rfl⟩
  case h_2 => exact .inr ⟨_, .closeBracket, rfl⟩
  case h_3 => exact .inr ⟨_, .openBrace, rfl⟩
  case h_4 => exact .inr ⟨_, .closeBrace, rfl⟩
  case h_5 => exact .inr ⟨_, .comma, rfl⟩
  case h_6 => exact .inr ⟨_, .colon, rfl⟩
  case h_7 =>
    have none_open : Surrogates.paired.Sound := trivial
    refine (scanText_cases none_open [] cs).imp_right ?_
    rintro ⟨front, contents, quotable, split, same, named⟩
    refine ⟨'"' :: (front ++ ['"']), ?_, ?_⟩
    · rw [same]
      cases contents with
      | none => exact .unpaired quotable
      | some name =>
        obtain ⟨spelled, spells, rfl⟩ := named name rfl
        refine .text ?_
        rw [String.toList_ofList]
        exact spells
    · simpa using split
  case h_8 =>
    refine (scanNumber_cases true cs).imp_right ?_
    rintro ⟨fraction, exponent, whole, decimals, power, rest, before, after, scaled, rfl, same⟩
    have written : Number.Written _ (['-'] ++ _) := .mk (by decide) before after scaled
    rw [same]
    exact ⟨_, .number written, by simp⟩
  case h_9 => exact word .null
  case h_10 => exact word .yes
  case h_11 => exact word .no
  case h_12 =>
    split
    case isTrue =>
      refine (scanNumber_cases false (c :: cs)).imp_right ?_
      rintro ⟨fraction, exponent, whole, decimals, power, rest, before, after, scaled, split, same⟩
      have written : Number.Written _ ([] ++ _) := .mk (by decide) before after scaled
      rw [same]
      exact ⟨_, .number written, by simpa using split⟩
    case isFalse => exact .inl trivial

/-- The characters begin with the given ones after blanks, and others follow. -/
def Leads (front cs rest : List Char) : Prop :=
  ∃ blanks, Blanks blanks ∧ cs = blanks ++ (front ++ rest)

variable {front cs rest : List Char} {token : Token} {ts : List Token}

theorem Leads.append {more left : List Char} (leads : Leads front cs rest)
    (next : Leads more rest left) :
    ∃ blanks, Blanks blanks ∧ Leads (front ++ (blanks ++ more)) cs left := by
  obtain ⟨first, blank, rfl⟩ := leads
  obtain ⟨between, blank', rfl⟩ := next
  exact ⟨between, blank', first, blank, by simp⟩

theorem blank_of_isBlank {c : Char} (blank : isBlank c) : c ∈ [' ', '\t', '\n', '\r'] := by
  simpa [isBlank, or_assoc, or_left_comm] using blank

/-- The first token has been cut from characters that write it. -/
theorem tokensOf_eq_cons (cut : tokensOf cs = token :: ts) (sound : ¬ token.IsBroken) :
    ∃ front rest, token.Written front ∧ Leads front cs rest ∧ tokensOf rest = ts := by
  induction cs with
  | nil => cases cut
  | cons c cs ih =>
    by_cases blank : isBlank c
    · rw [tokensOf_of_blank blank] at cut
      obtain ⟨front, rest, written, ⟨blanks, all, rfl⟩, others⟩ := ih cut
      exact ⟨front, rest, written,
        ⟨c :: blanks, List.forall_mem_cons.mpr ⟨blank_of_isBlank blank, all⟩, rfl⟩, others⟩
    · rw [tokensOf_cons (Bool.eq_false_iff.mpr blank)] at cut
      obtain ⟨rfl, rfl⟩ := List.cons.inj cut
      obtain broken | ⟨front, written, split⟩ := scanToken_cases c cs
      · exact absurd broken sound
      · exact ⟨front, _, written, ⟨[], nofun, split⟩, rfl⟩

/-- The tokens that one character makes. -/
def marks : List (Token × Char) :=
  [(.openBracket, '['), (.closeBracket, ']'), (.openBrace, '{'), (.closeBrace, '}'), (.comma, ','),
    (.colon, ':')]

theorem leads_of_mark (c : Char) (mark : (token, c) ∈ marks) (cut : tokensOf cs = token :: ts) :
    ∃ rest, Leads [c] cs rest ∧ tokensOf rest = ts := by
  simp only [marks, List.mem_cons, List.not_mem_nil, or_false, Prod.mk.injEq] at mark
  have sound : ¬ token.IsBroken := by
    rcases mark with ⟨rfl, -⟩ | ⟨rfl, -⟩ | ⟨rfl, -⟩ | ⟨rfl, -⟩ | ⟨rfl, -⟩ | ⟨rfl, -⟩ <;> exact id
  obtain ⟨front, rest, written, leads, others⟩ := tokensOf_eq_cons cut sound
  have same : front = [c] := by
    rcases mark with ⟨rfl, rfl⟩ | ⟨rfl, rfl⟩ | ⟨rfl, rfl⟩ | ⟨rfl, rfl⟩ | ⟨rfl, rfl⟩ | ⟨rfl, rfl⟩ <;>
      cases written <;> rfl
  exact ⟨rest, same ▸ leads, others⟩

/-- Nothing but blanks has no tokens. -/
theorem blanks_of_tokensOf_eq_nil (none : tokensOf cs = []) : Blanks cs := by
  induction cs with
  | nil => exact nofun
  | cons c cs ih =>
    by_cases blank : isBlank c
    · rw [tokensOf_of_blank blank] at none
      exact List.forall_mem_cons.mpr ⟨blank_of_isBlank blank, ih none⟩
    · rw [tokensOf_cons (Bool.eq_false_iff.mpr blank)] at none
      cases none

/-! ## Parts -/

/-- Blanks may stand around every part but a value. -/
theorem Forms.padded {part : Part} (forms : Forms part cs) (padded : part ≠ .value)
    {before after : List Char} (blank_before : Blanks before) (blank_after : Blanks after) :
    Forms part (before ++ (cs ++ after)) := by
  induction forms generalizing before after with
  | element blank formed blank' =>
    simpa using Forms.element (blank_before.append blank) formed (blank'.append blank_after)
  | lastElement _ ih => exact .lastElement (ih nofun blank_before blank_after)
  | elements _ _ ih ih_more =>
    have first := ih nofun blank_before .nil
    have more := ih_more nofun .nil blank_after
    simpa using first.elements more
  | member blank quotable blank' _ ih =>
    have value := ih nofun .nil blank_after
    simpa using Forms.member (blank_before.append blank) quotable blank' value
  | lastMember _ ih => exact .lastMember (ih nofun blank_before blank_after)
  | members _ _ ih ih_more =>
    have first := ih nofun blank_before .nil
    have more := ih_more nofun .nil blank_after
    simpa using first.members more
  | _ => exact absurd rfl padded

/-- A part between brackets, with blanks around it. -/
theorem Leads.enclosed {part : Part} (forms : Forms part front) (padded : part ≠ .value)
    {opening closing : Char} {inside outside left : List Char} (leads : Leads front inside outside)
    (opens : Leads [opening] cs inside) (closes : Leads [closing] outside left) :
    ∃ inner, Forms part inner ∧ Leads (opening :: (inner ++ [closing])) cs left := by
  obtain ⟨before, blank_before, begun⟩ := opens.append leads
  obtain ⟨after, blank_after, ended⟩ := begun.append closes
  exact ⟨_, forms.padded padded blank_before blank_after, by simpa using ended⟩

/-- Two parts with a comma between them. -/
theorem Leads.separated {part others : Part} {more inside outside left : List Char}
    (forms : Forms part front) (padded : part ≠ .value) (forms_more : Forms others more)
    (padded_more : others ≠ .value) (leads : Leads front cs inside)
    (comma : Leads [','] inside outside) (leads_more : Leads more outside left) :
    ∃ first second, Forms part first ∧ Forms others second ∧
      Leads (first ++ ',' :: second) cs left := by
  obtain ⟨after, blank_after, begun⟩ := leads.append comma
  obtain ⟨before, blank_before, ended⟩ := begun.append leads_more
  exact ⟨_, _, forms.padded padded .nil blank_after,
    forms_more.padded padded_more blank_before .nil, by simpa using ended⟩

/-- Tokens that are put together as a part have been cut from characters that form it. -/
theorem Composes.formed {part : Part} (composes : Composes part ts) {us : List Token}
    (cut : tokensOf cs = ts ++ us) :
    ∃ front rest, Forms part front ∧ Leads front cs rest ∧ tokensOf rest = us := by
  induction composes generalizing cs us with
  | null =>
    obtain ⟨_, rest, ⟨⟩, leads, others⟩ := tokensOf_eq_cons cut id
    exact ⟨_, rest, .null, leads, others⟩
  | truth =>
    obtain ⟨_, rest, written, leads, others⟩ := tokensOf_eq_cons cut id
    cases written with
    | yes => exact ⟨_, rest, .yes, leads, others⟩
    | no => exact ⟨_, rest, .no, leads, others⟩
  | number n =>
    obtain ⟨_, rest, written, leads, others⟩ := tokensOf_eq_cons cut id
    cases written with
    | number written => exact ⟨_, rest, .number written.numeric, leads, others⟩
  | text =>
    obtain ⟨_, rest, written, leads, others⟩ := tokensOf_eq_cons cut id
    obtain ⟨quoted, quotable, rfl⟩ := written.quoted
    exact ⟨_, rest, .text quotable, leads, others⟩
  | emptySequence =>
    obtain ⟨_, opens, cut⟩ := leads_of_mark '[' (by decide) cut
    obtain ⟨rest, closes, others⟩ := leads_of_mark ']' (by decide) cut
    obtain ⟨_, blank, leads⟩ := opens.append closes
    exact ⟨_, rest, .emptySequence blank, leads, others⟩
  | emptyMapping =>
    obtain ⟨_, opens, cut⟩ := leads_of_mark '{' (by decide) cut
    obtain ⟨rest, closes, others⟩ := leads_of_mark '}' (by decide) cut
    obtain ⟨_, blank, leads⟩ := opens.append closes
    exact ⟨_, rest, .emptyMapping blank, leads, others⟩
  | sequence _ ih =>
    obtain ⟨_, opens, cut⟩ := leads_of_mark '[' (by decide) cut
    obtain ⟨_, _, formed, leads, cut⟩ := ih (by simpa using cut)
    obtain ⟨rest, closes, others⟩ := leads_of_mark ']' (by decide) cut
    obtain ⟨_, inner, leads⟩ := leads.enclosed formed nofun opens closes
    exact ⟨_, rest, .sequence inner, leads, others⟩
  | mapping _ ih =>
    obtain ⟨_, opens, cut⟩ := leads_of_mark '{' (by decide) cut
    obtain ⟨_, _, formed, leads, cut⟩ := ih (by simpa using cut)
    obtain ⟨rest, closes, others⟩ := leads_of_mark '}' (by decide) cut
    obtain ⟨_, inner, leads⟩ := leads.enclosed formed nofun opens closes
    exact ⟨_, rest, .mapping inner, leads, others⟩
  | element _ ih =>
    obtain ⟨front, rest, formed, leads, others⟩ := ih cut
    exact ⟨_, rest, .element .nil formed .nil, by simpa using leads, others⟩
  | lastElement _ ih =>
    obtain ⟨front, rest, formed, leads, others⟩ := ih cut
    exact ⟨front, rest, .lastElement formed, leads, others⟩
  | lastMember _ ih =>
    obtain ⟨front, rest, formed, leads, others⟩ := ih cut
    exact ⟨front, rest, .lastMember formed, leads, others⟩
  | elements _ _ ih ih_more =>
    obtain ⟨_, _, formed, leads, cut⟩ := ih (by simpa using cut)
    obtain ⟨_, comma, cut⟩ := leads_of_mark ',' (by decide) cut
    obtain ⟨_, rest, formed_more, leads_more, others⟩ := ih_more cut
    obtain ⟨_, _, first, more, leads⟩ :=
      leads.separated formed nofun formed_more nofun comma leads_more
    exact ⟨_, rest, .elements first more, leads, others⟩
  | members _ _ ih ih_more =>
    obtain ⟨_, _, formed, leads, cut⟩ := ih (by simpa using cut)
    obtain ⟨_, comma, cut⟩ := leads_of_mark ',' (by decide) cut
    obtain ⟨_, rest, formed_more, leads_more, others⟩ := ih_more cut
    obtain ⟨_, _, first, more, leads⟩ :=
      leads.separated formed nofun formed_more nofun comma leads_more
    exact ⟨_, rest, .members first more, leads, others⟩
  | member name _ ih =>
    obtain ⟨_, _, written, leads, cut⟩ := tokensOf_eq_cons cut id
    obtain ⟨quoted, quotable, rfl⟩ := written.quoted
    obtain ⟨_, colon, cut⟩ := leads_of_mark ':' (by decide) cut
    obtain ⟨_, rest, formed, value, others⟩ := ih cut
    obtain ⟨between, blank_between, begun⟩ := leads.append colon
    obtain ⟨after, blank_after, ended⟩ := begun.append value
    have element := formed.padded nofun blank_after .nil
    exact ⟨_, rest, .member .nil quotable blank_between element, by simpa using ended, others⟩

end Interlock.Json
