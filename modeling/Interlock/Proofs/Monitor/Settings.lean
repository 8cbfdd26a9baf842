import Interlock.Monitor.Settings
import Interlock.Proofs.Json.Number

/-!
# Settings in a text

Settings are read from any text that is a mapping. Its members of the name `spin_limit` decide: with
none the settings are the default ones, with one its value has to be an integer of 32 bits, and more
than one are refused. What stands under the other names does not matter.
-/

namespace Interlock.Monitor.Settings

open Json

/-- Settings are written as a mapping with one member. -/
theorem mapping_toText (s : Settings) :
    Mapping [⟨"spin_limit", toString s.spinLimit.toNat⟩] s.toText.toList := by
  have nothing : Blanks [] := nofun
  have name : Spells "spin_limit".toList "spin_limit".toList := .of_plain (by decide)
  have written := Member.Written.mk (m := ⟨"spin_limit", toString s.spinLimit.toNat⟩)
    nothing name nothing nothing (forms_toString s.spinLimit.toNat) nothing
  have mapping := Mapping.some nothing (.last written) nothing
  simpa [toText, record] using mapping

section Members

variable {ms : List Member} {text : String}

theorem ofText_of_missing (mapping : Mapping ms text.toList)
    (missing : (ms.filter fun m => m.name = "spin_limit") = []) : ofText text = .ok {} := by
  have reads : record.ofText text = .ok 40 :=
    Record.ofText_of_missing (r := record) readUInt32_whole mapping missing
  rw [ofText, reads]
  rfl

theorem ofText_of_single (mapping : Mapping ms text.toList) {m : Member}
    (single : (ms.filter fun m => m.name = "spin_limit") = [m]) (limit : UInt32) :
    ofText text = .ok ⟨limit⟩ ↔ m.value = toString limit.toNat := by
  have reads : record.ofText text = (·.1) <$> readUInt32 (tokens m.value) :=
    Record.ofText_of_single (r := record) readUInt32_whole mapping single
  have member : m ∈ ms := (List.mem_filter.mp (single ▸ List.mem_singleton_self m)).1
  rw [← readUInt32_eq_ok_iff (mapping.formed m member), ← reads, ofText]
  cases record.ofText text with
  | error problem => exact ⟨nofun, nofun⟩
  | ok found =>
    constructor
    · rintro ⟨⟩
      rfl
    · rintro ⟨⟩
      rfl

theorem ofText_of_repeated (mapping : Mapping ms text.toList)
    (repeated : 1 < (ms.filter fun m => m.name = "spin_limit").length) :
    ∃ problem, ofText text = .error problem := by
  cases own : ms.filter fun m => m.name = "spin_limit" with
  | nil => simp [own] at repeated
  | cons m others =>
    cases others with
    | nil => simp [own] at repeated
    | cons m' others =>
      obtain ⟨problem, refused⟩ : ∃ problem, record.ofText text = .error problem :=
        Record.ofText_of_repeated (r := record) readUInt32_whole mapping own
      exact ⟨problem, by rw [ofText, refused]; rfl⟩

end Members

/-- Settings that are written are read again. A text that is a mapping has the default settings if
none of its members has the name `spin_limit`; it has the settings of a number if one member has the
name and its value is the decimal representation of the number, and is refused if its value is
anything else; and it is refused if more than one member has the name. -/
theorem ofText_decided_by_members :
    (∀ s : Settings, ofText s.toText = .ok s) ∧
    ∀ (ms : List Member) (text : String), Mapping ms text.toList →
      match ms.filter fun m => m.name = "spin_limit" with
      | [] => ofText text = .ok {}
      | [m] =>
        (∀ limit : UInt32, m.value = toString limit.toNat → ofText text = .ok ⟨limit⟩) ∧
          ((∀ limit : UInt32, m.value ≠ toString limit.toNat) →
            ∃ problem, ofText text = .error problem)
      | _ :: _ :: _ => ∃ problem, ofText text = .error problem := by
  refine ⟨?written, ?any⟩
  case written =>
    intro s
    exact (ofText_of_single (mapping_toText s) rfl s.spinLimit).mpr rfl
  case any =>
    intro ms text mapping
    split
    case h_1 missing => exact ofText_of_missing mapping missing
    case h_2 m single =>
      have read := ofText_of_single mapping single
      refine ⟨fun limit => (read limit).mpr, fun other => ?_⟩
      cases found : ofText text with
      | error problem => exact ⟨problem, rfl⟩
      | ok s => exact absurd ((read s.spinLimit).mp found) (other s.spinLimit)
    case h_3 repeated => exact ofText_of_repeated mapping (by rw [repeated]; simp)

/-- A sequence with a mapping in it stands under a name that is escaped as two surrogates; the name
`spin_limit` stands in that mapping and, with an escaped unit, beside it. -/
def nestedText : String :=
  " \x7b\"\\ud83d\\uDE00\" : [-1.5e+3, \x7b\"spin_limit\":9\x7d] ,\"spin\\u005Flimit\":7\x7d\n"

theorem ofText_decided_by_members_nested :
    Mapping [⟨"😀", "[-1.5e+3, \x7b\"spin_limit\":9\x7d]"⟩, ⟨"spin_limit", "7"⟩]
        nestedText.toList ∧
      ofText nestedText = .ok ⟨7⟩ := by
  have nothing : Blanks [] := by decide
  have space : Blanks [' '] := by decide
  have line : Blanks ['\n'] := by decide
  have exponent : Exponent ('e' :: (['+'] ++ ['3'])) :=
    .present (by decide) (by decide) (by decide)
  have real : Numeric (['-'] ++ (['1'] ++ (['.', '5'] ++ ('e' :: (['+'] ++ ['3']))))) :=
    .mk (by decide) (by decide) (.present (by decide)) exponent
  have plain : Spells "spin_limit".toList "spin_limit".toList := .of_plain (by decide)
  have inner : Forms .value "\x7b\"spin_limit\":9\x7d".toList :=
    .mapping (.lastMember (.member nothing plain.quotable nothing
      (.element nothing (forms_toString 9) nothing)))
  have sequence : Forms .value "[-1.5e+3, \x7b\"spin_limit\":9\x7d]".toList :=
    .sequence (.elements (.element nothing (.number real) nothing)
      (.lastElement (.element space inner nothing)))
  have high : HexDigits ['d', '8', '3', 'd'] (0xd800 + ('😀'.toNat - 0x10000) / 0x400) :=
    .mk (p := 13) (q := 8) (r := 3) (s := 13) (.inl rfl) (.inl rfl) (.inl rfl) (.inl rfl)
  have low : HexDigits ['D', 'E', '0', '0'] (0xdc00 + ('😀'.toNat - 0x10000) % 0x400) :=
    .mk (p := 13) (q := 14) (r := 0) (s := 0) (.inr rfl) (.inr rfl) (.inl rfl) (.inl rfl)
  have surrogates : Spells "\\ud83d\\uDE00".toList "😀".toList := .pair (by decide) high low .nil
  have low_line : HexDigits ['0', '0', '5', 'F'] '_'.toNat :=
    .mk (p := 0) (q := 0) (r := 5) (s := 15) (.inl rfl) (.inl rfl) (.inl rfl) (.inr rfl)
  have escaped : Spells "spin\\u005Flimit".toList "spin_limit".toList :=
    .plain (by decide) (.plain (by decide) (.plain (by decide) (.plain (by decide)
      (.unit low_line (.of_plain (by decide) : Spells "limit".toList "limit".toList)))))
  have first : Member.Written ⟨"😀", "[-1.5e+3, \x7b\"spin_limit\":9\x7d]"⟩ _ :=
    .mk nothing surrogates space space sequence space
  have second : Member.Written ⟨"spin_limit", "7"⟩ _ :=
    .mk nothing escaped nothing nothing (forms_toString 7) nothing
  have mapping : Mapping _ nestedText.toList := .some space (.more first (.last second)) line
  exact ⟨mapping, (ofText_decided_by_members.2 _ _ mapping).1 7 rfl⟩

end Interlock.Monitor.Settings
