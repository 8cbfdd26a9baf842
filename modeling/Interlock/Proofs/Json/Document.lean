import Interlock.Proofs.Json.Lexeme
import Interlock.Proofs.Json.Record

/-!
# Records in a text

What a text has to be for a reader of records to take it, said of the characters alone: a mapping in
which one member has the name of the record's field, or a sequence of a single value (`Recorded`).
What stands under other names does not matter, as long as it is a value. If the reader of the field
takes the values that are written in some way and no others (`Reader.Takes`), the reader of the
records takes these records and no others, and stops where they end (`Record.takes_read`).
-/

namespace Interlock.Json

variable {α : Type}

/-- The characters are a record of one field, which stands for what the value of the field stands
for. -/
inductive Recorded (field : String) (stands : List Char → α → Prop) : List Char → α → Prop where
  | mapping {ms : List Member} {m : Member} {cs : List Char} {a : α} (mapping : Mapping ms cs)
    (single : (ms.filter fun m => m.name = field) = [m]) (own : stands m.value.toList a) :
    Recorded field stands cs a
  | sequence {before blanks value blanks' after : List Char} {a : α} (blank_before : Blanks before)
    (blank : Blanks blanks) (formed : Forms .value value) (own : stands value a)
    (blank' : Blanks blanks') (blank_after : Blanks after) :
    Recorded field stands (before ++ '[' :: (blanks ++ (value ++ (blanks' ++ ']' :: after)))) a

/-- The reader takes the values that are written in a way, each to its end, and nothing else. -/
structure Reader.Takes (reader : Reader α) (stands : List Char → α → Prop) : Prop where
  complete {cs : List Char} {a : α} (formed : Forms .value cs) (own : stands cs a)
    (us : List Token) : reader (tokensOf cs ++ us) = .ok (a, us)
  sound {cs : List Char} {a : α} {us : List Token} (reads : reader (tokensOf cs) = .ok (a, us)) :
    ∃ front rest, Forms .value front ∧ stands front a ∧ Leads front cs rest ∧ tokensOf rest = us

variable {r : Record α} {stands : List Char → α → Prop} {cs : List Char} {a : α} {us : List Token}

/-! ## Every record is read -/

theorem Reader.Takes.ends {reader : Reader α} (takes : reader.Takes stands)
    (formed : Forms .value cs) (own : stands cs a) : reader.Ends (tokensOf cs) := by
  intro rest
  have alone := takes.complete formed own []
  rw [List.append_nil] at alone
  rw [takes.complete formed own rest, alone]
  rfl

/-- A sequence of a single value is read as what the value is read as. -/
theorem Record.readSequence_eq_ok_iff {token : Token} (no_end : token ≠ .closeBracket)
    (rest : List Token) :
    r.readSequence (token :: rest) = .ok (a, us) ↔
      r.item (token :: rest) = .ok (a, .closeBracket :: us) := by
  unfold readSequence
  split
  next nothing => cases nothing
  next ends => exact absurd (List.cons.inj ends).1 no_end
  next =>
    cases r.item (token :: rest) with
    | error problem => exact ⟨nofun, nofun⟩
    | ok read =>
      obtain ⟨b, left⟩ := read
      cases left with
      | nil => exact ⟨nofun, nofun⟩
      | cons last left =>
        cases last with
        | closeBracket =>
          constructor
          · rintro ⟨⟩
            rfl
          · rintro ⟨⟩
            rfl
        | _ => exact ⟨nofun, nofun⟩

/-- Blanks around a record are part of it. -/
theorem Recorded.padded (recorded : Recorded r.field stands cs a) {before after : List Char}
    (blank_before : Blanks before) (blank_after : Blanks after) :
    Recorded r.field stands (before ++ (cs ++ after)) a := by
  cases recorded with
  | mapping mapping single own =>
    exact .mapping (mapping.padded blank_before blank_after) single own
  | sequence blank' blank formed own blank_behind blank_after' =>
    simpa using Recorded.sequence (blank_before.append blank') blank formed own blank_behind
      (blank_after'.append blank_after)

theorem Record.read_of_recorded (takes : r.item.Takes stands)
    (recorded : Recorded r.field stands cs a) (us : List Token) :
    r.read (tokensOf cs ++ us) = .ok (a, us) := by
  cases recorded with
  | @mapping ms m _ _ mapping single own =>
    obtain ⟨cut, composed⟩ := mapping.cut
    have member : m ∈ ms.filter fun m => m.name = r.field := by simp [single]
    have formed : Forms .value m.value.toList := mapping.formed m (List.mem_filter.mp member).1
    have ends : ∀ item ∈ ms.map Member.item, item.1 = r.field → r.item.Ends item.2 := by
      intro item among named
      obtain ⟨m', here, rfl⟩ := List.mem_map.mp among
      have only : m' ∈ ms.filter fun m => m.name = r.field :=
        List.mem_filter.mpr ⟨here, decide_eq_true named⟩
      obtain rfl := List.mem_singleton.mp (single ▸ only)
      exact takes.ends formed own
    have item : r.item (tokens m.value) = .ok (a, []) := by
      simpa [tokens, tokensOf] using takes.complete formed own []
    have tokens : tokensOf cs ++ us =
        .openBrace :: (joined (ms.map Member.item) ++ .closeBrace :: us) := by
      rw [cut.tokensOf]
      simp
    rw [tokens, read_mapping composed ends, foldlM_gather_members composed,
      foldlM_gather_single single, item]
    rfl
  | @sequence before blanks value blanks' after _ blank_before blank formed own blank'
      blank_after =>
    obtain ⟨ts, composes, cut⟩ := formed.cut
    obtain rfl := cut.tokensOf
    have around := (cut.padded blank blank').bracketed.padded blank_before blank_after
    have tokens : tokensOf (before ++ '[' :: (blanks ++ (value ++ (blanks' ++ ']' :: after)))) ++
        us = .openBracket :: (tokensOf value ++ .closeBracket :: us) := by
      simpa using congrArg (· ++ us) around.tokensOf
    have item := takes.complete formed own (.closeBracket :: us)
    obtain ⟨token, others, same, no_end, -⟩ := composes.head_ne
    rw [tokens]
    rw [same] at item ⊢
    exact (readSequence_eq_ok_iff no_end _).mpr item

/-! ## Nothing else is read -/

theorem Record.of_afterColon {ts rest : List Token} (colon : afterColon ts = .ok rest) :
    ts = .colon :: rest := by
  unfold afterColon at colon
  split at colon <;> cases colon
  rfl

/-- After the name of a member comes a colon, and then the field's value, if it is the first member
of the field's name, or any value, if it has another name. -/
theorem Record.of_readItem {name : String} {found found' : Option α} {ts left : List Token}
    (reads : r.readItem found name ts = .ok (found', left)) :
    ∃ rest, ts = .colon :: rest ∧
      (name = r.field ∧ found = none ∧ (∃ a, r.item rest = .ok (a, left) ∧ found' = some a) ∨
        name ≠ r.field ∧ found' = found ∧ skip rest = .ok left) := by
  obtain ⟨rest, rfl⟩ : ∃ rest, ts = .colon :: rest := by
    cases colon : afterColon ts with
    | ok rest => exact ⟨rest, of_afterColon colon⟩
    | error problem =>
      rw [readItem, colon] at reads
      split at reads
      · split at reads <;> cases reads
      · cases reads
  refine ⟨rest, rfl, ?_⟩
  by_cases named : name = r.field
  · cases found with
    | some b =>
      rw [readItem_of_found named] at reads
      cases reads
    | none =>
      rw [readItem_of_eq named] at reads
      cases read : r.item rest with
      | error problem =>
        rw [read] at reads
        cases reads
      | ok pair =>
        rw [read] at reads
        cases reads
        exact .inl ⟨named, rfl, _, rfl, rfl⟩
  · rw [readItem_of_ne named] at reads
    cases skipped : skip rest with
    | error problem =>
      rw [skipped] at reads
      cases reads
    | ok behind =>
      rw [skipped] at reads
      cases reads
      exact .inr ⟨named, rfl, rfl⟩

/-- What is read of a mapping is its end, or one more member and the rest. -/
theorem Record.of_readItems {found : Option α} {first : Bool} {fuel : Nat} {ts : List Token}
    (reads : r.readItems found first (fuel + 1) ts = .ok (a, us)) :
    ts = .closeBrace :: us ∧ r.ofMapping found = .ok a ∨
      ∃ name rest found' left,
        ts = (if first then [] else [.comma]) ++ .text (some name) :: rest ∧
        r.readItem found name rest = .ok (found', left) ∧
        r.readItems found' false fuel left = .ok (a, us) := by
  -- a member and what comes after it
  have member {name : String} {rest : List Token}
      (reads : (r.readItem found name rest >>= fun read => r.readItems read.1 false fuel read.2) =
        .ok (a, us)) :
      ∃ found' left, r.readItem found name rest = .ok (found', left) ∧
        r.readItems found' false fuel left = .ok (a, us) := by
    cases item : r.readItem found name rest with
    | error problem =>
      rw [item] at reads
      cases reads
    | ok read =>
      rw [item] at reads
      exact ⟨read.1, read.2, rfl, reads⟩
  cases ts with
  | nil => cases reads
  | cons token rest =>
    by_cases ends : token = .closeBrace
    · subst ends
      rw [readItems_end] at reads
      cases mapped : r.ofMapping found with
      | error problem =>
        rw [mapped] at reads
        cases reads
      | ok b =>
        rw [mapped] at reads
        cases reads
        exact .inl ⟨rfl, rfl⟩
    refine .inr ?_
    cases first with
    | true =>
      cases token with
      | text contents =>
        cases contents with
        | none => cases reads
        | some name =>
          rw [(readItems_item ..).1] at reads
          obtain ⟨found', left, facts⟩ := member reads
          exact ⟨name, rest, found', left, rfl, facts⟩
      | closeBrace => exact absurd rfl ends
      | _ => cases reads
    | false =>
      cases token with
      | comma =>
        cases rest with
        | nil => cases reads
        | cons second rest =>
          cases second with
          | text contents =>
            cases contents with
            | none => cases reads
            | some name =>
              rw [(readItems_item ..).2] at reads
              obtain ⟨found', left, facts⟩ := member reads
              exact ⟨name, rest, found', left, rfl, facts⟩
          | _ => cases reads
      | closeBrace => exact absurd rfl ends
      | _ => cases reads

/-- What has been found before and the members of the field's name make up the value. -/
def Record.Found (r : Record α) (stands : List Char → α → Prop) (found : Option α)
    (ms : List Member) (a : α) : Prop :=
  found = some a ∧ (ms.filter fun m => m.name = r.field) = [] ∨
    found = none ∧ ∃ m, (ms.filter fun m => m.name = r.field) = [m] ∧ stands m.value.toList a

/-- A member that is read is written as one, and the members after it make up what is missing. -/
theorem Record.written_of_readItem (takes : r.item.Takes stands) {name : String}
    {found found' : Option α} {ts left : List Token} (cut : tokensOf cs = .text (some name) :: ts)
    (reads : r.readItem found name ts = .ok (found', left)) :
    ∃ m front rest, m.Written front ∧ cs = front ++ rest ∧ tokensOf rest = left ∧
      ∀ {ms a}, r.Found stands found' ms a → r.Found stands found (m :: ms) a := by
  obtain ⟨_, behind, written, ⟨before, blank_before, rfl⟩, cut'⟩ := tokensOf_eq_cons cut id
  obtain ⟨quoted, spells, rfl⟩ := written.spelled
  obtain ⟨rest, rfl, own⟩ := of_readItem reads
  obtain ⟨inside, ⟨between, blank_between, rfl⟩, after⟩ := leads_of_mark ':' (by decide) cut'
  -- the value, and what it adds to what has been found
  obtain ⟨value, behind, formed, ⟨blanks, blank, rfl⟩, others, finds⟩ :
      ∃ value behind, Forms .value value ∧ Leads value inside behind ∧ tokensOf behind = left ∧
        ∀ {ms a}, r.Found stands found' ms a →
          r.Found stands found (⟨name, String.ofList value⟩ :: ms) a := by
    rcases own with ⟨named, rfl, ⟨b, item, rfl⟩⟩ | ⟨other, rfl, skipped⟩
    · rw [← after] at item
      obtain ⟨value, behind, formed, own, leads, others⟩ := takes.sound item
      refine ⟨value, behind, formed, leads, others, ?_⟩
      rintro ms a (⟨same, none⟩ | ⟨missing, -⟩)
      · cases same
        refine .inr ⟨rfl, ⟨name, String.ofList value⟩, ?_, by rwa [String.toList_ofList]⟩
        rw [List.filter_cons_of_pos (by simpa using named), none]
      · cases missing
    · obtain ⟨vs, composes, rfl⟩ := skip_eq_ok_iff.mp skipped
      obtain ⟨value, behind, formed, leads, others⟩ := composes.formed after
      refine ⟨value, behind, formed, leads, others, ?_⟩
      rintro ms a rest
      unfold Found at rest ⊢
      rwa [List.filter_cons_of_neg (by simpa using other)]
  refine ⟨⟨name, String.ofList value⟩, _, behind,
    .mk blank_before spells blank_between blank (by rwa [String.toList_ofList]) .nil, ?_, others,
    finds⟩
  simp
/-- Members that are read after another one are written so, up to the closing brace. -/
theorem Record.listed_of_readItems (takes : r.item.Takes stands) (required : r.absent = none)
    {found : Option α} {fuel : Nat}
    (reads : r.readItems found false fuel (tokensOf cs) = .ok (a, us)) :
    ∃ ms front rest, (∀ {m written}, m.Written written → Listed (m :: ms) (written ++ front)) ∧
      cs = front ++ '}' :: rest ∧ tokensOf rest = us ∧ r.Found stands found ms a := by
  induction fuel generalizing found cs with
  | zero => cases reads
  | succ fuel ih =>
    rcases of_readItems reads with ⟨ends, mapped⟩ | ⟨name, ts, found', left, cut, item, others⟩
    · obtain ⟨rest, ⟨blanks, blank, rfl⟩, after⟩ := leads_of_mark '}' (by decide) ends
      rw [ofMapping, required, Option.or_none] at mapped
      cases found with
      | none => cases mapped
      | some b =>
        cases mapped
        exact ⟨[], blanks, rest, fun written => .last (written.behind blank), rfl, after,
          .inl ⟨rfl, rfl⟩⟩
    · obtain ⟨behind, ⟨blanks, blank, rfl⟩, named⟩ := leads_of_mark ',' (by decide) cut
      obtain ⟨m, written, rest, member, rfl, rfl, more⟩ := written_of_readItem takes named item
      obtain ⟨ms, front, rest, listed, rfl, after, complete⟩ := ih others
      refine ⟨m :: ms, blanks ++ ',' :: (written ++ front), rest, fun before => ?_, by simp, after,
        more complete⟩
      simpa using Listed.more (before.behind blank) (listed member)

/-- What is read of a mapping after its brace is a mapping without it. -/
theorem Record.mapping_of_readItems (takes : r.item.Takes stands) (required : r.absent = none)
    {fuel : Nat} (reads : r.readItems none true (fuel + 1) (tokensOf cs) = .ok (a, us)) :
    ∃ ms m inner rest, Listed ms inner ∧ cs = inner ++ '}' :: rest ∧ tokensOf rest = us ∧
      (ms.filter fun m => m.name = r.field) = [m] ∧ stands m.value.toList a := by
  rcases of_readItems reads with ⟨-, mapped⟩ | ⟨name, ts, found', left, cut, item, others⟩
  · rw [ofMapping, required] at mapped
    cases mapped
  · obtain ⟨m, written, behind, member, rfl, rfl, more⟩ := written_of_readItem takes cut item
    obtain ⟨ms, front, rest, listed, rfl, after, complete⟩ :=
      listed_of_readItems takes required others
    rcases more complete with ⟨missing, -⟩ | ⟨-, own, single, stands⟩
    · cases missing
    · exact ⟨m :: ms, own, written ++ front, rest, listed member, by simp, after, single, stands⟩

/-- What is read as a record is one. -/
theorem Record.recorded_of_read (takes : r.item.Takes stands) (required : r.absent = none)
    (reads : r.read (tokensOf cs) = .ok (a, us)) :
    ∃ front rest, Forms .value front ∧ Recorded r.field stands front a ∧ Leads front cs rest ∧
      tokensOf rest = us := by
  cases cut : tokensOf cs with
  | nil =>
    rw [cut] at reads
    cases reads
  | cons token ts =>
    rw [cut] at reads
    cases token with
    | openBracket =>
      obtain ⟨inside, ⟨before, blank_before, rfl⟩, rfl⟩ := leads_of_mark '[' (by decide) cut
      change r.readSequence (tokensOf inside) = .ok (a, us) at reads
      have item : r.item (tokensOf inside) = .ok (a, .closeBracket :: us) := by
        cases first : tokensOf inside with
        | nil =>
          rw [first] at reads
          cases reads
        | cons token others =>
          rw [first] at reads
          by_cases ends : token = .closeBracket
          · rw [ends, readSequence, required] at reads
            cases reads
          · exact (readSequence_eq_ok_iff ends others).mp reads
      obtain ⟨value, _, formed, own, ⟨blanks, blank, rfl⟩, closing⟩ := takes.sound item
      obtain ⟨rest, ⟨blanks', blank', rfl⟩, after⟩ := leads_of_mark ']' (by decide) closing
      have sequence := Forms.sequence (.lastElement (.element blank formed blank'))
      have recorded := @Recorded.sequence _ r.field _ _ _ _ _ _ _ .nil blank formed own blank' .nil
      refine ⟨_, rest, sequence, by simpa using recorded, ⟨before, blank_before, ?_⟩, after⟩
      simp
    | openBrace =>
      obtain ⟨inside, ⟨before, blank_before, rfl⟩, rfl⟩ := leads_of_mark '{' (by decide) cut
      obtain ⟨ms, m, inner, rest, listed, rfl, after, single, own⟩ :=
        mapping_of_readItems takes required reads
      have mapping := Mapping.some .nil listed .nil
      refine ⟨_, rest, .mapping listed.forms, .mapping mapping single own,
        ⟨before, blank_before, ?_⟩, after⟩
      simp
    | _ => cases reads

/-- If a reader takes what is written in a way, the reader of records takes the records of it. -/
theorem Record.takes_read (takes : r.item.Takes stands) (required : r.absent = none) :
    r.read.Takes (Recorded r.field stands) where
  complete _ own us := read_of_recorded takes own us
  sound reads := recorded_of_read takes required reads

/-- Exactly the texts that are a record are read, and as what the record stands for. -/
theorem Record.ofText_eq_ok_iff (takes : r.item.Takes stands) (required : r.absent = none)
    {text : String} : r.ofText text = .ok a ↔ Recorded r.field stands text.toList a := by
  constructor
  · intro reads
    cases found : r.read (tokens text) with
    | error problem =>
      rw [ofText, found] at reads
      cases reads
    | ok read =>
      obtain ⟨b, us⟩ := read
      rw [ofText, found] at reads
      cases us with
      | cons => cases reads
      | nil =>
        cases reads
        obtain ⟨front, rest, -, own, ⟨blanks, blank, same⟩, nothing⟩ :=
          recorded_of_read takes required found
        rw [same]
        exact own.padded blank (blanks_of_tokensOf_eq_nil nothing)
  · intro own
    have reads := read_of_recorded takes own []
    rw [List.append_nil] at reads
    rw [ofText, show tokens text = tokensOf text.toList from rfl, reads]
    rfl

end Interlock.Json
