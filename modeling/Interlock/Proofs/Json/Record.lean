import Interlock.Json.Record
import Interlock.Proofs.Json.Token

/-!
# Reading records

A reader of a record passes over the values of all names but one. Passing over keeps a stack of the
open brackets and no other memory of what it has seen, so that a value that the grammar forms is
passed over whole, whatever is open around it (`Composes.skip`). The members of a mapping are then
read as a fold over them (`Record.gather`), of which only the members of the record's own name
matter (`Record.foldlM_gather_filter`).
-/

namespace Interlock.Json

/-! ## Passing over -/

/-- Go on passing over tokens, unless the value is complete. -/
def resume : Skipping → List Token → Except Problem (List Token)
  | ([], .next), rest => .ok rest
  | (opened, awaiting), rest => skipFrom opened awaiting rest

theorem skipFrom_cons {opened : List Bracket} {awaiting : Awaiting} {token : Token}
    {skipping : Skipping} (advances : awaiting.advance opened token = .ok skipping)
    (rest : List Token) : skipFrom opened awaiting (token :: rest) = resume skipping rest := by
  rw [skipFrom, advances]
  unfold resume
  split <;> simp_all

/-- A comma after an item is followed by another one. -/
theorem resume_comma (opened : List Bracket) (rest : List Token) :
    resume (.sequence :: opened, .next) (.comma :: rest) =
        skipFrom (.sequence :: opened) .value rest ∧
      resume (.mapping :: opened, .next) (.comma :: rest) =
        skipFrom (.mapping :: opened) .name rest :=
  ⟨rfl, rfl⟩

/-- A name and a colon are followed by a value. -/
theorem skipFrom_name (name : Option String) (opened : List Bracket) (rest : List Token) :
    skipFrom opened .name (.text name :: .colon :: rest) = skipFrom opened .value rest := by
  cases opened <;> rfl

/-- No part begins with the end of a sequence or a mapping. -/
theorem Composes.head_ne {part : Part} {ts : List Token} (composes : Composes part ts) :
    ∃ token rest, ts = token :: rest ∧ token ≠ .closeBracket ∧ token ≠ .closeBrace := by
  induction composes with
  | elements _ _ ih | members _ _ ih =>
    obtain ⟨token, rest, rfl, no_end⟩ := ih
    exact ⟨token, _, rfl, no_end⟩
  | element _ ih | lastElement _ ih | lastMember _ ih => exact ih
  | _ => exact ⟨_, _, rfl, nofun, nofun⟩

theorem skipFrom_firstValue {opened : List Bracket} {token : Token} (no_end : token ≠ .closeBracket)
    (rest : List Token) :
    skipFrom opened .firstValue (token :: rest) = skipFrom opened .value (token :: rest) := by
  simp only [skipFrom, Awaiting.advance, if_neg no_end]

theorem skipFrom_firstName {opened : List Bracket} {token : Token} (no_end : token ≠ .closeBrace)
    (rest : List Token) :
    skipFrom opened .firstName (token :: rest) = skipFrom opened .name (token :: rest) := by
  simp only [skipFrom, Awaiting.advance, if_neg no_end]

/-- How the tokens of a part are passed over. -/
def Passes : Part → List Token → Prop
  | .value, ts | .element, ts =>
    ∀ opened rest, skipFrom opened .value (ts ++ rest) = resume (opened, .next) rest
  | .elements, ts =>
    ∀ opened rest, skipFrom (.sequence :: opened) .value (ts ++ .closeBracket :: rest) =
      resume (opened, .next) rest
  | .member, ts =>
    ∀ opened rest, skipFrom opened .name (ts ++ rest) = resume (opened, .next) rest
  | .members, ts =>
    ∀ opened rest, skipFrom (.mapping :: opened) .name (ts ++ .closeBrace :: rest) =
      resume (opened, .next) rest

/-- Every part is passed over whole. -/
theorem Composes.passes {part : Part} {ts : List Token} (composes : Composes part ts) :
    Passes part ts := by
  induction composes with
  | null | truth | number | text =>
    intro opened rest
    exact skipFrom_cons rfl rest
  | emptySequence | emptyMapping =>
    intro opened rest
    rw [List.cons_append, skipFrom_cons rfl]
    exact skipFrom_cons rfl rest
  | @sequence ts items ih =>
    intro opened rest
    obtain ⟨token, others, rfl, no_end, -⟩ := items.head_ne
    have passed := ih opened rest
    simp only [List.cons_append, List.append_assoc, List.nil_append] at passed ⊢
    rw [skipFrom_cons rfl]
    exact (skipFrom_firstValue no_end _).trans passed
  | @mapping ts items ih =>
    intro opened rest
    obtain ⟨token, others, rfl, -, no_end⟩ := items.head_ne
    have passed := ih opened rest
    simp only [List.cons_append, List.append_assoc, List.nil_append] at passed ⊢
    rw [skipFrom_cons rfl]
    exact (skipFrom_firstName no_end _).trans passed
  | element _ ih => exact ih
  | lastElement _ ih =>
    intro opened rest
    rw [ih]
    exact skipFrom_cons rfl rest
  | elements _ _ ih ih_more =>
    intro opened rest
    rw [List.append_assoc, ih, List.cons_append, (resume_comma opened _).1]
    exact ih_more opened rest
  | member name _ ih =>
    intro opened rest
    rw [List.cons_append, List.cons_append, skipFrom_name]
    exact ih opened rest
  | lastMember _ ih =>
    intro opened rest
    rw [ih]
    exact skipFrom_cons rfl rest
  | members _ _ ih ih_more =>
    intro opened rest
    rw [List.append_assoc, ih, List.cons_append, (resume_comma opened _).2]
    exact ih_more opened rest

theorem Composes.skip {ts : List Token} (composes : Composes .value ts) (rest : List Token) :
    Json.skip (ts ++ rest) = .ok rest :=
  composes.passes [] rest

/-- Passing over a value ends at its end. -/
def ValuePassed (us ts : List Token) : Prop :=
  ∀ opened, skipFrom opened .value ts = .ok us →
    ∃ vs rest, Composes .value vs ∧ ts = vs ++ rest ∧ resume (opened, .next) rest = .ok us

/-- Passing over the values of a sequence ends at its end. -/
def ElementsPassed (us ts : List Token) : Prop :=
  ∀ opened, skipFrom (.sequence :: opened) .value ts = .ok us →
    ∃ vs rest, Composes .elements vs ∧ ts = vs ++ .closeBracket :: rest ∧
      resume (opened, .next) rest = .ok us

/-- Passing over the members of a mapping ends at its end. -/
def MembersPassed (us ts : List Token) : Prop :=
  ∀ opened, skipFrom (.mapping :: opened) .name ts = .ok us →
    ∃ vs rest, Composes .members vs ∧ ts = vs ++ .closeBrace :: rest ∧
      resume (opened, .next) rest = .ok us

section Passed

variable {us ts : List Token}

theorem valuePassed (shorter : ∀ rest : List Token, rest.length < ts.length →
    ElementsPassed us rest ∧ MembersPassed us rest) : ValuePassed us ts := by
  intro opened passed
  -- a value that can be told at once
  have told {vs rest : List Token} (composes : Composes .value vs) (split : ts = vs ++ rest) :
      ∃ vs rest, Composes .value vs ∧ ts = vs ++ rest ∧ resume (opened, .next) rest = .ok us := by
    rw [split, composes.passes opened rest] at passed
    exact ⟨vs, rest, composes, split, passed⟩
  cases ts with
  | nil => cases passed
  | cons token rest =>
    cases token with
    | null => exact told .null rfl
    | truth value => exact told (.truth value) rfl
    | number n => exact told (.number n) rfl
    | text contents => exact told (.text contents) rfl
    | openBracket =>
      rw [skipFrom_cons rfl] at passed
      change skipFrom (.sequence :: opened) .firstValue rest = .ok us at passed
      cases rest with
      | nil => cases passed
      | cons first rest =>
        by_cases ends : first = .closeBracket
        · exact told .emptySequence (by rw [ends]; rfl)
        · rw [skipFrom_firstValue ends] at passed
          obtain ⟨vs, left, items, split, after⟩ := (shorter _ (Nat.lt_succ_self _)).1 opened passed
          exact ⟨_, left, .sequence items, by rw [split]; simp, after⟩
    | openBrace =>
      rw [skipFrom_cons rfl] at passed
      change skipFrom (.mapping :: opened) .firstName rest = .ok us at passed
      cases rest with
      | nil => cases passed
      | cons first rest =>
        by_cases ends : first = .closeBrace
        · exact told .emptyMapping (by rw [ends]; rfl)
        · rw [skipFrom_firstName ends] at passed
          obtain ⟨vs, left, items, split, after⟩ := (shorter _ (Nat.lt_succ_self _)).2 opened passed
          exact ⟨_, left, .mapping items, by rw [split]; simp, after⟩
    | _ => cases passed

/-- After a value inside brackets there is a comma or the end of these. -/
theorem of_resume {bracket : Bracket} {opened : List Bracket} {rest : List Token}
    (resumed : resume (bracket :: opened, .next) rest = .ok us) :
    ∃ token left skipping, rest = token :: left ∧
      afterValue (bracket :: opened) token = .ok skipping ∧ resume skipping left = .ok us := by
  change skipFrom (bracket :: opened) .next rest = .ok us at resumed
  cases rest with
  | nil => cases resumed
  | cons token left =>
    cases advanced : afterValue (bracket :: opened) token with
    | error problem =>
      rw [skipFrom, Awaiting.advance, advanced] at resumed
      cases resumed
    | ok skipping =>
      rw [skipFrom_cons (show Awaiting.next.advance _ token = _ from advanced)] at resumed
      exact ⟨token, left, skipping, rfl, advanced, resumed⟩

/-- A name is followed by a colon. -/
theorem of_skipFrom_name {opened : List Bracket} (passed : skipFrom opened .name ts = .ok us) :
    ∃ name rest, ts = .text name :: .colon :: rest := by
  cases ts with
  | nil => cases passed
  | cons token rest =>
    cases token with
    | text name =>
      rw [skipFrom_cons (show Awaiting.name.advance opened (.text name) = .ok _ from rfl)] at passed
      cases rest with
      | nil => cases opened <;> cases passed
      | cons second rest =>
        by_cases colon : second = .colon
        · exact ⟨name, rest, by rw [colon]⟩
        · have refused : resume (opened, .colon) (second :: rest) = .error .malformed := by
            cases opened <;> simp [resume, skipFrom, Awaiting.advance, colon]
          cases refused.symm.trans passed
    | _ => cases passed

theorem elementsPassed (value : ValuePassed us ts)
    (shorter : ∀ rest : List Token, rest.length < ts.length → ElementsPassed us rest) :
    ElementsPassed us ts := by
  intro opened passed
  obtain ⟨vs, rest, composes, rfl, resumed⟩ := value _ passed
  obtain ⟨token, left, skipping, rfl, advanced, resumed⟩ := of_resume resumed
  cases token with
  | comma =>
    cases advanced
    have fewer : left.length < (vs ++ .comma :: left).length := by
      simp only [List.length_append, List.length_cons]
      omega
    obtain ⟨ws, rest, items, rfl, after⟩ := shorter left fewer opened resumed
    exact ⟨_, rest, .elements (.element composes) items, by simp, after⟩
  | closeBracket =>
    cases advanced
    exact ⟨vs, left, .lastElement (.element composes), rfl, resumed⟩
  | _ => cases advanced

theorem membersPassed (shorter : ∀ rest : List Token, rest.length < ts.length →
    ValuePassed us rest ∧ MembersPassed us rest) : MembersPassed us ts := by
  intro opened passed
  obtain ⟨name, ts, rfl⟩ := of_skipFrom_name passed
  rw [skipFrom_name] at passed
  have behind : ts.length < (.text name :: .colon :: ts).length := by
    simp only [List.length_cons]
    omega
  obtain ⟨vs, rest, composes, rfl, resumed⟩ := (shorter ts behind).1 _ passed
  obtain ⟨token, left, skipping, rfl, advanced, resumed⟩ := of_resume resumed
  have member : Composes .member (.text name :: .colon :: vs) := .member name (.element composes)
  cases token with
  | comma =>
    cases advanced
    have fewer : left.length < (.text name :: .colon :: (vs ++ .comma :: left)).length := by
      simp only [List.length_append, List.length_cons]
      omega
    obtain ⟨ws, rest, items, rfl, after⟩ := (shorter left fewer).2 opened resumed
    exact ⟨_, rest, .members member items, by simp, after⟩
  | closeBrace =>
    cases advanced
    exact ⟨_, left, .lastMember member, by simp, resumed⟩
  | _ => cases advanced

theorem passed (us ts : List Token) :
    ValuePassed us ts ∧ ElementsPassed us ts ∧ MembersPassed us ts := by
  induction length : ts.length using Nat.strongRecOn generalizing ts with
  | ind n ih =>
    have shorter (rest : List Token) (less : rest.length < ts.length) :=
      ih rest.length (length ▸ less) rest rfl
    have value : ValuePassed us ts := valuePassed fun rest less => (shorter rest less).2
    exact ⟨value, elementsPassed value fun rest less => (shorter rest less).2.1,
      membersPassed fun rest less => ⟨(shorter rest less).1, (shorter rest less).2.2⟩⟩

/-- What is passed over is put together as a value. -/
theorem skip_eq_ok_iff : skip ts = .ok us ↔ ∃ vs, Composes .value vs ∧ ts = vs ++ us := by
  constructor
  · intro skipped
    obtain ⟨vs, rest, composes, rfl, resumed⟩ := (passed us ts).1 [] skipped
    cases resumed
    exact ⟨vs, composes, rfl⟩
  · rintro ⟨vs, composes, rfl⟩
    exact composes.skip us

end Passed

/-! ## Items -/

/-- The tokens of an item: its name and the tokens of its value. -/
def itemTokens (item : String × List Token) : List Token :=
  .text (some item.1) :: .colon :: item.2

/-- The tokens of items that come after others. -/
def following (items : List (String × List Token)) : List Token :=
  items.flatMap fun item => .comma :: itemTokens item

/-- The tokens of all items of a mapping. -/
def joined : List (String × List Token) → List Token
  | [] => []
  | item :: items => itemTokens item ++ following items

/-- The reader reads these tokens to their end and looks at nothing after them. -/
def Reader.Ends {α : Type} (reader : Reader α) (ts : List Token) : Prop :=
  ∀ rest, reader (ts ++ rest) = (fun read => (read.1, rest)) <$> reader ts

/-- The reader reads every value to its end. -/
def Reader.Whole {α : Type} (reader : Reader α) : Prop :=
  ∀ {ts : List Token}, Composes .value ts → reader.Ends ts

namespace Record

variable {α : Type} {r : Record α}

/-- An item of another name is passed over. -/
theorem readItem_of_ne {name : String} (other : name ≠ r.field) (found : Option α)
    (ts : List Token) :
    r.readItem found name (.colon :: ts) = (fun rest => (found, rest)) <$> skip ts := by
  rw [readItem, if_neg other]
  change (skip ts >>= fun rest => pure (found, rest)) = _
  cases skip ts <;> rfl

theorem readItem_of_eq {name : String} (named : name = r.field) (ts : List Token) :
    r.readItem none name (.colon :: ts) =
      (fun read => (some read.1, read.2)) <$> r.item ts := by
  rw [readItem, if_pos named]
  change (r.item ts >>= fun read => pure (some read.1, read.2)) = _
  cases r.item ts <;> rfl

theorem readItem_of_found {name : String} (named : name = r.field) (a : α) (ts : List Token) :
    r.readItem (some a) name ts =
      .error (.unfit ("duplicate field `" ++ r.field ++ "`")) := by
  rw [readItem, if_pos named]
  rfl

/-- What has been found after one more item. -/
def gather (r : Record α) (found : Option α) (item : String × List Token) :
    Except Problem (Option α) :=
  (·.1) <$> r.readItem found item.1 (.colon :: item.2)

theorem gather_of_ne {item : String × List Token} (other : item.1 ≠ r.field)
    (composes : Composes .value item.2) (found : Option α) : r.gather found item = .ok found := by
  have passed := composes.skip []
  rw [List.append_nil] at passed
  rw [gather, readItem_of_ne other, passed]
  rfl

theorem gather_of_eq {item : String × List Token} (named : item.1 = r.field) :
    r.gather none item = (fun read => some read.1) <$> r.item item.2 := by
  rw [gather, readItem_of_eq named]
  cases r.item item.2 <;> rfl

theorem gather_of_found {item : String × List Token} (named : item.1 = r.field) (a : α) :
    r.gather (some a) item = .error (.unfit ("duplicate field `" ++ r.field ++ "`")) := by
  rw [gather, readItem_of_found named]
  rfl

/-- An item is read to its end. -/
theorem readItem_append {item : String × List Token} (composes : Composes .value item.2)
    (ends : item.1 = r.field → r.item.Ends item.2) (found : Option α) (rest : List Token) :
    r.readItem found item.1 (.colon :: (item.2 ++ rest)) =
      (fun found => (found, rest)) <$> r.gather found item := by
  by_cases named : item.1 = r.field
  · cases found with
    | none =>
      rw [gather_of_eq named, readItem_of_eq named, ends named]
      cases r.item item.2 <;> rfl
    | some a =>
      rw [gather_of_found named, readItem_of_found named]
      rfl
  · rw [gather_of_ne named composes, readItem_of_ne named, composes.skip]
    rfl

theorem readItems_end (found : Option α) (first : Bool) (fuel : Nat) (rest : List Token) :
    r.readItems found first (fuel + 1) (.closeBrace :: rest) =
      (fun a => (a, rest)) <$> r.ofMapping found := by
  change (r.ofMapping found >>= fun a => pure (a, rest)) = _
  cases r.ofMapping found <;> rfl

/-- An item is read, and then the ones after it; a comma stands before every item but the first. -/
theorem readItems_item (found : Option α) (fuel : Nat) (name : String) (tokens : List Token) :
    r.readItems found true (fuel + 1) (.text (some name) :: tokens) =
        (r.readItem found name tokens >>= fun read => r.readItems read.1 false fuel read.2) ∧
      r.readItems found false (fuel + 1) (.comma :: .text (some name) :: tokens) =
        (r.readItem found name tokens >>= fun read => r.readItems read.1 false fuel read.2) :=
  ⟨rfl, rfl⟩

/-- The items after others are read one after the other. -/
theorem readItems_following {items : List (String × List Token)}
    (composed : ∀ item ∈ items, Composes .value item.2)
    (ends : ∀ item ∈ items, item.1 = r.field → r.item.Ends item.2) {fuel : Nat}
    (enough : items.length < fuel) (found : Option α) (rest : List Token) :
    r.readItems found false fuel (following items ++ .closeBrace :: rest) =
      (fun a => (a, rest)) <$> (items.foldlM r.gather found >>= r.ofMapping) := by
  induction items generalizing found fuel with
  | nil =>
    obtain ⟨fuel, rfl⟩ := Nat.exists_eq_add_one.mpr enough
    exact readItems_end found false fuel rest
  | cons item items ih =>
    obtain ⟨fuel, rfl⟩ := Nat.exists_eq_add_one.mpr (Nat.zero_lt_of_lt enough)
    obtain ⟨composes, others⟩ := List.forall_mem_cons.mp composed
    obtain ⟨ends, others_end⟩ := List.forall_mem_cons.mp ends
    have tokens : following (item :: items) ++ .closeBrace :: rest =
        .comma :: .text (some item.1) :: .colon ::
          (item.2 ++ (following items ++ .closeBrace :: rest)) := by
      simp [following, itemTokens]
    rw [tokens, (readItems_item ..).2, readItem_append composes ends, List.foldlM_cons]
    cases r.gather found item with
    | error problem => rfl
    | ok found => exact ih others others_end (Nat.succ_lt_succ_iff.mp enough) found

theorem length_following (items : List (String × List Token)) :
    items.length ≤ (following items).length := by
  induction items with
  | nil => exact Nat.le_refl _
  | cons item items ih =>
    simp only [following, List.flatMap_cons, List.length_append, List.length_cons] at ih ⊢
    omega

/-- The items of a mapping are read one after the other. -/
theorem read_mapping {items : List (String × List Token)}
    (composed : ∀ item ∈ items, Composes .value item.2)
    (ends : ∀ item ∈ items, item.1 = r.field → r.item.Ends item.2) (rest : List Token) :
    r.read (.openBrace :: (joined items ++ .closeBrace :: rest)) =
      (fun a => (a, rest)) <$> (items.foldlM r.gather none >>= r.ofMapping) := by
  cases items with
  | nil => exact readItems_end none true (rest.length + 1) rest
  | cons item items =>
    obtain ⟨composes, others⟩ := List.forall_mem_cons.mp composed
    obtain ⟨ends, others_end⟩ := List.forall_mem_cons.mp ends
    have tokens : joined (item :: items) ++ .closeBrace :: rest =
        .text (some item.1) :: .colon ::
          (item.2 ++ (following items ++ .closeBrace :: rest)) := by
      simp [joined, itemTokens]
    have enough := length_following items
    rw [tokens, read, (readItems_item ..).1, readItem_append composes ends, List.foldlM_cons]
    cases r.gather none item with
    | error problem => rfl
    | ok found =>
      refine readItems_following others others_end ?_ found rest
      simp only [List.length_cons, List.length_append]
      omega

/-- Only the items of the record's own name matter. -/
theorem foldlM_gather_filter {items : List (String × List Token)}
    (composed : ∀ item ∈ items, Composes .value item.2) (found : Option α) :
    items.foldlM r.gather found =
      (items.filter fun item => item.1 = r.field).foldlM r.gather found := by
  induction items generalizing found with
  | nil => rfl
  | cons item items ih =>
    obtain ⟨composes, others⟩ := List.forall_mem_cons.mp composed
    by_cases named : item.1 = r.field
    · rw [List.filter_cons_of_pos (by simpa using named), List.foldlM_cons, List.foldlM_cons]
      exact congrArg (r.gather found item >>= ·) (funext (ih others))
    · rw [List.filter_cons_of_neg (by simpa using named), List.foldlM_cons,
        gather_of_ne named composes]
      exact ih others found

end Record

/-! ## Members -/

/-- The item that a member is read as. -/
def Member.item (m : Member) : String × List Token :=
  (m.name, tokens m.value)

theorem CutInto.tokensOf {cs : List Char} {ts : List Token} (cut : CutInto cs ts) :
    tokensOf cs = ts := by
  simpa using cut [] .nil

theorem Member.Written.cut {m : Member} {cs : List Char} (written : m.Written cs) :
    CutInto cs (itemTokens m.item) ∧ Composes .value m.item.2 := by
  obtain ⟨blank_before, spells, blank_between, blank_after, formed, blank_ending⟩ := written
  obtain ⟨ts, composes, cut⟩ := formed.cut
  have own : m.item.2 = ts := cut.tokensOf
  rw [itemTokens, own]
  exact ⟨.named blank_before (tokensOf_spells spells) blank_between
    (.padded blank_after cut blank_ending), composes⟩

theorem Listed.cut {ms : List Member} {cs : List Char} (listed : Listed ms cs) :
    ms ≠ [] ∧ CutInto cs (joined (ms.map Member.item)) ∧
      ∀ item ∈ ms.map Member.item, Composes .value item.2 := by
  induction listed with
  | last written =>
    obtain ⟨cut, composes⟩ := written.cut
    refine ⟨nofun, ?_, by simpa using composes⟩
    simpa [joined, following] using cut
  | more written _ ih =>
    obtain ⟨cut, composes⟩ := written.cut
    obtain ⟨some_member, cut_more, composed⟩ := ih
    refine ⟨nofun, ?_, by simpa using ⟨composes, by simpa using composed⟩⟩
    obtain ⟨m', ms, rfl⟩ := List.exists_cons_of_ne_nil some_member
    exact cut.comma cut_more

theorem Mapping.cut {ms : List Member} {cs : List Char} (mapping : Mapping ms cs) :
    CutInto cs (.openBrace :: (joined (ms.map Member.item) ++ [.closeBrace])) ∧
      ∀ item ∈ ms.map Member.item, Composes .value item.2 := by
  cases mapping with
  | empty blank_before blank_between blank_after =>
    have cut := (CutInto.blanks blank_between).braced.padded blank_before blank_after
    exact ⟨by simpa [joined] using cut, nofun⟩
  | some blank_before listed blank_after =>
    obtain ⟨-, cut, composed⟩ := listed.cut
    exact ⟨by simpa using cut.braced.padded blank_before blank_after, composed⟩

namespace Record

variable {α : Type} {r : Record α} {ms : List Member} {text : String}

theorem foldlM_gather_members (composed : ∀ item ∈ ms.map Member.item, Composes .value item.2) :
    (ms.map Member.item).foldlM r.gather none =
      ((ms.filter fun m => m.name = r.field).map Member.item).foldlM r.gather none := by
  rw [foldlM_gather_filter composed, List.filter_map]
  rfl

/-- What has been found after the only member of the record's own name. -/
theorem foldlM_gather_single {m : Member} (single : (ms.filter fun m => m.name = r.field) = [m]) :
    ((ms.filter fun m => m.name = r.field).map Member.item).foldlM r.gather none =
      (fun read => some read.1) <$> r.item (tokens m.value) := by
  have member : m ∈ ms.filter fun m => m.name = r.field := by simp [single]
  have named : m.item.1 = r.field := of_decide_eq_true (List.mem_filter.mp member).2
  have value : m.item.2 = tokens m.value := rfl
  rw [single, List.map_singleton, List.foldlM_cons, gather_of_eq named, value]
  cases r.item (tokens m.value) <;> rfl

/-- A text that is a mapping is read by its members of the record's own name. -/
theorem ofText_of_mapping (whole : r.item.Whole) (mapping : Mapping ms text.toList) :
    r.ofText text =
      (((ms.filter fun m => m.name = r.field).map Member.item).foldlM r.gather none >>=
        r.ofMapping) := by
  obtain ⟨cut, composed⟩ := mapping.cut
  have read : r.read (tokens text) = _ :=
    (congrArg r.read cut.tokensOf).trans
      (read_mapping composed (fun item member _ => whole (composed item member)) [])
  rw [ofText, read, foldlM_gather_members composed]
  cases ((ms.filter fun m => m.name = r.field).map Member.item).foldlM r.gather none >>=
    r.ofMapping <;> rfl

/-- A text without the record's own name has the value of a field that is missing. -/
theorem ofText_of_missing (whole : r.item.Whole) (mapping : Mapping ms text.toList)
    (missing : (ms.filter fun m => m.name = r.field) = []) :
    r.ofText text = r.ofMapping none := by
  rw [ofText_of_mapping whole mapping, missing]
  rfl

/-- A text in which the record's own name stands once has the value that stands there. -/
theorem ofText_of_single (whole : r.item.Whole) (mapping : Mapping ms text.toList) {m : Member}
    (single : (ms.filter fun m => m.name = r.field) = [m]) :
    r.ofText text = (·.1) <$> r.item (tokens m.value) := by
  rw [ofText_of_mapping whole mapping, foldlM_gather_single single]
  cases r.item (tokens m.value) <;> rfl

/-- A text in which the record's own name stands more than once is refused, whatever the values
are. -/
theorem ofText_of_repeated (whole : r.item.Whole) (mapping : Mapping ms text.toList)
    {m m' : Member} {others : List Member}
    (repeated : (ms.filter fun m => m.name = r.field) = m :: m' :: others) :
    ∃ problem, r.ofText text = .error problem := by
  have member : ∀ n ∈ m :: m' :: others, n.item.1 = r.field := by
    intro n inside
    rw [← repeated] at inside
    exact of_decide_eq_true (List.mem_filter.mp inside).2
  rw [ofText_of_mapping whole mapping, repeated, List.map_cons, List.map_cons, List.foldlM_cons,
    gather_of_eq (member m (by simp))]
  cases r.item m.item.2 with
  | error problem => exact ⟨problem, rfl⟩
  | ok read =>
    have again := gather_of_found (member m' (by simp)) read.1
    refine ⟨.unfit ("duplicate field `" ++ r.field ++ "`"), ?_⟩
    change (r.gather (some read.1) m'.item >>= _) >>= _ = _
    rw [again]
    rfl

end Record

end Interlock.Json
