import Interlock.Text.Bytes

/-!
# Reading bytes inverts writing text

Strict reading accepts the bytes of a text, gives the text back, and accepts nothing else
(`ofBytes?_eq_some_iff`). Showing gives a text back from its bytes as well (`shown_toBytes`), and
shows a slash only where there is one (`slash_notMem_shown`).

`Partial.Takes` says which bytes complete a character in progress. With it both directions are
statements about the bytes of one character.
-/

namespace Interlock.Text

theorem toBytes_append (a b : String) : toBytes (a ++ b) = toBytes a ++ toBytes b := by
  unfold toBytes
  simp [String.toUTF8_eq_toByteArray]

theorem toBytes_ofList (chars : List Char) :
    toBytes (String.ofList chars) = chars.flatMap String.utf8EncodeChar := by
  unfold toBytes
  rw [String.toUTF8_eq_toByteArray, String.toByteArray_ofList, List.utf8Encode,
    List.toList_data_toByteArray]

/-- The byte may come next. -/
def Partial.Admits (c : Partial) (byte : UInt8) : Prop :=
  c.next.1 ≤ byte.toNat ∧ byte.toNat ≤ c.next.2

/-- The value of the bits of a character in progress after one more byte. -/
def Partial.extended (c : Partial) (byte : UInt8) : Nat :=
  c.bits * 0x40 + byte.toNat % 0x40

/-- The bytes complete the character in progress, whose number is then the given one. -/
inductive Partial.Takes : Partial → List UInt8 → Nat → Prop where
  | last {c : Partial} {byte : UInt8} (admits : c.Admits byte) (ends : c.later = []) :
    Takes c [byte] (c.extended byte)
  | more {c : Partial} {byte : UInt8} {next : Nat × Nat} {later : List (Nat × Nat)}
      {bytes : List UInt8} {code : Nat} (admits : c.Admits byte) (goes_on : c.later = next :: later)
      (rest : Takes ⟨c.extended byte, next, later⟩ bytes code) : Takes c (byte :: bytes) code

variable {c : Partial} {byte : UInt8} {bytes rest taken : List UInt8} {code : Nat}
  {chars : List Char}

theorem partsFrom_last (admits : c.Admits byte) (ends : c.later = []) :
    partsFrom (some c) (byte :: rest) =
      some (Char.ofNat (c.extended byte)) :: partsFrom none rest := by
  have within : c.next.1 ≤ byte.toNat ∧ byte.toNat ≤ c.next.2 := admits
  simp only [partsFrom, readByte, if_pos within, ends]
  rfl

theorem partsFrom_more {next : Nat × Nat} {later : List (Nat × Nat)} (admits : c.Admits byte)
    (goes_on : c.later = next :: later) :
    partsFrom (some c) (byte :: rest) = partsFrom (some ⟨c.extended byte, next, later⟩) rest := by
  have within : c.next.1 ≤ byte.toNat ∧ byte.toNat ≤ c.next.2 := admits
  simp only [partsFrom, readByte, if_pos within, goes_on]
  rfl

theorem Partial.Takes.partsFrom_append (takes : c.Takes taken code) :
    partsFrom (some c) (taken ++ rest) = some (Char.ofNat code) :: partsFrom none rest := by
  induction takes with
  | last admits ends => exact partsFrom_last admits ends
  | more admits goes_on _ ih => exact (partsFrom_more admits goes_on).trans ih

/-- Where all parts are characters, the next byte is one that may come. -/
theorem exists_admitted (sound : partsFrom (some c) bytes = chars.map some) :
    ∃ byte rest, bytes = byte :: rest ∧ c.Admits byte := by
  cases bytes with
  | nil => cases chars <;> simp [partsFrom] at sound
  | cons byte rest =>
    refine ⟨byte, rest, rfl, ?_⟩
    by_cases within : c.next.1 ≤ byte.toNat ∧ byte.toNat ≤ c.next.2
    · exact within
    · simp only [partsFrom, readByte, if_neg within, List.cons_append] at sound
      cases chars <;> simp at sound

/-- Where all parts are characters, a character in progress is completed. -/
theorem exists_taken (sound : partsFrom (some c) bytes = chars.map some) :
    ∃ taken rest code chars', bytes = taken ++ rest ∧ c.Takes taken code ∧
      chars = Char.ofNat code :: chars' ∧ partsFrom none rest = chars'.map some := by
  generalize more : c.later = later
  induction later generalizing c bytes with
  | nil =>
    obtain ⟨byte, rest, rfl, admits⟩ := exists_admitted sound
    rw [partsFrom_last admits more] at sound
    cases chars with
    | nil => cases sound
    | cons char chars' =>
      obtain ⟨same, sound⟩ := List.cons.inj sound
      exact ⟨[byte], rest, _, chars', rfl, .last admits more, by rw [Option.some.inj same], sound⟩
  | cons next later ih =>
    obtain ⟨byte, rest, rfl, admits⟩ := exists_admitted sound
    rw [partsFrom_more admits more] at sound
    obtain ⟨taken, rest', code, chars', rfl, takes, same, sound⟩ := ih sound rfl
    exact ⟨byte :: taken, rest', code, chars', rfl, .more admits more takes, same, sound⟩

/-! ## The first byte of a character -/

theorem begin_one {b : Nat} (ascii : b < 0x80) :
    beginCharacter b = ([some (Char.ofNat b)], none) :=
  if_pos ascii

theorem begin_two {b : Nat} (lead : 0xc2 ≤ b ∧ b < 0xe0) :
    beginCharacter b = ([], some ⟨b % 0x20, follower, []⟩) := by
  unfold beginCharacter
  rw [if_neg (by omega), if_neg (by omega), if_pos lead.2]

theorem begin_three {b : Nat} (lead : 0xe0 ≤ b ∧ b < 0xf0) :
    beginCharacter b = ([], some ⟨b % 0x10,
      (if b = 0xe0 then 0xa0 else 0x80, if b = 0xed then 0x9f else 0xbf), [follower]⟩) := by
  unfold beginCharacter
  rw [if_neg (by omega), if_neg (by omega), if_neg (by omega)]
  by_cases short : b = 0xe0
  · subst short
    rfl
  by_cases surrogate : b = 0xed
  · subst surrogate
    rfl
  rw [if_neg short, if_neg surrogate, if_pos lead.2, if_neg short, if_neg surrogate]
  rfl

theorem begin_four {b : Nat} (lead : 0xf0 ≤ b ∧ b < 0xf5) :
    beginCharacter b = ([], some ⟨b % 0x08,
      (if b = 0xf0 then 0x90 else 0x80, if b = 0xf4 then 0x8f else 0xbf),
      [follower, follower]⟩) := by
  unfold beginCharacter
  rw [if_neg (by omega), if_neg (by omega), if_neg (by omega), if_neg (by omega),
    if_neg (by omega), if_neg (by omega)]
  by_cases short : b = 0xf0
  · subst short
    rfl
  by_cases long : b = 0xf4
  · subst long
    rfl
  rw [if_neg short, if_pos (by omega), if_neg short, if_neg long]
  rfl

/-- No character begins with any other byte. -/
theorem begin_invalid {b : Nat} (outside : 0x80 ≤ b ∧ b < 0xc2 ∨ 0xf5 ≤ b) :
    beginCharacter b = ([none], none) := by
  unfold beginCharacter
  rw [if_neg (by omega)]
  rcases outside with low | high
  · rw [if_pos low.2]
  · rw [if_neg (by omega), if_neg (by omega), if_neg (by omega), if_neg (by omega),
      if_neg (by omega), if_neg (by omega), if_neg (by omega), if_neg (by omega)]

/-- A first byte begins a character of one, two, three or four bytes, or none. -/
theorem lead_cases (b : Nat) :
    b < 0x80 ∨ (0xc2 ≤ b ∧ b < 0xe0) ∨ (0xe0 ≤ b ∧ b < 0xf0) ∨ (0xf0 ≤ b ∧ b < 0xf5) ∨
      (0x80 ≤ b ∧ b < 0xc2 ∨ 0xf5 ≤ b) := by
  omega

/-! ## The bytes of one character -/

theorem toNat_ofNat {n : Nat} (small : n < 0x100) : (UInt8.ofNat n).toNat = n :=
  UInt8.toNat_ofNat_of_lt' small

theorem ofNat_eq (byte : UInt8) {n : Nat} (same : byte.toNat = n) : UInt8.ofNat n = byte :=
  same ▸ UInt8.ofNat_toNat

/-- A byte after the first of a character. -/
def IsTail (byte : UInt8) : Prop :=
  0x80 ≤ byte.toNat ∧ byte.toNat ≤ 0xbf

theorem val_ofNat {n : Nat} (valid : n.isValidChar) : (Char.ofNat n).val.toNat = n := by
  rw [Char.ofNat, dif_pos valid]
  rfl

/-- The number of a character is the one that it was made of, unless there is no such character. -/
theorem toNat_ofNat_cases (n : Nat) : (Char.ofNat n).toNat = n ∨ (Char.ofNat n).toNat = 0 := by
  by_cases valid : n.isValidChar
  · exact .inl (val_ofNat valid)
  · rw [Char.ofNat, dif_neg valid]
    exact .inr rfl

theorem encode_one (ascii : byte.toNat < 0x80) :
    String.utf8EncodeChar (Char.ofNat byte.toNat) = [byte] := by
  have value := val_ofNat (n := byte.toNat) (.inl (by omega))
  simp only [String.utf8EncodeChar, value]
  rw [if_pos (by omega), ofNat_eq byte rfl]

theorem encode_two {first second : UInt8} (bits : Nat) (lead : first.toNat = 0xc0 + bits)
    (size : 2 ≤ bits ∧ bits < 0x20) (tail : IsTail second) :
    String.utf8EncodeChar (Char.ofNat (bits * 0x40 + second.toNat % 0x40)) = [first, second] := by
  obtain ⟨low, high⟩ := tail
  have value := val_ofNat (n := bits * 0x40 + second.toNat % 0x40) (.inl (by omega))
  simp only [String.utf8EncodeChar, value]
  rw [if_neg (by omega), if_pos (by omega), ofNat_eq first (by omega),
    ofNat_eq second (by omega)]

theorem encode_three {first second third : UInt8} (bits : Nat)
    (lead : first.toNat = 0xe0 + bits) (size : bits < 0x10) (tail : IsTail second)
    (tail' : IsTail third) (short : bits = 0 → 0xa0 ≤ second.toNat)
    (surrogate : bits = 0x0d → second.toNat ≤ 0x9f) :
    String.utf8EncodeChar (Char.ofNat
      ((bits * 0x40 + second.toNat % 0x40) * 0x40 + third.toNat % 0x40)) =
        [first, second, third] := by
  obtain ⟨low, high⟩ := tail
  obtain ⟨low', high'⟩ := tail'
  have value := val_ofNat
    (n := (bits * 0x40 + second.toNat % 0x40) * 0x40 + third.toNat % 0x40) (by omega)
  simp only [String.utf8EncodeChar, value]
  rw [if_neg (by omega), if_neg (by omega), if_pos (by omega), ofNat_eq first (by omega),
    ofNat_eq second (by omega), ofNat_eq third (by omega)]

theorem encode_four {first second third fourth : UInt8} (bits : Nat)
    (lead : first.toNat = 0xf0 + bits) (size : bits ≤ 4) (tail : IsTail second)
    (tail' : IsTail third) (tail'' : IsTail fourth) (short : bits = 0 → 0x90 ≤ second.toNat)
    (long : bits = 4 → second.toNat ≤ 0x8f) :
    String.utf8EncodeChar (Char.ofNat
      (((bits * 0x40 + second.toNat % 0x40) * 0x40 + third.toNat % 0x40) * 0x40 +
        fourth.toNat % 0x40)) = [first, second, third, fourth] := by
  obtain ⟨low, high⟩ := tail
  obtain ⟨low', high'⟩ := tail'
  obtain ⟨low'', high''⟩ := tail''
  have value := val_ofNat
    (n := ((bits * 0x40 + second.toNat % 0x40) * 0x40 + third.toNat % 0x40) * 0x40 +
      fourth.toNat % 0x40) (by omega)
  simp only [String.utf8EncodeChar, value]
  rw [if_neg (by omega), if_neg (by omega), if_neg (by omega), ofNat_eq first (by omega),
    ofNat_eq second (by omega), ofNat_eq third (by omega),
    ofNat_eq fourth (by omega)]

/-! What completes a character that has begun is the rest of its bytes. -/

theorem encode_of_takes_two (lead : 0xc2 ≤ byte.toNat ∧ byte.toNat < 0xe0)
    (takes : (Partial.mk (byte.toNat % 0x20) follower []).Takes taken code) :
    String.utf8EncodeChar (Char.ofNat code) = byte :: taken := by
  cases takes with
  | last admits _ => exact encode_two (byte.toNat % 0x20) (by omega) (by omega) admits
  | more _ goes_on _ => cases goes_on

theorem encode_of_takes_three (lead : 0xe0 ≤ byte.toNat ∧ byte.toNat < 0xf0)
    (takes : (Partial.mk (byte.toNat % 0x10) (if byte.toNat = 0xe0 then 0xa0 else 0x80,
      if byte.toNat = 0xed then 0x9f else 0xbf) [follower]).Takes taken code) :
    String.utf8EncodeChar (Char.ofNat code) = byte :: taken := by
  cases takes with
  | last _ ends => cases ends
  | more admits goes_on rest =>
    cases goes_on
    cases rest with
    | more _ goes_on _ => cases goes_on
    | last admits' _ =>
      obtain ⟨least, greatest⟩ := admits
      dsimp only at least greatest
      refine encode_three (byte.toNat % 0x10) (by omega) (by omega) ⟨?_, ?_⟩ admits' ?_ ?_
      · split at least <;> omega
      · split at greatest <;> omega
      · intro short
        rwa [if_pos (by omega)] at least
      · intro surrogate
        rwa [if_pos (by omega)] at greatest

theorem encode_of_takes_four (lead : 0xf0 ≤ byte.toNat ∧ byte.toNat < 0xf5)
    (takes : (Partial.mk (byte.toNat % 0x08) (if byte.toNat = 0xf0 then 0x90 else 0x80,
      if byte.toNat = 0xf4 then 0x8f else 0xbf) [follower, follower]).Takes taken code) :
    String.utf8EncodeChar (Char.ofNat code) = byte :: taken := by
  cases takes with
  | last _ ends => cases ends
  | more admits goes_on rest =>
    cases goes_on
    cases rest with
    | last _ ends => cases ends
    | more admits' goes_on rest =>
      cases goes_on
      cases rest with
      | more _ goes_on _ => cases goes_on
      | last admits'' _ =>
        obtain ⟨least, greatest⟩ := admits
        dsimp only at least greatest
        refine encode_four (byte.toNat % 0x08) (by omega) (by omega) ⟨?_, ?_⟩ admits' admits'' ?_ ?_
        · split at least <;> omega
        · split at greatest <;> omega
        · intro short
          rwa [if_pos (by omega)] at least
        · intro long
          rwa [if_pos (by omega)] at greatest

theorem Partial.Takes.of_eq {code' : Nat} (takes : c.Takes taken code) (same : code = code') :
    c.Takes taken code' :=
  same ▸ takes

/-- The bytes of a character outside of ASCII begin it and complete it. -/
theorem exists_takes (char : Char) (beyond : 0x80 ≤ char.toNat) :
    ∃ byte c taken, String.utf8EncodeChar char = byte :: taken ∧
      beginCharacter byte.toNat = ([], some c) ∧ c.Takes taken char.toNat := by
  have valid : char.toNat.isValidChar := char.valid
  generalize here : char.toNat = v at beyond valid
  have encoded : char.val.toNat = v := here
  simp only [String.utf8EncodeChar, encoded]
  rw [if_neg (by omega)]
  have tail {n : Nat} : IsTail (UInt8.ofNat (n % 64 + 128)) := by
    unfold IsTail
    rw [toNat_ofNat (by omega)]
    omega
  by_cases two : v ≤ 2047
  · rw [if_pos two]
    have lead : (UInt8.ofNat (v / 64 % 32 + 192)).toNat = v / 64 % 32 + 192 :=
      toNat_ofNat (by omega)
    refine ⟨_, _, _, rfl, begin_two (by omega), .of_eq (.last tail rfl) ?_⟩
    simp only [Partial.extended, lead, toNat_ofNat (n := v % 64 + 128) (by omega)]
    omega
  by_cases three : v ≤ 65535
  · rw [if_neg two, if_pos three]
    have lead : (UInt8.ofNat (v / 4096 % 16 + 224)).toNat = v / 4096 % 16 + 224 :=
      toNat_ofNat (by omega)
    have second : (UInt8.ofNat (v / 64 % 64 + 128)).toNat = v / 64 % 64 + 128 :=
      toNat_ofNat (by omega)
    refine ⟨_, _, _, rfl, begin_three (by omega), .of_eq (.more ⟨?_, ?_⟩ rfl (.last tail rfl)) ?_⟩
    · dsimp only
      rw [lead, second]
      split <;> omega
    · dsimp only
      rw [lead, second]
      split <;> omega
    · simp only [Partial.extended, lead, second, toNat_ofNat (n := v % 64 + 128) (by omega)]
      omega
  · rw [if_neg two, if_neg three]
    have lead : (UInt8.ofNat (v / 262144 % 8 + 240)).toNat = v / 262144 % 8 + 240 :=
      toNat_ofNat (by omega)
    have second : (UInt8.ofNat (v / 4096 % 64 + 128)).toNat = v / 4096 % 64 + 128 :=
      toNat_ofNat (by omega)
    refine ⟨_, _, _, rfl, begin_four (by omega),
      .of_eq (.more ⟨?_, ?_⟩ rfl (.more tail rfl (.last tail rfl))) ?_⟩
    · dsimp only
      rw [lead, second]
      split <;> omega
    · dsimp only
      rw [lead, second]
      split <;> omega
    · simp only [Partial.extended, lead, second, toNat_ofNat (n := v / 64 % 64 + 128) (by omega),
        toNat_ofNat (n := v % 64 + 128) (by omega)]
      omega

/-! ## Whole texts -/

theorem partsFrom_none_cons (byte : UInt8) (rest : List UInt8) :
    partsFrom none (byte :: rest) =
      (beginCharacter byte.toNat).1 ++ partsFrom (beginCharacter byte.toNat).2 rest := rfl

/-- The bytes of a character are read as this character. -/
theorem partsFrom_encode (char : Char) (rest : List UInt8) :
    partsFrom none (String.utf8EncodeChar char ++ rest) = some char :: partsFrom none rest := by
  by_cases ascii : char.toNat < 0x80
  · have bytes : String.utf8EncodeChar char = [UInt8.ofNat char.toNat] := by
      have encoded : char.val.toNat = char.toNat := rfl
      simp only [String.utf8EncodeChar, encoded]
      exact if_pos (by omega)
    have value : (UInt8.ofNat char.toNat).toNat = char.toNat := toNat_ofNat (by omega)
    rw [bytes, List.singleton_append, partsFrom_none_cons, value, begin_one ascii, Char.ofNat_toNat]
    rfl
  · obtain ⟨byte, c, taken, bytes, begins, takes⟩ := exists_takes char (by omega)
    rw [bytes, List.cons_append, partsFrom_none_cons, begins, List.nil_append,
      takes.partsFrom_append, Char.ofNat_toNat]

theorem partsFrom_flatMap (chars : List Char) :
    partsFrom none (chars.flatMap String.utf8EncodeChar) = chars.map some := by
  induction chars with
  | nil => rfl
  | cons char chars ih => rw [List.flatMap_cons, partsFrom_encode, ih, List.map_cons]

/-- Where all parts are characters, the first bytes are those of the first character. -/
theorem exists_first (sound : partsFrom none (byte :: bytes) = chars.map some) :
    ∃ char chars' rest, chars = char :: chars' ∧
      byte :: bytes = String.utf8EncodeChar char ++ rest ∧
      partsFrom none rest = chars'.map some := by
  rw [partsFrom_none_cons] at sound
  -- the remaining bytes of a character that has begun
  have completed {c : Partial} (begins : beginCharacter byte.toNat = ([], some c))
      (encodes : ∀ {taken code}, c.Takes taken code →
        String.utf8EncodeChar (Char.ofNat code) = byte :: taken) :
      ∃ char chars' rest, chars = char :: chars' ∧
        byte :: bytes = String.utf8EncodeChar char ++ rest ∧
        partsFrom none rest = chars'.map some := by
    rw [begins] at sound
    obtain ⟨taken, rest, code, chars', rfl, takes, same, sound⟩ := exists_taken sound
    exact ⟨_, chars', rest, same, by rw [encodes takes, List.cons_append], sound⟩
  rcases lead_cases byte.toNat with one | two | three | four | outside
  · rw [begin_one one] at sound
    cases chars with
    | nil => cases sound
    | cons char chars' =>
      obtain ⟨same, sound⟩ := List.cons.inj sound
      refine ⟨char, chars', bytes, rfl, ?_, sound⟩
      rw [← Option.some.inj same, encode_one one, List.singleton_append]
  · exact completed (begin_two two) (encode_of_takes_two two)
  · exact completed (begin_three three) (encode_of_takes_three three)
  · exact completed (begin_four four) (encode_of_takes_four four)
  · rw [begin_invalid outside] at sound
    cases chars <;> cases sound

/-- Bytes of which all parts are characters are the bytes of these characters. -/
theorem eq_flatMap_of_sound (sound : partsFrom none bytes = chars.map some) :
    bytes = chars.flatMap String.utf8EncodeChar := by
  induction chars generalizing bytes with
  | nil =>
    cases bytes with
    | nil => rfl
    | cons byte bytes =>
      obtain ⟨_, _, _, impossible, -⟩ := exists_first sound
      cases impossible
  | cons char chars ih =>
    cases bytes with
    | nil => cases sound
    | cons byte bytes =>
      obtain ⟨_, _, rest, same, bytes_eq, sound⟩ := exists_first sound
      cases same
      rw [bytes_eq, List.flatMap_cons, ← ih sound]

theorem mapM_id_eq_some {parts : List (Option Char)} :
    parts.mapM id = some chars ↔ parts = chars.map some := by
  induction parts generalizing chars with
  | nil => cases chars <;> simp
  | cons part parts ih =>
    cases part with
    | none => cases chars <;> simp
    | some first =>
      have split : (some first :: parts).mapM id = some chars ↔
          ∃ others, parts = others.map some ∧ first :: others = chars := by
        simp [Option.bind_eq_some_iff, ih]
      rw [split]
      cases chars with
      | nil => simp
      | cons char chars =>
        rw [List.map_cons, List.cons.injEq, Option.some.injEq]
        constructor
        · rintro ⟨others, same, paired⟩
          cases paired
          exact ⟨rfl, same⟩
        · rintro ⟨rfl, same⟩
          exact ⟨chars, same, rfl⟩

/-- Reading accepts the bytes of a text and nothing else. -/
theorem ofBytes?_eq_some_iff {text : String} :
    ofBytes? bytes = some text ↔ toBytes text = bytes := by
  unfold ofBytes?
  rw [Option.map_eq_some_iff]
  constructor
  · rintro ⟨chars, sound, rfl⟩
    rw [toBytes_ofList]
    exact (eq_flatMap_of_sound (mapM_id_eq_some.mp sound)).symm
  · rintro rfl
    refine ⟨text.toList, mapM_id_eq_some.mpr ?_, String.ofList_toList⟩
    rw [← partsFrom_flatMap, ← toBytes_ofList, String.ofList_toList]

theorem ofBytes?_eq_none_iff : ofBytes? bytes = none ↔ ∀ text, toBytes text ≠ bytes := by
  rw [Option.eq_none_iff_forall_ne_some]
  exact forall_congr' fun text => not_congr ofBytes?_eq_some_iff

/-- A text is shown as it is. -/
theorem shown_toBytes (text : String) : shown (toBytes text) = text := by
  have parts : partsFrom none (toBytes text) = text.toList.map some := by
    rw [← partsFrom_flatMap, ← toBytes_ofList, String.ofList_toList]
  unfold shown
  rw [parts, List.map_map]
  exact (congrArg String.ofList (List.map_id _)).trans String.ofList_toList

theorem toBytes_inj {a b : String} (same : toBytes a = toBytes b) : a = b := by
  rw [← shown_toBytes a, same, shown_toBytes]

/-! ## Characters of one byte

Also where bytes fit no rule, a character of ASCII comes from its own byte only. The character of
number zero is left out, since `Char.ofNat` gives it for the numbers of no character. -/

/-- The character in progress is beyond ASCII, whatever its further bytes are. -/
def Partial.Beyond (c : Partial) : Prop :=
  2 ≤ c.bits ∨ c.later ≠ [] ∧ (1 ≤ c.bits ∨ 0x90 ≤ c.next.1 ∧ c.next.2 ≤ 0xbf)

theorem beyond_of_begin {b : Nat} (begins : (beginCharacter b).2 = some c) : c.Beyond := by
  rcases lead_cases b with one | two | three | four | outside
  · rw [begin_one one] at begins
    cases begins
  · rw [begin_two two] at begins
    cases begins
    exact .inl (by dsimp only; omega)
  · rw [begin_three three] at begins
    cases begins
    refine .inr ⟨by simp, ?_⟩
    dsimp only
    split <;> split <;> omega
  · rw [begin_four four] at begins
    cases begins
    refine .inr ⟨by simp, ?_⟩
    dsimp only
    split <;> split <;> omega
  · rw [begin_invalid outside] at begins
    cases begins

theorem Partial.Beyond.extended (beyond : c.Beyond) (admits : c.Admits byte) :
    2 ≤ c.extended byte ∧ (c.later = [] → 0x80 ≤ c.extended byte) := by
  obtain ⟨least, greatest⟩ := admits
  unfold Partial.extended
  rcases beyond with large | ⟨more, some_bits | high⟩
  · omega
  · exact ⟨by omega, fun ends => absurd ends more⟩
  · exact ⟨by omega, fun ends => absurd ends more⟩

/-- A character of ASCII that a first byte gives is the byte itself. -/
theorem eq_of_mem_begin {b : Nat} {char : Char} (member : some char ∈ (beginCharacter b).1) :
    b = char.toNat := by
  rcases lead_cases b with one | two | three | four | outside
  · rw [begin_one one] at member
    rw [Option.some.inj (List.mem_singleton.mp member)]
    exact (val_ofNat (.inl (by omega))).symm
  · rw [begin_two two] at member
    cases member
  · rw [begin_three three] at member
    cases member
  · rw [begin_four four] at member
    cases member
  · rw [begin_invalid outside] at member
    cases List.mem_singleton.mp member

/-- So is one that a further byte gives, and what is in progress then is beyond ASCII again. -/
theorem readByte_beyond {current : Option Partial} (byte : UInt8)
    (beyond : ∀ c, current = some c → c.Beyond) :
    (∀ char : Char, 0 < char.toNat ∧ char.toNat < 0x80 →
      some char ∈ (readByte current byte.toNat).1 → byte.toNat = char.toNat) ∧
    ∀ c, (readByte current byte.toNat).2 = some c → c.Beyond := by
  cases current with
  | none => exact ⟨fun _ _ member => eq_of_mem_begin member, fun _ begins => beyond_of_begin begins⟩
  | some c =>
    unfold readByte
    dsimp only
    split
    next admits =>
      have admits : c.Admits byte := admits
      obtain ⟨large, ends⟩ := (beyond c rfl).extended admits
      split
      next last =>
        refine ⟨fun char ascii member => ?_, fun _ begins => (nomatch begins)⟩
        have same : char = Char.ofNat (c.extended byte) :=
          Option.some.inj (List.mem_singleton.mp member)
        have large := ends last
        rcases toNat_ofNat_cases (c.extended byte) with value | value <;> rw [← same] at value <;>
          omega
      next next later more =>
        refine ⟨fun _ _ member => (nomatch member), fun c begins => ?_⟩
        cases begins
        exact .inl large
    next =>
      refine ⟨fun char _ member => ?_, fun _ begins => beyond_of_begin begins⟩
      rcases List.mem_cons.mp member with impossible | member
      · cases impossible
      · exact eq_of_mem_begin member

theorem exists_of_mem_partsFrom {current : Option Partial} {char : Char}
    (ascii : 0 < char.toNat ∧ char.toNat < 0x80) (beyond : ∀ c, current = some c → c.Beyond)
    (member : some char ∈ partsFrom current bytes) : ∃ byte ∈ bytes, byte.toNat = char.toNat := by
  induction bytes generalizing current with
  | nil =>
    unfold partsFrom at member
    split at member <;> simp at member
  | cons byte rest ih =>
    obtain ⟨own, beyond⟩ := readByte_beyond byte beyond
    rcases List.mem_append.mp member with here | later
    · exact ⟨byte, List.mem_cons_self, own char ascii here⟩
    · obtain ⟨other, among, same⟩ := ih beyond later
      exact ⟨other, List.mem_cons_of_mem _ among, same⟩

/-- Bytes without a slash are shown without one. -/
theorem slash_notMem_shown (unslashed : '/'.toUInt8 ∉ bytes) : '/' ∉ (shown bytes).toList := by
  intro member
  rw [shown, String.toList_ofList, List.mem_map] at member
  obtain ⟨part, among, same⟩ := member
  cases part with
  | none => exact absurd same (by decide)
  | some char =>
    obtain rfl : char = '/' := same
    have at_first (c : Partial) (begun : none = some c) : c.Beyond := by cases begun
    obtain ⟨byte, among, same⟩ := exists_of_mem_partsFrom (by decide) at_first among
    obtain rfl : byte = '/'.toUInt8 := UInt8.toNat_inj.mp same
    exact unslashed among

end Interlock.Text
