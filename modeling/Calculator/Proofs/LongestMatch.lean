/-
# The longest match in bytes

A numeral and a name are searched at the head of a text. In the bytes of the text
(UTF-8) both searches take the longest match there is (`LongestPrefix`): the numeral with
the most bytes, and the name with the most bytes, the case of ASCII letters aside. No
byte of a numeral or a name is 128 or more, and every byte of a character beyond ASCII
is. So bytes that match are never part of a character: as many characters as bytes are
taken, each of one byte, and what is left is the bytes of the characters that are left
(`asciiHead_of_isPrefix`).

Key definitions: `bytes`, `AsciiHead`, `LongestPrefix`, `IsNumeral`, `Name.SpelledBy`.
Key theorems: `asciiHead_of_isPrefix`, `bytes_map_toLower`, `longestPrefix_numeralLength`,
`Name.find?_of_spelledBy`, `longest_numeral_and_name`.
-/
import Calculator.Proofs.Unexpected

namespace Calculator

/-! ### The bytes of a text -/

/-- The bytes of a text in UTF-8. -/
def bytes (cs : List Char) : List UInt8 := (String.ofList cs).toByteArray.data.toList

theorem bytes_eq_flatMap (cs : List Char) : bytes cs = cs.flatMap String.utf8EncodeChar := by
  simp [bytes, List.utf8Encode]

theorem bytes_append (cs ds : List Char) : bytes (cs ++ ds) = bytes cs ++ bytes ds := by
  simp only [bytes_eq_flatMap, List.flatMap_append]

theorem bytes_cons (c : Char) (cs : List Char) :
    bytes (c :: cs) = String.utf8EncodeChar c ++ bytes cs := by
  simp only [bytes_eq_flatMap, List.flatMap_cons]

/-- Two texts with the same bytes are the same. -/
theorem bytes_injective {cs ds : List Char} (h : bytes cs = bytes ds) : cs = ds := by
  have harray : (String.ofList cs).toByteArray = (String.ofList ds).toByteArray :=
    ByteArray.ext (Array.toList_inj.mp h)
  exact String.ofList_inj.mp (String.toByteArray_inj.mp harray)

theorem utf8EncodeChar_of_ascii {c : Char} (h : c.toNat < 128) :
    String.utf8EncodeChar c = [UInt8.ofNat c.toNat] := by
  have hle : c.val.toNat ≤ 127 := Nat.le_of_lt_succ h
  unfold String.utf8EncodeChar
  simp only [hle, if_true]
  rfl

/-- Every byte of a character beyond ASCII is 128 or more. -/
theorem le_of_mem_utf8EncodeChar {c : Char} (h : 128 ≤ c.toNat) {b : UInt8}
    (hb : b ∈ String.utf8EncodeChar c) : 128 ≤ b.toNat := by
  have hlt : ¬ c.val.toNat ≤ 127 := Nat.not_le.mpr h
  unfold String.utf8EncodeChar at hb
  simp only [hlt, if_false] at hb
  split at hb
  · simp only [List.mem_cons, List.not_mem_nil, or_false] at hb
    rcases hb with rfl | rfl <;> simp only [UInt8.toNat_ofNat'] <;> omega
  · split at hb
    · simp only [List.mem_cons, List.not_mem_nil, or_false] at hb
      rcases hb with rfl | rfl | rfl <;> simp only [UInt8.toNat_ofNat'] <;> omega
    · simp only [List.mem_cons, List.not_mem_nil, or_false] at hb
      rcases hb with rfl | rfl | rfl | rfl <;> simp only [UInt8.toNat_ofNat'] <;> omega

theorem length_bytes_of_ascii : ∀ {cs : List Char}, (∀ c ∈ cs, c.toNat < 128) →
    (bytes cs).length = cs.length
  | [], _ => rfl
  | c :: cs, h => by
    obtain ⟨hc, hcs⟩ := List.forall_mem_cons.mp h
    simp [bytes_cons, utf8EncodeChar_of_ascii hc, length_bytes_of_ascii hcs]

/-! ### Heads of one byte a character -/

/-- The first `n` bytes of the text are its first `n` characters, all of them ASCII, and
the other bytes are those of the other characters. -/
structure AsciiHead (cs : List Char) (n : Nat) : Prop where
  length_le : n ≤ cs.length
  isAscii : ∀ c ∈ cs.take n, c.toNat < 128
  take_bytes : (bytes cs).take n = bytes (cs.take n)
  drop_bytes : (bytes cs).drop n = bytes (cs.drop n)

theorem AsciiHead.of_isAscii {cs : List Char} {n : Nat} (hle : n ≤ cs.length)
    (h : ∀ c ∈ cs.take n, c.toNat < 128) : AsciiHead cs n := by
  have hsplit : bytes cs = bytes (cs.take n) ++ bytes (cs.drop n) := by
    rw [← bytes_append, List.take_append_drop]
  have hlength : (bytes (cs.take n)).length = n := by
    rw [length_bytes_of_ascii h, List.length_take, Nat.min_eq_left hle]
  refine ⟨hle, h, ?_, ?_⟩
  · rw [hsplit, List.take_left' hlength]
  · rw [hsplit, List.drop_left' hlength]

/-- **Bytes below 128 at the head of a text are characters of it.** The first byte of a
character beyond ASCII is none of them, so each character before it takes one. -/
theorem asciiHead_of_isPrefix {us : List UInt8} {cs : List Char} (h : us <+: bytes cs)
    (hus : ∀ b ∈ us, b.toNat < 128) : AsciiHead cs us.length := by
  suffices hhead : us.length ≤ cs.length ∧ ∀ c ∈ cs.take us.length, c.toNat < 128 from
    .of_isAscii hhead.1 hhead.2
  induction us generalizing cs with
  | nil => simp
  | cons b us ih =>
    obtain ⟨hb, hus⟩ := List.forall_mem_cons.mp hus
    cases cs with
    | nil => simp [bytes] at h
    | cons c cs =>
      rw [bytes_cons] at h
      by_cases hc : c.toNat < 128
      · rw [utf8EncodeChar_of_ascii hc, List.singleton_append, List.cons_prefix_cons] at h
        obtain ⟨hle, hascii⟩ := ih h.2 hus
        simp only [List.length_cons, List.take_succ_cons, List.forall_mem_cons]
        exact ⟨by omega, hc, hascii⟩
      · have hne : String.utf8EncodeChar c ≠ [] := String.utf8EncodeChar_ne_nil
        obtain ⟨first, later, hfirst⟩ := List.exists_cons_of_ne_nil hne
        have hbig := le_of_mem_utf8EncodeChar (Nat.not_lt.mp hc) (b := first) (by simp [hfirst])
        rw [hfirst, List.cons_append, List.cons_prefix_cons] at h
        rw [h.1] at hb
        omega

/-- So bytes below 128 are the bytes of a head of the text. -/
theorem eq_bytes_take {us : List UInt8} {cs : List Char} (h : us <+: bytes cs)
    (hus : ∀ b ∈ us, b.toNat < 128) : us = bytes (cs.take us.length) := by
  rw [← (asciiHead_of_isPrefix h hus).take_bytes]
  exact List.prefix_iff_eq_take.mp h

theorem lt_of_mem_bytes {cs : List Char} (h : ∀ c ∈ cs, c.toNat < 128) :
    ∀ b ∈ bytes cs, b.toNat < 128 := by
  intro b hb
  rw [bytes_eq_flatMap, List.mem_flatMap] at hb
  obtain ⟨c, hc, hb⟩ := hb
  have hlt := h c hc
  rw [utf8EncodeChar_of_ascii hlt, List.mem_singleton] at hb
  rw [hb, UInt8.toNat_ofNat']
  omega

/-- A text of ASCII is found at the head of the bytes where it is found at the head of
the characters. -/
theorem bytes_isPrefix_iff {us cs : List Char} (h : ∀ c ∈ us, c.toNat < 128) :
    bytes us <+: bytes cs ↔ us <+: cs := by
  constructor
  · intro hprefix
    have htake := eq_bytes_take hprefix (lt_of_mem_bytes h)
    rw [bytes_injective htake]
    exact List.take_prefix _ cs
  · rintro ⟨rest, rfl⟩
    rw [bytes_append]
    exact List.prefix_append ..

/-! ### The longest prefix of a kind -/

/-- `n` bytes is the longest prefix of `bs` that is of the kind. -/
structure LongestPrefix (kind : List UInt8 → Prop) (bs : List UInt8) (n : Nat) : Prop where
  length_le : n ≤ bs.length
  holds : kind (bs.take n)
  longest : ∀ us, us <+: bs → kind us → us.length ≤ n

theorem LongestPrefix.unique {kind : List UInt8 → Prop} {bs : List UInt8} {m n : Nat}
    (hm : LongestPrefix kind bs m) (hn : LongestPrefix kind bs n) : m = n := by
  have hle := hn.longest _ (List.take_prefix m bs) hm.holds
  have hge := hm.longest _ (List.take_prefix n bs) hn.holds
  have hmlen := hm.length_le
  have hnlen := hn.length_le
  simp only [List.length_take] at hle hge
  omega

/-! ### Numerals -/

/-- The bytes of digits, perhaps with a point before, between or after them, and of one
digit at least. -/
def IsNumeral (us : List UInt8) : Prop := ∃ n : Numeral, us = bytes n.text

theorem Numeral.isAscii_text (n : Numeral) : ∀ c ∈ n.text, c.toNat < 128 := by
  intro c hc
  rcases n.isDigit_or_eq_point_of_mem_text hc with hdigit | rfl
  · have hrange := (isDigit_iff c).mp hdigit
    omega
  · decide

theorem Numeral.length_bytes_text (n : Numeral) : (bytes n.text).length = n.text.length :=
  length_bytes_of_ascii n.isAscii_text

/-- A text that begins with a numeral begins with the one that is read, and with no
longer one. -/
theorem exists_numeral {cs : List Char} (h : numeralLength cs ≠ 0) :
    ∃ n : Numeral, cs.take (numeralLength cs) = n.text ∧ n.text.length = numeralLength cs := by
  obtain ⟨n, rest, rfl, hstops⟩ := Numeral.exists_text_append h
  rw [Numeral.numeralLength_text_append hstops, List.take_left]
  exact ⟨n, rfl, rfl⟩

theorem asciiHead_numeralLength (cs : List Char) : AsciiHead cs (numeralLength cs) := by
  refine .of_isAscii (numeralLength_le cs) ?_
  by_cases h : numeralLength cs = 0
  · simp [h]
  · obtain ⟨n, htake, -⟩ := exists_numeral h
    rw [htake]
    exact n.isAscii_text

theorem length_le_of_isNumeral {cs : List Char} {us : List UInt8} (h : us <+: bytes cs)
    (hus : IsNumeral us) : us.length ≤ numeralLength cs := by
  obtain ⟨n, rfl⟩ := hus
  obtain ⟨rest, rfl⟩ := (bytes_isPrefix_iff n.isAscii_text).mp h
  rw [n.length_bytes_text]
  exact n.length_le_numeralLength rest

/-- **The numeral that is read is the longest.** -/
theorem longestPrefix_numeralLength {cs : List Char} (h : numeralLength cs ≠ 0) :
    LongestPrefix IsNumeral (bytes cs) (numeralLength cs) := by
  have hhead := asciiHead_numeralLength cs
  obtain ⟨n, htake, hlength⟩ := exists_numeral h
  have hbytes : (bytes cs).take (numeralLength cs) = bytes n.text := by
    rw [hhead.take_bytes, htake]
  refine ⟨?_, ⟨n, hbytes⟩, fun us hus hnumeral => length_le_of_isNumeral hus hnumeral⟩
  calc numeralLength cs = (bytes n.text).length := by rw [n.length_bytes_text, hlength]
    _ = ((bytes cs).take (numeralLength cs)).length := by rw [hbytes]
    _ ≤ (bytes cs).length := List.length_take_le' ..

/-- The numeral is a text of a number, which is the number that is read. -/
theorem exists_number {cs : List Char} (h : numeralLength cs ≠ 0) :
    ∃ v, Number.ofText? (String.ofList (cs.take (numeralLength cs))) = some v ∧
      Lexeme.ofNumeral? cs = some (.token (.num v), numeralLength cs) := by
  obtain ⟨n, htake, -⟩ := exists_numeral h
  have hnumber : Number.ofText? (String.ofList (cs.take (numeralLength cs))) = some n.toNumber := by
    rw [htake]
    exact n.ofText?_text
  exact ⟨n.toNumber, hnumber, Lexeme.ofNumeral?_eq_some_iff.mpr ⟨h, rfl, _, hnumber, rfl⟩⟩

/-- **The length of the numeral** is that of the longest, or 0 if there is none. -/
theorem numeralLength_eq_iff {cs : List Char} {n : Nat} : numeralLength cs = n ↔
    LongestPrefix IsNumeral (bytes cs) n ∨ n = 0 ∧ ∀ us, us <+: bytes cs → ¬ IsNumeral us := by
  have hpos : ∀ us, IsNumeral us → 0 < us.length := by
    rintro us ⟨m, rfl⟩
    rw [m.length_bytes_text]
    exact List.length_pos_iff.mpr m.text_ne_nil
  constructor
  · rintro rfl
    by_cases h : numeralLength cs = 0
    · refine .inr ⟨h, fun us hus hnumeral => ?_⟩
      have hle := length_le_of_isNumeral hus hnumeral
      have := hpos us hnumeral
      omega
    · exact .inl (longestPrefix_numeralLength h)
  · rintro (hlongest | ⟨rfl, hnone⟩)
    · have hfound := hpos _ hlongest.holds
      have hle := length_le_of_isNumeral (List.take_prefix n _) hlongest.holds
      exact (longestPrefix_numeralLength (by omega)).unique hlongest
    · by_contra h
      exact hnone _ (List.take_prefix _ _) (longestPrefix_numeralLength h).holds

/-! ### Names -/

/-- A byte with the capital letters of ASCII in lower case. -/
def lowerByte (b : UInt8) : UInt8 := if 65 ≤ b.toNat ∧ b.toNat ≤ 90 then b + 32 else b

/-- The bytes are those of the name, the case of ASCII letters aside. -/
def Name.SpelledBy (n : Name) (us : List UInt8) : Prop :=
  us.map lowerByte = (bytes n.text.toList).map lowerByte

/-- The bytes are those of a name, the case of ASCII letters aside. -/
def IsName (us : List UInt8) : Prop := ∃ n : Name, n.SpelledBy us

theorem lowerByte_of_le {b : UInt8} (h : 128 ≤ b.toNat) : lowerByte b = b :=
  if_neg (by omega)

theorem utf8EncodeChar_toLower (c : Char) :
    String.utf8EncodeChar c.toLower = (String.utf8EncodeChar c).map lowerByte := by
  by_cases h : c.toNat < 128
  · have hletters : ∀ k < 128, (Char.ofNat k).toLower.toNat < 128 ∧
        lowerByte (UInt8.ofNat k) = UInt8.ofNat (Char.ofNat k).toLower.toNat := by decide
    obtain ⟨hlower, hbyte⟩ := hletters c.toNat h
    rw [Char.ofNat_toNat] at hlower hbyte
    rw [utf8EncodeChar_of_ascii h, utf8EncodeChar_of_ascii hlower, List.map_singleton, hbyte]
  · have hcase : c.toLower = c := toLower_of_toNat (by omega)
    have hbytes : ∀ b ∈ String.utf8EncodeChar c, lowerByte b = b := fun b hb =>
      lowerByte_of_le (le_of_mem_utf8EncodeChar (Nat.not_lt.mp h) hb)
    rw [hcase, List.map_congr_left hbytes, List.map_id']

/-- **Letters of ASCII are put in lower case byte by byte.** -/
theorem bytes_map_toLower (cs : List Char) :
    bytes (cs.map Char.toLower) = (bytes cs).map lowerByte := by
  simp only [bytes_eq_flatMap, List.flatMap_map, List.map_flatMap, utf8EncodeChar_toLower]

namespace Name

variable {n : Name} {cs : List Char}

theorem isAscii_text (n : Name) : ∀ c ∈ n.text.toList, c.toNat < 128 := by
  intro c hc
  have hlower := (isLower_iff c).mp (isLower_of_mem_text hc)
  omega

theorem spelledBy_bytes_iff : n.SpelledBy (bytes cs) ↔ cs.map Char.toLower = n.text.toList := by
  unfold SpelledBy
  rw [← bytes_map_toLower, ← bytes_map_toLower, n.map_toLower_text]
  exact ⟨bytes_injective, congrArg bytes⟩

theorem length_of_spelledBy {us : List UInt8} (h : n.SpelledBy us) : us.length = n.length := by
  have hlength := congrArg List.length h
  simp only [List.length_map, length_bytes_of_ascii n.isAscii_text] at hlength
  exact hlength

/-- No byte of a name is beyond ASCII, in whatever case it is written. -/
theorem lt_of_spelledBy {us : List UInt8} (h : n.SpelledBy us) : ∀ b ∈ us, b.toNat < 128 := by
  intro b hb
  by_contra hge
  have hmem : lowerByte b ∈ bytes n.text.toList := by
    rw [← n.map_toLower_text, bytes_map_toLower, ← h]
    exact List.mem_map_of_mem hb
  have hlt := lt_of_mem_bytes n.isAscii_text _ hmem
  rw [lowerByte_of_le (Nat.not_lt.mp hge)] at hlt
  exact hge hlt

theorem map_toLower_take (h : n.text.toList <+: cs.map Char.toLower) :
    (cs.take n.length).map Char.toLower = n.text.toList := by
  rw [List.map_take]
  exact (List.prefix_iff_eq_take.mp h).symm

/-- Only ASCII characters have a lower case that is a letter of a name. -/
theorem asciiHead_length (h : find? cs = some n) : AsciiHead cs n.length := by
  have hprefix := find?_eq_some_iff.mp h
  have hlength := hprefix.length_le
  rw [List.length_map] at hlength
  refine .of_isAscii hlength fun c hc => ?_
  have hlower : c.toLower ∈ n.text.toList := by
    rw [← map_toLower_take hprefix]
    exact List.mem_map_of_mem hc
  by_contra hge
  have hcase : c.toLower = c := toLower_of_toNat (by omega)
  rw [hcase] at hlower
  exact hge (n.isAscii_text c hlower)

/-- The name that is found is spelled by the first bytes. -/
theorem spelledBy_take (h : find? cs = some n) : n.SpelledBy ((bytes cs).take n.length) := by
  rw [(asciiHead_length h).take_bytes, spelledBy_bytes_iff]
  exact map_toLower_take (find?_eq_some_iff.mp h)

/-- **A name that the first bytes spell is found**, however many they are. -/
theorem find?_of_spelledBy {us : List UInt8} (hus : us <+: bytes cs) (h : n.SpelledBy us) :
    find? cs = some n := by
  rw [eq_bytes_take hus (lt_of_spelledBy h), spelledBy_bytes_iff] at h
  rw [find?_eq_some_iff, ← h]
  exact (List.take_prefix _ cs).map _

end Name

theorem longestPrefix_of_find? {id : Name} {cs : List Char} (h : Name.find? cs = some id) :
    LongestPrefix IsName (bytes cs) id.length := by
  have hid := Name.spelledBy_take h
  refine ⟨?_, ⟨id, hid⟩, ?_⟩
  · have hlength := Name.length_of_spelledBy hid
    rw [List.length_take] at hlength
    omega
  · rintro us hus ⟨m, hm⟩
    have hfind := Name.find?_of_spelledBy hus hm
    rw [h] at hfind
    cases hfind
    exact Nat.le_of_eq (Name.length_of_spelledBy hm)

/-- **The name that is found is the longest**, and only the longest is found. -/
theorem find?_and_length_iff {id : Name} {cs : List Char} {n : Nat} :
    (Name.find? cs = some id ∧ id.length = n) ↔
      LongestPrefix IsName (bytes cs) n ∧ id.SpelledBy ((bytes cs).take n) := by
  constructor
  · rintro ⟨hfind, rfl⟩
    exact ⟨longestPrefix_of_find? hfind, Name.spelledBy_take hfind⟩
  · rintro ⟨hlongest, hid⟩
    have hlength := hlongest.length_le
    refine ⟨Name.find?_of_spelledBy (List.take_prefix _ _) hid, ?_⟩
    rw [← Name.length_of_spelledBy hid, List.length_take]
    omega

/-- **Both searches take the longest match in the bytes of the text, and it ends between
two characters.** The numeral is as long as the longest one that the bytes begin with,
and 0 if they begin with none; it is the text of a number. A name is found with its
length just if it is the longest that the bytes begin with, the case of ASCII letters
aside. The bytes of either match are so many characters of ASCII, and the bytes after
it are those of the characters after it. -/
theorem longest_numeral_and_name (cs : List Char) :
    ((∀ n, numeralLength cs = n ↔ LongestPrefix IsNumeral (bytes cs) n ∨
          n = 0 ∧ ∀ us, us <+: bytes cs → ¬ IsNumeral us) ∧
        AsciiHead cs (numeralLength cs) ∧
        (numeralLength cs ≠ 0 →
          ∃ v, Number.ofText? (String.ofList (cs.take (numeralLength cs))) = some v ∧
            Lexeme.ofNumeral? cs = some (.token (.num v), numeralLength cs))) ∧
      (∀ (id : Name) (n : Nat), (Name.find? cs = some id ∧ id.length = n) ↔
        LongestPrefix IsName (bytes cs) n ∧ id.SpelledBy ((bytes cs).take n)) ∧
      ∀ id : Name, Name.find? cs = some id → AsciiHead cs id.length := by
  refine ⟨⟨fun n => numeralLength_eq_iff, asciiHead_numeralLength cs, exists_number⟩, ?_, ?_⟩
  · exact fun id n => find?_and_length_iff
  · exact fun id hfind => Name.asciiHead_length hfind

/-- A numeral and a name, each before a character of two bytes; the bytes of `é` after
the capital letters are no lower-case letters. -/
theorem longest_numeral_and_name_before_accents :
    (LongestPrefix IsNumeral (bytes "3.é5".toList) 2 ∧ AsciiHead "3.é5".toList 2 ∧
        ∃ v, Number.ofText? "3." = some v) ∧
      LongestPrefix IsName (bytes "ASINé".toList) 4 ∧
        Name.SpelledBy (.func .asin) ((bytes "ASINé".toList).take 4) ∧
        AsciiHead "ASINé".toList 4 := by
  obtain ⟨⟨hlength, hhead, hnumber⟩, -, -⟩ := longest_numeral_and_name "3.é5".toList
  obtain ⟨-, hname, hasin⟩ := longest_numeral_and_name "ASINé".toList
  have htwo : numeralLength "3.é5".toList = 2 := by decide
  have hfind : Name.find? "ASINé".toList = some (.func .asin) := by decide
  obtain ⟨hlongest, hspelled⟩ := (hname (.func .asin) 4).mp ⟨hfind, by decide⟩
  obtain ⟨v, hv, -⟩ := hnumber (by rw [htwo]; decide)
  rw [htwo] at hhead hv
  refine ⟨⟨?_, hhead, v, ?_⟩, hlongest, hspelled, ?_⟩
  · rcases (hlength 2).mp htwo with hnumeral | ⟨hzero, -⟩
    · exact hnumeral
    · cases hzero
  · have htext : String.ofList ("3.é5".toList.take 2) = "3." := by decide
    rw [← htext]
    exact hv
  · exact hasin (.func .asin) hfind

end Calculator
