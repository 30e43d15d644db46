/-
# Texts typed on the keypad

Three tables have to agree on the texts that the keypad types: the keypad itself,
the texts that are erased as a whole, and the names that a text may hold. Nothing
that is erased as a whole reaches over the end of a key's text, so the erase key
takes off the text of the last key (`eraseLast_flatMap`). And each key begins with a
lexeme that ends in it, or is a piece of a numeral, so the lexemes of a text typed
on the keypad are cut along its keys: only a point without a digit beside it begins
none (`Lexeme.eq_point_of_cutFrom`).

Key definitions: `OnKeypad`, `Name.key`.
Key theorems: `onKeypad_text`, `erasedLength_append_key`, `eraseLast_flatMap`,
`Lexeme.first?_of_onKeypad`, `Lexeme.eq_point_of_cutFrom`, `eq_point_of_calculate`.
-/
import Mathlib.Data.List.Infix
import Calculator.Proofs.Failure
import Calculator.Proofs.Layout
import Calculator.Proofs.Reading
import Calculator.Screen.Buttons

namespace Calculator

/-- The text is put together of texts that the keypad types. -/
def OnKeypad (cs : List Char) : Prop :=
  ∃ texts : List String, (∀ t ∈ texts, t ∈ keypadTexts) ∧ cs = texts.flatMap String.toList

/-- No key types an empty text. -/
theorem toList_ne_nil_of_mem : ∀ t ∈ keypadTexts, t.toList ≠ [] := by decide

namespace OnKeypad

variable {cs bs : List Char}

theorem nil : OnKeypad [] := ⟨[], nofun, rfl⟩

theorem append (h : OnKeypad cs) (h' : OnKeypad bs) : OnKeypad (cs ++ bs) := by
  obtain ⟨texts, htexts, rfl⟩ := h
  obtain ⟨more, hmore, rfl⟩ := h'
  exact ⟨texts ++ more, List.forall_mem_append.mpr ⟨htexts, hmore⟩, List.flatMap_append.symm⟩

theorem of_mem {t : String} (h : t ∈ keypadTexts) : OnKeypad t.toList :=
  ⟨[t], by simpa using h, by simp⟩

theorem of_forall (h : ∀ c ∈ cs, OnKeypad [c]) : OnKeypad cs := by
  induction cs with
  | nil => exact nil
  | cons c cs ih =>
    obtain ⟨hc, hcs⟩ := List.forall_mem_cons.mp h
    exact hc.append (ih hcs)

/-- A text that is not empty begins with a key's text. -/
theorem exists_append (h : OnKeypad cs) (hcs : cs ≠ []) :
    ∃ t ∈ keypadTexts, ∃ rest, OnKeypad rest ∧ cs = t.toList ++ rest := by
  obtain ⟨texts, htexts, rfl⟩ := h
  cases texts with
  | nil => exact absurd rfl hcs
  | cons t texts =>
    obtain ⟨ht, htexts⟩ := List.forall_mem_cons.mp htexts
    exact ⟨t, ht, _, ⟨texts, htexts, rfl⟩, List.flatMap_cons⟩

end OnKeypad

theorem onKeypad_toList_iff {s : String} :
    OnKeypad s.toList ↔
      ∃ texts : List String, (∀ t ∈ texts, t ∈ keypadTexts) ∧ s = .join texts := by
  simp only [OnKeypad, ← String.toList_join, String.toList_inj]

/-! ### Numbers -/

theorem onKeypad_of_isDigit {c : Char} (h : c.isDigit = true) : OnKeypad [c] := by
  have hkeys : ∀ n < 58, 48 ≤ n → ∃ t ∈ keypadTexts, t.toList = [Char.ofNat n] := by decide
  obtain ⟨hlow, hhigh⟩ := (isDigit_iff c).mp h
  obtain ⟨t, ht, hc⟩ := hkeys c.toNat (Nat.lt_succ_of_le hhigh) hlow
  rw [Char.ofNat_toNat] at hc
  exact hc ▸ OnKeypad.of_mem ht

theorem onKeypad_numeral (n : Numeral) : OnKeypad n.text := by
  refine OnKeypad.of_forall fun c hc => ?_
  rcases n.isDigit_or_eq_point_of_mem_text hc with hdigit | rfl
  · exact onKeypad_of_isDigit hdigit
  · exact OnKeypad.of_mem (t := ".") (by decide)

/-- **The text of a finite number may be typed on the keypad.** -/
theorem onKeypad_text {v : Number} (h : v.IsFinite) : OnKeypad v.text.toList := by
  have hminus : OnKeypad ['-'] := OnKeypad.of_mem (t := "-") (by decide)
  rw [Number.toList_text h]
  split
  · exact hminus.append (onKeypad_numeral v.magnitude)
  · exact onKeypad_numeral v.magnitude

/-! ### Blanks -/

theorem isBlank_of_onKeypad {cs : List Char} (h : OnKeypad cs) : ∀ c ∈ cs, isBlank c = false := by
  have hkeys : (keypadTexts.all fun t => t.toList.all (!isBlank ·)) = true := by decide +kernel
  obtain ⟨texts, htexts, rfl⟩ := h
  intro c hc
  obtain ⟨t, ht, hct⟩ := List.mem_flatMap.mp hc
  simpa using List.all_eq_true.mp (List.all_eq_true.mp hkeys t (htexts t ht)) c hct

theorem dropWhile_eq_self {p : Char → Bool} {cs : List Char} (h : ∀ c ∈ cs, p c = false) :
    cs.dropWhile p = cs := by
  cases cs with
  | nil => rfl
  | cons c cs => exact List.dropWhile_cons_of_neg (by simp [h c List.mem_cons_self])

theorem trimEnd_of_onKeypad {cs : List Char} (h : OnKeypad cs) : trimEnd cs = cs := by
  have hblank : ∀ c ∈ cs.reverse, isBlank c = false := by simpa using isBlank_of_onKeypad h
  rw [trimEnd, dropWhile_eq_self hblank, List.reverse_reverse]

theorem trim_of_onKeypad {cs : List Char} (h : OnKeypad cs) : trim cs = cs := by
  rw [trim, dropWhile_eq_self (isBlank_of_onKeypad h), trimEnd_of_onKeypad h]

/-! ### Erasing -/

/-- A typed text ends as one of its keys does. -/
theorem OnKeypad.exists_getLast? {cs : List Char} {c : Char} (h : OnKeypad cs)
    (hc : cs.getLast? = some c) : ∃ t ∈ keypadTexts, t.toList.getLast? = some c := by
  obtain ⟨texts, htexts, rfl⟩ := h
  rcases List.eq_nil_or_concat texts with rfl | ⟨before, t, rfl⟩
  · simp at hc
  · have ht : t ∈ keypadTexts := htexts t (by simp)
    refine ⟨t, ht, ?_⟩
    simpa [List.getLast?_append, List.getLast?_eq_some_getLast (toList_ne_nil_of_mem t ht)] using hc

/-- Where a text that is erased as a whole goes on before a key's text, it does so
with no character that ends a key. -/
theorem getLast?_ne_of_isSuffix_erasable {m t key : String} {c : Char} (hm : m ∈ erasable)
    (ht : t ∈ keypadTexts) (hkey : key ∈ keypadTexts) (h : c :: t.toList <:+ m.toList) :
    key.toList.getLast? ≠ some c := by
  have htables : (erasable.all fun m => m.toList.tails.all fun us =>
      (keypadTexts.all fun t => t.toList != us.tail) ||
        keypadTexts.all fun key => key.toList.getLast? != us.head?) = true := by
    decide +kernel
  have hus := List.all_eq_true.mp (List.all_eq_true.mp htables m hm) _ ((List.mem_tails ..).mpr h)
  rcases Bool.or_eq_true_iff.mp hus with hnone | hends
  · simpa using List.all_eq_true.mp hnone t ht
  · simpa using List.all_eq_true.mp hends key hkey

theorem erasedLength_key : ∀ t ∈ keypadTexts, erasedLength t.toList = t.toList.length := by
  decide +kernel

/-- So a text that is erased as a whole and ends a typed text ends its last key. -/
theorem isSuffix_key {cs : List Char} (hcs : OnKeypad cs) {t m : String} (ht : t ∈ keypadTexts)
    (hm : m ∈ erasable) (h : m.toList <:+ cs ++ t.toList) : m.toList <:+ t.toList := by
  rcases List.suffix_or_suffix_of_suffix h (List.suffix_append cs t.toList) with hmt | ⟨us, hus⟩
  · exact hmt
  · rcases List.eq_nil_or_concat us with rfl | ⟨init, c, rfl⟩
    · rw [← hus, List.nil_append]
    · rw [← hus, List.suffix_append_self_iff] at h
      obtain ⟨before, rfl⟩ := h
      obtain ⟨key, hkey, hlast⟩ := hcs.exists_getLast? (c := c) (by simp)
      have hover : c :: t.toList <:+ m.toList := ⟨init, by simpa using hus⟩
      exact absurd hlast (getLast?_ne_of_isSuffix_erasable hm ht hkey hover)

/-- **The last key is what is erased.** -/
theorem erasedLength_append_key {cs : List Char} (hcs : OnKeypad cs) {t : String}
    (ht : t ∈ keypadTexts) : erasedLength (cs ++ t.toList) = t.toList.length := by
  have hsame : ∀ m ∈ erasable,
      m.toList.isSuffixOf (cs ++ t.toList) = m.toList.isSuffixOf t.toList := by
    intro m hm
    rw [Bool.eq_iff_iff, List.isSuffixOf_iff_suffix, List.isSuffixOf_iff_suffix]
    exact ⟨isSuffix_key hcs ht hm, fun h => h.trans (List.suffix_append ..)⟩
  rw [← erasedLength_key t ht, erasedLength, erasedLength, List.find?_congr hsame]

theorem eraseLast_append_key {cs : List Char} (hcs : OnKeypad cs) {t : String}
    (ht : t ∈ keypadTexts) : eraseLast (cs ++ t.toList) = cs := by
  have hkept : (cs ++ t.toList).length - t.toList.length = cs.length := by
    rw [List.length_append, Nat.add_sub_cancel]
  rw [eraseLast, trimEnd_of_onKeypad (hcs.append (.of_mem ht)), erasedLength_append_key hcs ht,
    hkept, List.take_left, trimEnd_of_onKeypad hcs]

/-- **Erasing takes off the last text**, however the text was typed. -/
theorem eraseLast_flatMap {texts : List String} (h : ∀ t ∈ texts, t ∈ keypadTexts) :
    eraseLast (texts.flatMap String.toList) = texts.dropLast.flatMap String.toList := by
  rcases List.eq_nil_or_concat texts with rfl | ⟨before, t, rfl⟩
  · rfl
  · rw [List.concat_eq_append] at h ⊢
    obtain ⟨hbefore, ht⟩ := List.forall_mem_append.mp h
    rw [List.flatMap_append, List.flatMap_singleton, List.dropLast_concat]
    exact eraseLast_append_key ⟨before, hbefore, rfl⟩ (ht t (List.mem_singleton_self t))

/-! ### Lexemes -/

/-- What the keypad types after a name: for a function, the parenthesis of its
argument. -/
def Name.opening : Name → List Char
  | func _ => ['(']
  | _ => []

/-- How the keypad types a name. -/
def Name.key (n : Name) : List Char := n.text.toList ++ n.opening

/-- A digit or a point. -/
def isPiece (c : Char) : Bool := c.isDigit || c == '.'

/-- A key types a name, a sign, or a piece of a numeral. -/
theorem key_cases {t : String} (ht : t ∈ keypadTexts) : (∃ n : Name, t.toList = n.key) ∨
    (∃ c ∈ Lexeme.signs, t.toList = [c]) ∨ ∃ c, isPiece c = true ∧ t.toList = [c] := by
  have htables : (keypadTexts.all fun t => (Name.table.any fun n => t.toList == n.key) ||
      (Lexeme.signs.any fun c => t.toList == [c]) ||
        (t.toList.length == 1 && t.toList.all isPiece)) = true := by
    decide +kernel
  have hkinds := List.all_eq_true.mp htables t ht
  simp only [Bool.or_eq_true, Bool.and_eq_true, List.any_eq_true, List.all_eq_true, beq_iff_eq,
    List.length_eq_one_iff] at hkinds
  rcases hkinds with (⟨n, -, hn⟩ | hsign) | ⟨⟨c, hc⟩, hpiece⟩
  · exact .inl ⟨n, hn⟩
  · exact .inr (.inl hsign)
  · exact .inr (.inr ⟨c, hpiece c (hc ▸ List.mem_singleton_self c), hc⟩)

/-- A name that is typed by its key is read as this name, whatever is typed after it. -/
theorem Name.first?_key_append (n : Name) (rest : List Char) :
    Lexeme.first? (n.key ++ rest) = some (.token (Token.ofName n), n.length) := by
  rw [key, List.append_assoc]
  exact (n.written_text _).first?_append

/-- After the name there is nothing but the parenthesis left of its key. -/
theorem Name.onKeypad_drop_key_append (n : Name) {rest : List Char} (h : OnKeypad rest) :
    OnKeypad ((n.key ++ rest).drop n.length) := by
  have hopening : OnKeypad n.opening := by
    cases n with
    | func f => exact .of_mem (t := "(") (by decide)
    | const | var => exact .nil
  rw [key, List.append_assoc, length, List.drop_left]
  exact hopening.append h

/-- A numeral consists of digits and a point. -/
theorem isPiece_of_mem_take_numeralLength {cs : List Char} :
    ∀ c ∈ cs.take (numeralLength cs), isPiece c = true := by
  intro c hc
  by_cases hlength : numeralLength cs = 0
  · simp [hlength] at hc
  · obtain ⟨n, rest, rfl, hstops⟩ := Numeral.exists_text_append hlength
    rw [Numeral.numeralLength_text_append hstops, List.take_left] at hc
    rcases n.isDigit_or_eq_point_of_mem_text hc with hdigit | rfl
    · simp [isPiece, hdigit]
    · rfl

/-- The key of a piece of a numeral types nothing else. -/
theorem toList_key_of_isPiece {t : String} (ht : t ∈ keypadTexts) {c : Char} {cs : List Char}
    (h : t.toList = c :: cs) (hc : isPiece c = true) : cs = [] := by
  have hkeys : (keypadTexts.all fun t => t.toList.length == 1 || !(t.toList.head?.any isPiece)) =
      true := by decide +kernel
  have hkey := List.all_eq_true.mp hkeys t ht
  simpa [h, hc] using hkey

/-- Where a numeral ends, a key begins. -/
theorem OnKeypad.drop : ∀ {n : Nat} {cs : List Char}, OnKeypad cs →
    (∀ c ∈ cs.take n, isPiece c = true) → OnKeypad (cs.drop n)
  | 0, _, h, _ => h
  | n + 1, [], h, _ => h
  | n + 1, c :: cs, h, hpieces => by
    rw [List.take_succ_cons, List.forall_mem_cons] at hpieces
    obtain ⟨t, ht, rest, hrest, hcs⟩ := h.exists_append (List.cons_ne_nil c cs)
    cases htext : t.toList with
    | nil => exact absurd htext (toList_ne_nil_of_mem t ht)
    | cons d ds =>
      rw [htext, List.cons_append] at hcs
      obtain ⟨rfl, rfl⟩ := List.cons.inj hcs
      obtain rfl := toList_key_of_isPiece ht htext hpieces.1
      have hlater : ∀ c ∈ rest.take n, isPiece c = true := hpieces.2
      exact hrest.drop hlater

namespace Lexeme

theorem numeralLength_ne_zero {c : Char} (h : c.isDigit = true) (cs : List Char) :
    numeralLength (c :: cs) ≠ 0 := by
  unfold numeralLength
  rw [List.takeWhile_cons_of_pos h, List.length_cons]
  simp only
  split
  · split
    · omega
    · omega
  · omega

/-- A digit or a point begins a numeral, unless it is a point by itself. -/
theorem first?_of_isPiece {c : Char} (hc : isPiece c = true) (cs : List Char) :
    (c = '.' ∧ first? (c :: cs) = none) ∨
      ∃ l, first? (c :: cs) = some (l, numeralLength (c :: cs)) := by
  rw [first?_of_isDigit_or_point (by simpa [isPiece] using hc)]
  by_cases hlength : numeralLength (c :: cs) = 0
  · have hpoint : c = '.' := by
      by_contra hne
      exact numeralLength_ne_zero (by simpa [isPiece, hne] using hc) cs hlength
    exact .inl ⟨hpoint, if_pos hlength⟩
  · obtain ⟨n, rest, hsplit, hstops⟩ := Numeral.exists_text_append hlength
    rw [hsplit, Numeral.numeralLength_text_append hstops, Numeral.ofNumeral?_text_append hstops]
    exact .inr ⟨_, rfl⟩

/-- **A typed text goes on with a lexeme that ends where a key does**, or else with a
point. -/
theorem first?_of_onKeypad {c : Char} {cs : List Char} (h : OnKeypad (c :: cs)) :
    (c = '.' ∧ first? (c :: cs) = none) ∨
      ∃ l n, first? (c :: cs) = some (l, n) ∧ OnKeypad ((c :: cs).drop n) := by
  obtain ⟨t, ht, rest, hrest, hcs⟩ := h.exists_append (List.cons_ne_nil c cs)
  rcases key_cases ht with ⟨n, hn⟩ | ⟨sign, hsign, hone⟩ | ⟨piece, hpiece, hone⟩
  · rw [hn] at hcs
    rw [hcs]
    exact .inr ⟨_, _, n.first?_key_append rest, n.onKeypad_drop_key_append hrest⟩
  · rw [hone, List.singleton_append] at hcs
    obtain ⟨rfl, rfl⟩ := List.cons.inj hcs
    have hsigns : signs.all (ofSign? · |>.isSome) = true := by decide
    obtain ⟨l, hl⟩ := Option.isSome_iff_exists.mp (List.all_eq_true.mp hsigns c hsign)
    exact .inr ⟨l, 1, by rw [first?, hl], hrest⟩
  · rw [hone, List.singleton_append] at hcs
    obtain ⟨rfl, -⟩ := List.cons.inj hcs
    rcases first?_of_isPiece hpiece cs with hpoint | ⟨l, hl⟩
    · exact .inl hpoint
    · exact .inr ⟨l, _, hl, h.drop isPiece_of_mem_take_numeralLength⟩

/-- **Only a point begins no lexeme** in a text typed on the keypad. -/
theorem eq_point_of_cutFrom : ∀ {cs : List Char} {skip position p : Nat} {b : Char},
    OnKeypad (cs.drop skip) → cutFrom skip position cs = .error (.unexpectedChar p b) → b = '.'
  | [], _, _, _, _, _, h => by
    rw [cutFrom] at h
    cases h
  | _ :: cs, skip + 1, _, _, _, hcs, h => by
    rw [cutFrom] at h
    have hlater : OnKeypad (cs.drop skip) := hcs
    exact eq_point_of_cutFrom hlater h
  | c :: cs, 0, position, p, b, hcs, h => by
    have hblank : ¬ isBlank c = true := by simp [isBlank_of_onKeypad hcs c List.mem_cons_self]
    rw [cutFrom, if_neg hblank] at h
    rcases first?_of_onKeypad hcs with ⟨hpoint, hnone⟩ | ⟨l, n, hfirst, hrest⟩
    · rw [hnone] at h
      cases h
      exact hpoint
    · obtain ⟨k, rfl⟩ := Nat.exists_eq_add_of_lt (length_pos_of_first? hfirst)
      rw [hfirst] at h
      rw [Nat.zero_add, List.drop_succ_cons] at hrest
      exact eq_point_of_cutFrom hrest (by simpa using map_eq_error_iff.mp h)

end Lexeme

/-- **A lexical error in a typed text is a point's.** -/
theorem eq_point_of_calculate {ctx : Context} {s : String} {p : Nat} {c : Char}
    (hs : OnKeypad s.toList) (h : calculate ctx s = .error (.unexpectedChar p c)) : c = '.' := by
  cases htokens : tokenize (trim s.toList) with
  | error e =>
    have hcalculate := calculate_of_tokenize_error ctx htokens
    cases h.symm.trans hcalculate
    rw [trim_of_onKeypad hs] at htokens
    have hstart : OnKeypad (s.toList.drop 0) := hs
    exact Lexeme.eq_point_of_cutFrom hstart (map_eq_error_iff.mp htokens)
  | ok ts =>
    by_cases hmatched : Matched s.toList
    · rcases calculate_of_matched ctx htokens hmatched with ⟨v, w, hvalue⟩ | ⟨e, herror, -⟩
      · cases h.symm.trans hvalue
      · cases h.symm.trans herror
    · cases h.symm.trans (calculate_of_not_matched ctx htokens hmatched)

end Calculator
