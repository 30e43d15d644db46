/-
# Where a text is refused

A text is cut into the longest lexemes, and refused at the first character that is no
blank and begins none. A lexeme is spelled as a sign, as a numeral with a digit at
least, or as a name in any case (`Lexeme.Spelled`); the one that is cut off is the
longest that the text begins with (`Lexeme.written_iff_longest`). Either the text is
cut to its end, or it comes to a character that begins no lexeme; the error names this
character and how many stand before it, and what stands before it is cut by itself.
The text of a numeral is a number's (`Numeral.ofText?_text`), so no numeral is ever
refused.

Key definitions: `Lexeme.Spelled`, `Unexpected`.
Key theorems: `Lexeme.written_iff_longest`, `Lexeme.first?_eq_none_iff`,
`laidOut_or_unexpected`, `tokenize_eq_error_iff`, `unexpected_char_located`.
-/
import Calculator.Proofs.Boundary

namespace Calculator

/-! ### Numerals -/

/-- A numeral is no longer than the longest one that the text begins with. -/
theorem Numeral.length_le_numeralLength (n : Numeral) (rest : List Char) :
    n.text.length ≤ numeralLength (n.text ++ rest) := by
  have hdigit := n.hasDigit
  have htake : ∀ ds : List Char, (∀ c ∈ ds, c.isDigit = true) →
      ds.length ≤ ((ds ++ rest).takeWhile Char.isDigit).length := by
    intro ds hds
    rw [List.takeWhile_append_of_pos hds, List.length_append]
    exact Nat.le_add_right _ _
  rcases n.tail_cases with ⟨hnone, htail⟩ | ⟨ds, hds, htail⟩
  · have hwhole : n.whole ≠ [] := by simpa [hnone] using hdigit
    have hpos := List.length_pos_iff.mpr hwhole
    have hle := htake n.whole n.isDigit_whole
    rw [text, htail, List.append_nil, numeralLength]
    simp only
    split
    · split <;> omega
    · exact hle
  · have hfraction : ∀ c ∈ ds, c.isDigit = true := by simpa [hds] using n.isDigit_fraction
    have hlength : n.whole.length + ds.length ≠ 0 := by
      rw [← List.length_append]
      exact List.length_eq_zero_iff.not.mpr (by simpa [hds] using hdigit)
    have hle := htake ds hfraction
    have hbefore : (n.text ++ rest).takeWhile Char.isDigit = n.whole := by
      simp [text, htail, List.takeWhile_append_of_pos n.isDigit_whole]
    have hafter : (n.text ++ rest).dropWhile Char.isDigit = '.' :: (ds ++ rest) := by
      simp [text, htail, List.dropWhile_append_of_pos n.isDigit_whole]
    rw [numeralLength, hbefore, hafter]
    simp only [text, htail, List.length_append, List.length_cons]
    split <;> omega

/-! ### The longest lexeme -/

namespace Lexeme

/-- The characters are a text of the lexeme. -/
inductive Spelled : Lexeme → List Char → Prop where
  | sign {c : Char} {l : Lexeme} (h : ofSign? c = some l) : Spelled l [c]
  | numeral (n : Numeral) : Spelled (.token (.num n.toNumber)) n.text
  | name (n : Name) {cs : List Char} (h : cs.map Char.toLower = n.text.toList) :
      Spelled (.token (.ofName n)) cs

variable {l m : Lexeme} {cs us rest : List Char}

theorem Written.spelled (h : l.Written cs rest) : l.Spelled cs := by
  cases h with
  | sign h => exact .sign h
  | numeral n h => exact .numeral n
  | name n h => exact .name n h

theorem Spelled.written (h : l.Spelled cs) : l.Written cs [] := by
  cases h with
  | sign h => exact .sign h
  | numeral n => exact .numeral n n.stops_nil
  | name n h => exact .name n h

/-- No characters are a text of two lexemes. -/
theorem Spelled.unique (h : l.Spelled cs) (h' : m.Spelled cs) : l = m := by
  have hfirst := h.written.first?_append.symm.trans h'.written.first?_append
  exact congrArg Prod.fst (Option.some.inj hfirst)

/-- A text that begins with a lexeme has a first lexeme, which is as long at least. -/
theorem Spelled.exists_first?_append (h : l.Spelled cs) (rest : List Char) :
    ∃ m n, first? (cs ++ rest) = some (m, n) ∧ cs.length ≤ n := by
  cases h with
  | sign h => exact ⟨l, 1, (Written.sign h).first?_append, Nat.le_refl 1⟩
  | name n h => exact ⟨_, _, (Written.name n h).first?_append, Nat.le_refl _⟩
  | numeral n =>
    have hle := n.length_le_numeralLength rest
    have hpos := List.length_pos_iff.mpr n.text_ne_nil
    have hnumeral : numeralLength (n.text ++ rest) ≠ 0 := by omega
    obtain ⟨longest, rest', hsplit, hstops⟩ := Numeral.exists_text_append hnumeral
    rw [hsplit, Numeral.numeralLength_text_append hstops] at hle
    rw [hsplit]
    exact ⟨_, _, Numeral.first?_text_append hstops, hle⟩

/-- **The longest lexeme is cut off.** -/
theorem written_iff_longest : l.Written cs rest ↔
    l.Spelled cs ∧ ∀ m us, Spelled m us → us <+: cs ++ rest → us.length ≤ cs.length := by
  constructor
  · refine fun h => ⟨h.spelled, ?_⟩
    rintro m us hm ⟨rest', hrest⟩
    obtain ⟨m', n, hfirst, hle⟩ := hm.exists_first?_append rest'
    rw [hrest, h.first?_append] at hfirst
    cases hfirst
    exact hle
  · rintro ⟨h, hlongest⟩
    obtain ⟨m, n, hfirst, hle⟩ := h.exists_first?_append rest
    have htake : ((cs ++ rest).take n).length = n := by
      rw [List.length_take, Nat.min_eq_left (length_le_of_first? hfirst)]
    have hm := written_of_first? hfirst
    have hge := hlongest m _ hm.spelled (List.take_prefix n _)
    obtain rfl : n = cs.length := Nat.le_antisymm (htake ▸ hge) hle
    rw [List.take_left, List.drop_left] at hm
    rwa [h.unique hm.spelled]

/-- **A text has no first lexeme** just if it begins with none. -/
theorem first?_eq_none_iff : first? cs = none ↔ ∀ l us, Spelled l us → ¬ us <+: cs := by
  constructor
  · rintro hnone l us h ⟨rest, rfl⟩
    obtain ⟨m, n, hfirst, -⟩ := h.exists_first?_append rest
    cases hnone.symm.trans hfirst
  · intro hnone
    refine Option.eq_none_iff_forall_ne_some.mpr ?_
    rintro ⟨l, n⟩ hfirst
    exact hnone l _ (written_of_first? hfirst).spelled (List.take_prefix n cs)

end Lexeme

/-! ### The first character that begins nothing -/

/-- Cut from the left, the text `before ++ c :: after` comes to `c`, which is no blank
and begins no lexeme. -/
structure Unexpected (before : List Char) (c : Char) (after : List Char) : Prop where
  laidOut : ∃ ls, LaidOutBefore (c :: after) before ls
  notBlank : isBlank c = false
  noLexeme : ∀ l us, Lexeme.Spelled l us → ¬ us <+: c :: after

namespace Unexpected

variable {before after : List Char} {c : Char}

theorem exists_tokens (h : Unexpected before c after) : ∃ ts, tokenize before = .ok ts := by
  obtain ⟨ls, hls⟩ := h.laidOut
  exact ⟨_, tokenize_eq_ok_iff.mpr ⟨ls, hls.laidOut, rfl⟩⟩

theorem cut_eq_error (h : Unexpected before c after) :
    Lexeme.cut (before ++ c :: after) = .error (.unexpectedChar before.length c) := by
  obtain ⟨ls, hls⟩ := h.laidOut
  have hblank : ¬ isBlank c = true := by simp [h.notBlank]
  rw [Lexeme.cut, hls.cutFrom_append, Lexeme.cutFrom, if_neg hblank,
    Lexeme.first?_eq_none_iff.mpr h.noLexeme, Nat.zero_add]
  rfl

/-- A part that is cut may be put before it. -/
theorem append {cs : List Char} {ls : List Lexeme}
    (hcs : LaidOutBefore (before ++ c :: after) cs ls) (h : Unexpected before c after) :
    Unexpected (cs ++ before) c after := by
  obtain ⟨ms, hms⟩ := h.laidOut
  exact ⟨⟨_, hcs.append hms⟩, h.notBlank, h.noLexeme⟩

end Unexpected

/-- **A text is cut to its end, or comes to a character that begins nothing.** The
induction is on what is left when a blank or the first lexeme is taken off. -/
theorem laidOut_or_unexpected : ∀ cs : List Char, (∃ ls, LaidOut cs ls) ∨
    ∃ before c after, cs = before ++ c :: after ∧ Unexpected before c after
  | [] => .inl ⟨[], .blank (List.forall_mem_nil _)⟩
  | c :: cs => by
    by_cases hblank : isBlank c = true
    · have hgap : LaidOutBefore cs [c] [] := .blank (List.forall_mem_singleton.mpr hblank)
      rcases laidOut_or_unexpected cs with ⟨ls, hls⟩ | ⟨before, b, after, rfl, hstop⟩
      · exact .inl ⟨ls, hls.cons_blank hblank⟩
      · exact .inr ⟨c :: before, b, after, rfl, hstop.append hgap⟩
    · cases hfirst : Lexeme.first? (c :: cs) with
      | none =>
        exact .inr ⟨[], c, cs, rfl, ⟨[], .nil⟩, by simpa using hblank,
          Lexeme.first?_eq_none_iff.mp hfirst⟩
      | some found =>
        obtain ⟨l, n⟩ := found
        have hpos := Lexeme.length_pos_of_first? hfirst
        have hsplit := List.take_append_drop n (c :: cs)
        have hcut := LaidOutBefore.of_written (Lexeme.written_of_first? hfirst)
        rcases laidOut_or_unexpected ((c :: cs).drop n) with
          ⟨ls, hls⟩ | ⟨before, b, after, hrest, hstop⟩
        · refine .inl ⟨l :: ls, ?_⟩
          rw [← hsplit, hcut.laidOut_append_iff]
          exact ⟨ls, hls, rfl⟩
        · refine .inr ⟨(c :: cs).take n ++ before, b, after, ?_, ?_⟩
          · rw [List.append_assoc, ← hrest, hsplit]
          · rw [hrest] at hcut
            exact hstop.append hcut
termination_by cs => cs.length
decreasing_by
  · simp
  · simp only [List.length_drop, List.length_cons] at *
    omega

/-- **The error names the place.** -/
theorem tokenize_eq_error_iff {cs : List Char} {e : CalcError} :
    tokenize cs = .error e ↔ ∃ before c after, cs = before ++ c :: after ∧
      Unexpected before c after ∧ e = .unexpectedChar before.length c := by
  rw [tokenize, map_eq_error_iff]
  constructor
  · intro h
    rcases laidOut_or_unexpected cs with ⟨ls, hls⟩ | ⟨before, c, after, rfl, hstop⟩
    · cases h.symm.trans (Lexeme.cut_eq_ok_iff.mpr hls)
    · cases h.symm.trans hstop.cut_eq_error
      exact ⟨before, c, after, rfl, hstop, rfl⟩
  · rintro ⟨before, c, after, rfl, hstop, rfl⟩
    exact hstop.cut_eq_error

/-- **A text is refused at the first character that begins nothing.** It is refused
just if, cut from the left into blanks and longest lexemes, it comes to a character
that is no blank and begins no lexeme. The error is this character with the number of
characters before it, and what stands before it has its own tokens. The lexemes are the
longest that the text goes on with, and each numeral among them is read as a number. -/
theorem unexpected_char_located (cs : List Char) :
    (∀ e, tokenize cs = .error e ↔ ∃ before c after, cs = before ++ c :: after ∧
        Unexpected before c after ∧ e = .unexpectedChar before.length c) ∧
      (∀ before c after, cs = before ++ c :: after → Unexpected before c after →
        ∃ ts, tokenize before = .ok ts) ∧
      (∀ (l : Lexeme) (bs rest : List Char), l.Written bs rest ↔ l.Spelled bs ∧
        ∀ m us, Lexeme.Spelled m us → us <+: bs ++ rest → us.length ≤ bs.length) ∧
      ∀ n : Numeral, Number.ofText? (String.ofList n.text) = some n.toNumber :=
  ⟨fun _ => tokenize_eq_error_iff, fun _ _ _ _ hstop => hstop.exists_tokens,
    fun _ _ _ => Lexeme.written_iff_longest, Numeral.ofText?_text⟩

/-- A point without a digit, behind a character of two bytes and a numeral that ends
with a point. -/
theorem unexpected_char_located_of_lone_point :
    tokenize "π 2.. é".toList = .error (.unexpectedChar 4 '.') ∧
      ∃ before after, "π 2.. é".toList = before ++ '.' :: after ∧ before.length = 4 ∧
        Unexpected before '.' after ∧ ∃ ts, tokenize before = .ok ts := by
  have herror : tokenize "π 2.. é".toList = .error (.unexpectedChar 4 '.') := by decide +kernel
  obtain ⟨hplace, hbefore, -, -⟩ := unexpected_char_located "π 2.. é".toList
  obtain ⟨before, c, after, hcs, hstop, he⟩ := (hplace _).mp herror
  injection he with hlength hc
  subst hc
  exact ⟨herror, before, after, hcs, hlength.symm, hstop, hbefore before '.' after hcs hstop⟩

end Calculator
