/-
# Texts are cut piece by piece

A character that is no letter, digit or point ends every lexeme before it: what
comes first in a text does not depend on what follows such a character
(`first?_append`), and cut there, a text has the lexemes of its parts
(`cutFrom_append`). Blanks are such characters, so the ones at the ends of a text
may be trimmed (`tokenize_trim`). A text that is one lexeme, or is put together
of others, has the same lexemes wherever it stands (`Cuts`).

Key definitions: `endsLexeme`, `Apart`, `Lexeme.signs`, `Lexeme.Cuts`, `Lexeme.asToken`.
Key theorems: `Lexeme.first?_append`, `Lexeme.cutFrom_append`, `Lexeme.Cuts.append`,
`Lexeme.cut_trim_iff`, `Lexeme.emit_cases`, `negate_not_mem_of_tokenize`.
-/
import Calculator.Proofs.Fallible
import Calculator.Token.Lexer

namespace Calculator

/-! ### Characters that end a lexeme -/

/-- A character that no numeral and no name goes on with. -/
def endsLexeme (c : Char) : Bool := !c.isDigit && c != '.' && !c.toLower.isLower

theorem between_iff (low high c : Char) : (decide (low.val ≤ c.val) && decide (c.val ≤ high.val)) =
    true ↔ low.toNat ≤ c.toNat ∧ c.toNat ≤ high.toNat := by
  rw [Bool.and_eq_true, decide_eq_true_eq, decide_eq_true_eq]
  exact Iff.rfl

theorem isUpper_iff (c : Char) : c.isUpper = true ↔ 65 ≤ c.toNat ∧ c.toNat ≤ 90 :=
  decide_eq_true_iff

theorem isLower_iff (c : Char) : c.isLower = true ↔ 97 ≤ c.toNat ∧ c.toNat ≤ 122 :=
  between_iff 'a' 'z' c

theorem isDigit_iff (c : Char) : c.isDigit = true ↔ 48 ≤ c.toNat ∧ c.toNat ≤ 57 :=
  between_iff '0' '9' c

/-- Only the capital letters of ASCII have another lower case. -/
theorem toLower_of_toNat {c : Char} (h : c.toNat < 65 ∨ 90 < c.toNat) : c.toLower = c := by
  refine dif_neg fun hupper => ?_
  have hrange := (isUpper_iff c).mp (decide_eq_true hupper)
  omega

theorem endsLexeme_of_isBlank {c : Char} (h : isBlank c = true) : endsLexeme c = true := by
  simp only [isBlank, blankRanges, List.any_cons, List.any_nil, Bool.or_false, Bool.or_eq_true,
    Bool.and_eq_true, decide_eq_true_eq] at h
  have hpoint : c ≠ '.' := by
    rintro rfl
    revert h
    decide
  have hcase : c.toLower = c := toLower_of_toNat (by omega)
  have hlower : ¬ c.isLower = true := by
    rw [isLower_iff]
    omega
  have hdigit : ¬ c.isDigit = true := by
    rw [isDigit_iff]
    omega
  simp [endsLexeme, hdigit, hpoint, hcase, hlower]

/-- No lexeme goes on into this text: it is empty or begins with a character that
ends one. -/
def Apart (bs : List Char) : Prop := ∀ b ∈ bs.head?, endsLexeme b = true

@[simp] theorem apart_cons (b : Char) (bs : List Char) : Apart (b :: bs) ↔ endsLexeme b = true := by
  simp [Apart]

/-! ### The first lexeme of a text -/

section Append

section Split
variable {α : Type} {p : α → Bool} {bs : List α}

theorem takeWhile_append_of_head (h : ∀ b ∈ bs.head?, p b = false) :
    ∀ cs : List α, (cs ++ bs).takeWhile p = cs.takeWhile p
  | [] => by
    cases bs with
    | nil => rfl
    | cons b bs => simp [h b rfl]
  | c :: cs => by
    have ih := takeWhile_append_of_head h cs
    by_cases hc : p c = true
    · simp [hc, ih]
    · simp [hc]

theorem dropWhile_append_of_head (h : ∀ b ∈ bs.head?, p b = false) :
    ∀ cs : List α, (cs ++ bs).dropWhile p = cs.dropWhile p ++ bs
  | [] => by
    cases bs with
    | nil => rfl
    | cons b bs => simp [h b rfl]
  | c :: cs => by
    have ih := dropWhile_append_of_head h cs
    by_cases hc : p c = true
    · simp [hc, ih]
    · simp [hc]

end Split

variable {bs : List Char}

theorem Apart.not_isDigit (h : Apart bs) : ∀ b ∈ bs.head?, b.isDigit = false := by
  intro b hb
  have hends := h b hb
  simp only [endsLexeme, Bool.and_eq_true, Bool.not_eq_true'] at hends
  exact hends.1.1

theorem Apart.head?_ne_point (h : Apart bs) : bs.head? ≠ some '.' := by
  intro hpoint
  have hends := h '.' hpoint
  revert hends
  decide

theorem numeralLength_append (h : Apart bs) (cs : List Char) :
    numeralLength (cs ++ bs) = numeralLength cs := by
  unfold numeralLength
  rw [takeWhile_append_of_head h.not_isDigit, dropWhile_append_of_head h.not_isDigit]
  cases hrest : cs.dropWhile Char.isDigit with
  | nil =>
    have hpoint := h.head?_ne_point
    cases bs with
    | nil => rfl
    | cons b bs => simp_all
  | cons c rest =>
    by_cases hc : c = '.'
    · subst hc
      simp only [List.cons_append, takeWhile_append_of_head h.not_isDigit]
    · simp [hc]

theorem Name.mem_table (n : Name) : n ∈ table := by
  rcases n with f | c | v
  · cases f <;> decide
  · cases c <;> decide
  · cases v <;> decide

theorem Name.isLower_of_mem_text {n : Name} {c : Char} (h : c ∈ n.text.toList) :
    c.isLower = true := by
  have htable : (table.all fun n => n.text.toList.all Char.isLower) = true := by decide
  exact List.all_eq_true.mp (List.all_eq_true.mp htable n n.mem_table) c h

theorem Name.startsText_iff (n : Name) (cs : List Char) :
    n.startsText cs = true ↔ n.text.toList <+: cs.map Char.toLower := by
  rw [startsText, beq_iff_eq, List.prefix_iff_eq_take, List.map_take, eq_comm]
  rfl

/-- The letters of the names are lower case, and what ends a lexeme is no letter. -/
theorem Name.startsText_append (h : Apart bs) (cs : List Char) (n : Name) :
    n.startsText (cs ++ bs) = n.startsText cs := by
  rw [Bool.eq_iff_iff, startsText_iff, startsText_iff, List.map_append]
  refine ⟨fun hn => ?_, fun hn => hn.trans (List.prefix_append ..)⟩
  rcases List.prefix_or_prefix_of_prefix hn (List.prefix_append ..) with hn' | hcs
  · exact hn'
  · obtain ⟨rest, hrest⟩ := hcs
    rw [← hrest, List.prefix_append_right_inj] at hn
    cases rest with
    | nil => exact ⟨[], by simpa using hrest.symm⟩
    | cons c rest =>
      obtain ⟨us, hus⟩ := hn
      cases bs with
      | nil => cases hus
      | cons b bs =>
        have hc : c = b.toLower := by simpa using congrArg List.head? hus
        have hlower : c.isLower = true := isLower_of_mem_text (n := n) (by simp [← hrest])
        have hends := (apart_cons b bs).mp h
        simp [endsLexeme, ← hc, hlower] at hends

theorem Name.find?_append (h : Apart bs) (cs : List Char) : find? (cs ++ bs) = find? cs := by
  unfold find?
  exact congrArg table.find? (funext (startsText_append h cs))

theorem Lexeme.first?_append (h : Apart bs) {cs : List Char} (hcs : cs ≠ []) :
    first? (cs ++ bs) = first? cs := by
  cases cs with
  | nil => exact absurd rfl hcs
  | cons c cs =>
    have hnumeral : ofNumeral? (c :: cs ++ bs) = ofNumeral? (c :: cs) := by
      unfold ofNumeral?
      simp only [numeralLength_append h, List.take_append_of_le_length (numeralLength_le _)]
    have hname : ofName? (c :: cs ++ bs) = ofName? (c :: cs) := by
      rw [ofName?, Name.find?_append h, ofName?]
    rw [List.cons_append] at hnumeral hname ⊢
    rw [first?, hnumeral, hname, first?]

end Append

namespace Lexeme

/-- The lexemes of one character. -/
theorem ofSign?_cases {c : Char} {l : Lexeme} (h : ofSign? c = some l) :
    (c = '(' ∧ l = token .lpar) ∨ (c = ')' ∧ l = token .rpar) ∨
      (c = 'π' ∧ l = token (.const .pi)) ∨ (c = '√' ∧ l = root) ∨
      ∃ o : Operator, o ≠ .negate ∧ o.symbol.toList = [c] ∧ l = token (.op o) := by
  unfold ofSign? at h
  split at h
  · exact .inl ⟨rfl, (Option.some.inj h).symm⟩
  · exact .inr (.inl ⟨rfl, (Option.some.inj h).symm⟩)
  · exact .inr (.inr (.inl ⟨rfl, (Option.some.inj h).symm⟩))
  · exact .inr (.inr (.inr (.inl ⟨rfl, (Option.some.inj h).symm⟩)))
  · obtain ⟨o, ho, hl⟩ := Option.map_eq_some_iff.mp h
    obtain ⟨two, hsymbol⟩ := (Operator.ofChar?_eq_some_iff ..).mp ho
    exact .inr (.inr (.inr (.inr ⟨o, two, hsymbol, hl.symm⟩)))

/-- What is read as a numeral is the text of a number. -/
theorem ofNumeral?_eq_some_iff {cs : List Char} {l : Lexeme} {n : Nat} :
    ofNumeral? cs = some (l, n) ↔ n ≠ 0 ∧ n = numeralLength cs ∧
      ∃ v, Number.ofText? (String.ofList (cs.take n)) = some v ∧ l = .token (.num v) := by
  unfold ofNumeral?
  simp only
  split
  · rename_i hlength
    refine iff_of_false nofun ?_
    rintro ⟨hpos, rfl, -⟩
    exact hpos hlength
  · rename_i hlength
    rw [Option.map_eq_some_iff]
    constructor
    · rintro ⟨v, hv, hpair⟩
      cases hpair
      exact ⟨hlength, rfl, v, hv, rfl⟩
    · rintro ⟨-, rfl, v, hv, rfl⟩
      exact ⟨v, hv, rfl⟩

/-- The three kinds of lexeme. -/
theorem of_first?_eq_some {cs : List Char} {l : Lexeme} {n : Nat} (h : first? cs = some (l, n)) :
    (∃ c rest, cs = c :: rest ∧ ofSign? c = some l ∧ n = 1) ∨
      (n = numeralLength cs ∧
        ∃ v, Number.ofText? (String.ofList (cs.take n)) = some v ∧ l = .token (.num v)) ∨
      ∃ name, Name.find? cs = some name ∧ n = name.length ∧ l = .token (.ofName name) := by
  unfold first? at h
  split at h
  · cases h
  · rename_i c rest
    split at h
    · rename_i sign hsign
      cases h
      exact .inl ⟨c, rest, rfl, hsign, rfl⟩
    · split at h
      · exact .inr (.inl (ofNumeral?_eq_some_iff.mp h).2)
      · obtain ⟨name, hname, hpair⟩ := Option.map_eq_some_iff.mp h
        cases hpair
        exact .inr (.inr ⟨name, hname, rfl, rfl⟩)

/-- A lexeme is not longer than its text. -/
theorem length_le_of_first? {cs : List Char} {l : Lexeme} {n : Nat}
    (h : first? cs = some (l, n)) : n ≤ cs.length := by
  rcases of_first?_eq_some h with ⟨c, rest, rfl, -, rfl⟩ | ⟨rfl, -⟩ | ⟨name, hname, rfl, -⟩
  · exact Nat.le_add_left 1 _
  · exact numeralLength_le cs
  · have hprefix := (Name.startsText_iff ..).mp (Name.startsText_of_find? hname)
    simpa [Name.length] using hprefix.length_le

/-! ### Cutting in parts -/

/-- **A text is cut in parts.** Before a character that ends every lexeme, a text
may be cut in two, and each part has its own lexemes. -/
theorem cutFrom_append {bs : List Char} (hbs : Apart bs) : ∀ {cs : List Char} {skip : Nat}
    (position : Nat), skip ≤ cs.length →
    cutFrom skip position (cs ++ bs) = cutFrom skip position cs >>= fun ls =>
      (cutFrom 0 (position + cs.length) bs).map (ls ++ ·)
  | [], skip, position, hskip => by
    obtain rfl : skip = 0 := by simpa using hskip
    change cutFrom 0 position bs = (cutFrom 0 position bs).map ([] ++ ·)
    cases cutFrom 0 position bs <;> rfl
  | c :: cs, skip + 1, position, hskip => by
    rw [List.cons_append, cutFrom, cutFrom, cutFrom_append hbs _ (by simpa using hskip),
      List.length_cons]
    simp only [Nat.add_assoc, Nat.add_comm 1]
  | c :: cs, 0, position, hskip => by
    rw [List.cons_append, cutFrom, cutFrom, List.length_cons, Nat.add_comm cs.length,
      ← Nat.add_assoc]
    by_cases hblank : isBlank c = true
    · rw [if_pos hblank, if_pos hblank, cutFrom_append hbs _ (Nat.zero_le _)]
    · rw [if_neg hblank, if_neg hblank, ← List.cons_append, first?_append hbs (by simp)]
      cases hfirst : first? (c :: cs) with
      | none => rfl
      | some found =>
        obtain ⟨l, n⟩ := found
        have hlength := length_le_of_first? hfirst
        rw [List.length_cons] at hlength
        simp only
        rw [cutFrom_append hbs _ (by omega)]
        cases cutFrom (n - 1) (position + 1) cs with
        | error e => rfl
        | ok ls => exact map_map ..

/-- The first character of a text that is cut is a blank, or it begins a lexeme. -/
theorem cutFrom_cons_eq_ok_iff {c : Char} {cs : List Char} {position : Nat} {ls : List Lexeme} :
    cutFrom 0 position (c :: cs) = .ok ls ↔
      (isBlank c = true ∧ cutFrom 0 (position + 1) cs = .ok ls) ∨
        (isBlank c = false ∧ ∃ l n rest, first? (c :: cs) = some (l, n) ∧
          cutFrom (n - 1) (position + 1) cs = .ok rest ∧ ls = l :: rest) := by
  rw [cutFrom]
  cases hblank : isBlank c with
  | true => simp
  | false =>
    cases hfirst : first? (c :: cs) with
    | none => simp
    | some found =>
      obtain ⟨l, n⟩ := found
      constructor
      · intro h
        obtain ⟨rest, hrest, hls⟩ := map_eq_ok_iff.mp h
        exact .inr ⟨rfl, l, n, rest, rfl, hrest, hls.symm⟩
      · rintro (⟨hblank', -⟩ | ⟨-, l', n', rest, hfound, hrest, hls⟩)
        · cases hblank'
        · cases hfound
          exact map_eq_ok_iff.mpr ⟨rest, hrest, hls.symm⟩

/-- Only the error tells the position. -/
theorem cutFrom_position : ∀ {cs : List Char} {skip position : Nat} {ls : List Lexeme}
    (other : Nat), cutFrom skip position cs = .ok ls → cutFrom skip other cs = .ok ls
  | [], _, _, _, _, h => by
    rw [cutFrom] at h ⊢
    exact h
  | _ :: _, _ + 1, _, _, other, h => cutFrom_position (other + 1) h
  | c :: cs, 0, position, ls, other, h => by
    rw [cutFrom_cons_eq_ok_iff] at h ⊢
    rcases h with ⟨hblank, h⟩ | ⟨hblank, l, n, rest, hfirst, hrest, hls⟩
    · exact .inl ⟨hblank, cutFrom_position (other + 1) h⟩
    · exact .inr ⟨hblank, l, n, rest, hfirst, cutFrom_position (other + 1) hrest, hls⟩

/-- What belongs to a lexeme already read is skipped. -/
theorem cutFrom_skip : ∀ (us vs : List Char) (position : Nat),
    cutFrom us.length position (us ++ vs) = cutFrom 0 (position + us.length) vs
  | [], _, _ => rfl
  | _ :: us, vs, position => by
    rw [List.length_cons, List.cons_append, cutFrom, cutFrom_skip us vs, Nat.add_assoc,
      Nat.add_comm 1]

/-- Each lexeme of a text is the first one of a part of it. -/
theorem exists_first?_of_mem_cutFrom : ∀ {cs : List Char} {skip position : Nat}
    {ls : List Lexeme} {l : Lexeme}, cutFrom skip position cs = .ok ls → l ∈ ls →
    ∃ us n, first? us = some (l, n)
  | [], _, _, ls, l, h, hl => by
    rw [cutFrom] at h
    cases h
    cases hl
  | _ :: _, _ + 1, _, _, _, h, hl => by
    rw [cutFrom] at h
    exact exists_first?_of_mem_cutFrom h hl
  | c :: cs, 0, position, ls, l, h, hl => by
    rcases cutFrom_cons_eq_ok_iff.mp h with ⟨-, h⟩ | ⟨-, l', n, rest, hfirst, hrest, rfl⟩
    · exact exists_first?_of_mem_cutFrom h hl
    · rcases List.mem_cons.mp hl with rfl | hl
      · exact ⟨_, _, hfirst⟩
      · exact exists_first?_of_mem_cutFrom hrest hl

/-- Blanks are skipped. -/
theorem cutFrom_blanks : ∀ {blanks : List Char} (position : Nat) (cs : List Char),
    (∀ c ∈ blanks, isBlank c = true) →
    cutFrom 0 position (blanks ++ cs) = cutFrom 0 (position + blanks.length) cs
  | [], _, _, _ => rfl
  | c :: blanks, position, cs, h => by
    have hc := h c List.mem_cons_self
    rw [List.cons_append, cutFrom, if_pos hc,
      cutFrom_blanks _ _ fun b hb => h b (List.mem_cons_of_mem c hb), List.length_cons,
      Nat.add_assoc, Nat.add_comm 1]

/-- The characters that are lexemes by themselves. -/
def signs : List Char := ['(', ')', 'π', '√', '+', '-', '*', '/', '%', '^']

theorem mem_signs_of_ofSign? {c : Char} {l : Lexeme} (h : ofSign? c = some l) : c ∈ signs := by
  rcases ofSign?_cases h with
    ⟨rfl, -⟩ | ⟨rfl, -⟩ | ⟨rfl, -⟩ | ⟨rfl, -⟩ | ⟨o, two, hsymbol, -⟩
  · decide
  · decide
  · decide
  · decide
  · have hsigns : o ≠ .negate → o.symbol.toList.all (· ∈ signs) = true := by cases o <;> decide
    simpa [hsymbol] using hsigns two

/-- A character of a kind that no sign is of. -/
theorem ofSign?_eq_none {p : Char → Bool} (hsigns : signs.all (!p ·) = true) {c : Char}
    (h : p c = true) : ofSign? c = none := by
  refine Option.eq_none_iff_forall_ne_some.mpr fun l hl => ?_
  have hc := List.all_eq_true.mp hsigns c (mem_signs_of_ofSign? hl)
  simp [h] at hc

/-- No lexeme begins with a blank. -/
theorem first?_of_isBlank {c : Char} (cs : List Char) (h : isBlank c = true) :
    first? (c :: cs) = none := by
  have hapart : Apart (c :: cs) := (apart_cons c cs).mpr (endsLexeme_of_isBlank h)
  have hsign : ofSign? c = none := ofSign?_eq_none (p := isBlank) (by decide) h
  have hnumeral : ofNumeral? (c :: cs) = none := by
    have hlength : numeralLength (c :: cs) = 0 := numeralLength_append hapart []
    simp [ofNumeral?, hlength]
  have hname : ofName? (c :: cs) = none := by
    have hfind : Name.find? (c :: cs) = Name.find? [] := Name.find?_append hapart []
    rw [ofName?, hfind]
    rfl
  rw [first?, hsign, hnumeral, hname]
  exact ite_self none

/-- A digit or a point begins a numeral or nothing. -/
theorem first?_of_isDigit_or_point {c : Char} (h : c.isDigit = true ∨ c = '.') (cs : List Char) :
    first? (c :: cs) = ofNumeral? (c :: cs) := by
  have hpiece : (c.isDigit || c == '.') = true := by simpa using h
  have hsign : ofSign? c = none :=
    ofSign?_eq_none (p := fun c => c.isDigit || c == '.') (by decide) hpiece
  rw [first?, hsign]
  exact if_pos hpiece

/-- The text has these lexemes, wherever it stands. -/
def Cuts (cs : List Char) (ls : List Lexeme) : Prop :=
  ∀ position, cutFrom 0 position cs = .ok ls

namespace Cuts

theorem nil : Cuts [] [] := fun _ => rfl

theorem of_first? {cs : List Char} {l : Lexeme} (h : first? cs = some (l, cs.length)) :
    Cuts cs [l] := by
  cases cs with
  | nil => cases h
  | cons c cs =>
    intro position
    have hblank : ¬ isBlank c = true := fun hc => by simp [first?_of_isBlank cs hc] at h
    have hskip := cutFrom_skip cs [] (position + 1)
    rw [List.append_nil] at hskip
    rw [cutFrom, if_neg hblank, h]
    exact map_eq_ok_iff.mpr ⟨[], hskip, rfl⟩

theorem append {cs bs : List Char} {ls ms : List Lexeme} (h : Cuts cs ls) (hbs : Apart bs)
    (h' : Cuts bs ms) : Cuts (cs ++ bs) (ls ++ ms) := by
  intro position
  rw [cutFrom_append hbs position (Nat.zero_le _), h position]
  exact map_eq_ok_iff.mpr ⟨ms, h' _, rfl⟩

/-- A sign needs no care. -/
theorem cons {c : Char} {cs : List Char} {l : Lexeme} {ls : List Lexeme}
    (hc : ofSign? c = some l) (h : Cuts cs ls) : Cuts (c :: cs) (l :: ls) := by
  intro position
  have hfirst : first? (c :: cs) = some (l, 1) := by rw [first?, hc]
  have hblank : ¬ isBlank c = true := fun hb => by simp [first?_of_isBlank cs hb] at hfirst
  rw [cutFrom, if_neg hblank, hfirst]
  exact map_eq_ok_iff.mpr ⟨ls, h _, rfl⟩

theorem cons_blank {c : Char} {cs : List Char} {ls : List Lexeme} (hc : isBlank c = true)
    (h : Cuts cs ls) : Cuts (c :: cs) ls := by
  intro position
  rw [cutFrom, if_pos hc]
  exact h _

end Cuts
end Lexeme

theorem Name.cuts_text (n : Name) : Lexeme.Cuts n.text.toList [.token (.ofName n)] := by
  have htable : ∀ n ∈ table,
      Lexeme.first? n.text.toList = some (.token (.ofName n), n.text.toList.length) := by decide
  exact .of_first? (htable n n.mem_table)

/-! ### The tokens of a text -/

theorem tokenize_of_cuts {cs : List Char} {ls : List Lexeme} (h : Lexeme.Cuts cs ls) :
    tokenize cs = .ok (Lexeme.toTokens .noValue ls) := map_eq_ok_iff.mpr ⟨ls, h 0, rfl⟩

/-- What is trimmed off is blank. -/
theorem exists_append_trim (cs : List Char) : ∃ before after : List Char,
    cs = before ++ (trim cs ++ after) ∧ (∀ c ∈ before, isBlank c = true) ∧
      ∀ c ∈ after, isBlank c = true := by
  refine ⟨cs.takeWhile isBlank, ((cs.dropWhile isBlank).reverse.takeWhile isBlank).reverse, ?_, ?_, ?_⟩
  · rw [trim, trimEnd_append_blank, List.takeWhile_append_dropWhile]
  · exact fun c hc => List.all_eq_true.mp List.all_takeWhile c hc
  · exact fun c hc => List.all_eq_true.mp List.all_takeWhile c (List.mem_reverse.mp hc)

/-- **Blanks around a text do not matter.** -/
theorem Lexeme.cut_trim_iff {cs : List Char} {ls : List Lexeme} :
    cut (trim cs) = .ok ls ↔ cut cs = .ok ls := by
  obtain ⟨before, after, hcs, hbefore, hafter⟩ := exists_append_trim cs
  have hapart : Apart after := by
    intro b hb
    exact endsLexeme_of_isBlank (hafter b (List.mem_of_mem_head? hb))
  have hrest := cutFrom_blanks (0 + before.length + (trim cs).length) [] hafter
  rw [List.append_nil] at hrest
  have hcut : cut cs = cutFrom 0 (0 + before.length) (trim cs) := by
    conv => lhs; rw [cut, hcs]
    rw [cutFrom_blanks 0 _ hbefore, cutFrom_append hapart _ (Nat.zero_le _), hrest]
    cases cutFrom 0 (0 + before.length) (trim cs) with
    | error e => rfl
    | ok ls => exact congrArg Except.ok (List.append_nil ls)
  rw [hcut]
  exact ⟨cutFrom_position _, cutFrom_position 0⟩

theorem tokenize_trim {cs : List Char} {ts : List Token} (h : tokenize cs = .ok ts) :
    tokenize (trim cs) = .ok ts := by
  obtain ⟨ls, hls, hts⟩ := map_eq_ok_iff.mp h
  exact map_eq_ok_iff.mpr ⟨ls, Lexeme.cut_trim_iff.mpr hls, hts⟩

/-- No character reads as the prefix minus. -/
theorem Lexeme.first?_ne_negate {cs : List Char} {n : Nat} :
    first? cs ≠ some (.token (.op .negate), n) := by
  intro h
  rcases of_first?_eq_some h with ⟨c, -, -, hsign, -⟩ | ⟨-, v, -, hnum⟩ | ⟨name, -, -, hname⟩
  · rcases ofSign?_cases hsign with
      ⟨-, hl⟩ | ⟨-, hl⟩ | ⟨-, hl⟩ | ⟨-, hl⟩ | ⟨o, two, -, hl⟩ <;> cases hl
    exact two rfl
  · cases hnum
  · cases name <;> cases hname

namespace Lexeme

/-- The token of a lexeme; a root sign is the function. -/
def asToken : Lexeme → Token
  | token t => t
  | root => .func .sqrt

@[simp] theorem emit_noValue (l : Lexeme) : l.emit .noValue = [l.asToken] := by
  cases l <;> rfl

theorem toLeft_eq_value_iff (l : Lexeme) : l.toLeft = .value ↔ l.asToken.isValue = true := by
  cases l with
  | root => exact iff_of_false nofun Bool.false_ne_true
  | token t => cases h : t.isValue <;> simp [toLeft, asToken, h]

/-- **What a lexeme becomes.** Its token, in parentheses if it is an atom after a
root sign, and with a multiplication before it where two values touch. -/
theorem emit_cases (left : LeftContext) (l : Lexeme) :
    (left = .rootSign ∧ l.asToken.isAtom = true ∧ l.emit left = [.lpar, l.asToken, .rpar]) ∨
      (left = .value ∧ l.asToken.beginsValue = true ∧ l.emit left = [.op .times, l.asToken]) ∨
      (¬ (left = .value ∧ l.asToken.beginsValue = true) ∧ l.emit left = [l.asToken]) := by
  have hjoined : ∀ t, (left = .value ∧ t.beginsValue = true ∧ joined left t = [.op .times, t]) ∨
      (¬ (left = .value ∧ t.beginsValue = true) ∧ joined left t = [t]) := by
    intro t
    by_cases h : left = .value ∧ t.beginsValue = true
    · exact .inl ⟨h.1, h.2, if_pos h⟩
    · exact .inr ⟨h, if_neg h⟩
  cases l with
  | root => exact .inr (hjoined (.func .sqrt))
  | token t =>
    rw [emit]
    by_cases h : left = .rootSign ∧ t.isAtom = true
    · exact .inl ⟨h.1, h.2, if_pos h⟩
    · rw [if_neg h]
      exact .inr (hjoined t)

/-- A token is that of a lexeme, or a multiplication or a parenthesis that is put in. -/
theorem exists_of_mem_toTokens {t : Token} : ∀ {ls : List Lexeme} {left : LeftContext},
    t ∈ toTokens left ls → (∃ l ∈ ls, l.asToken = t) ∨ t ∈ [.op .times, .lpar, .rpar]
  | [], _, h => by cases h
  | l :: ls, left, h => by
    rw [toTokens_cons] at h
    rcases List.mem_append.mp h with h | h
    · rcases emit_cases left l with ⟨-, -, hemit⟩ | ⟨-, -, hemit⟩ | ⟨-, hemit⟩ <;> rw [hemit] at h
      · simp only [List.mem_cons, List.not_mem_nil, or_false] at h
        rcases h with rfl | rfl | rfl <;> simp
      · simp only [List.mem_cons, List.not_mem_nil, or_false] at h
        rcases h with rfl | rfl <;> simp
      · exact .inl ⟨l, List.mem_cons_self, (List.mem_singleton.mp h).symm⟩
    · exact (exists_of_mem_toTokens h).imp_left fun ⟨m, hm, ht⟩ =>
        ⟨m, List.mem_cons_of_mem l hm, ht⟩

theorem eq_token_of_asToken {l : Lexeme} {t : Token} (h : l.asToken = t) (ht : t ≠ .func .sqrt) :
    l = .token t := by
  cases l with
  | token u => exact congrArg token h
  | root => exact absurd h.symm ht

end Lexeme

/-- A minus in a text is not yet a prefix. -/
theorem negate_not_mem_of_tokenize {cs : List Char} {ts : List Token} (h : tokenize cs = .ok ts) :
    .op .negate ∉ ts := by
  obtain ⟨ls, hls, rfl⟩ := map_eq_ok_iff.mp h
  intro hmem
  obtain ⟨l, hl, ht⟩ := (Lexeme.exists_of_mem_toTokens hmem).resolve_right (by decide)
  obtain rfl := Lexeme.eq_token_of_asToken ht (by decide)
  obtain ⟨us, n, hfirst⟩ := Lexeme.exists_first?_of_mem_cutFrom hls hl
  exact Lexeme.first?_ne_negate hfirst

end Calculator
