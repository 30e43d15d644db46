/-
# How a text is laid out

A lexeme is written as a sign, as a numeral, or as a name in any case
(`Lexeme.Written`). After a sign or a name anything may follow, since no name begins
with another; after a numeral, no digit, and no point unless the numeral has one.
Nothing else is the first lexeme of a text (`Lexeme.first?_append_eq_some_iff`), so a
text that is cut consists of its lexemes and the blanks around them, and its lexemes
are the only ones it can be put together of (`Lexeme.cut_eq_ok_iff`).

Key definitions: `Lexeme.Written`, `LaidOut`.
Key theorems: `Name.find?_eq_some_iff`, `Lexeme.first?_append_eq_some_iff`,
`Lexeme.cut_eq_ok_iff`.
-/
import Calculator.Proofs.Formula

namespace Calculator

/-! ### Names -/

namespace Name

/-- No name begins with another. -/
theorem eq_of_isPrefix {m n : Name} (h : m.text.toList <+: n.text.toList) : m = n := by
  have htable : ∀ m ∈ table, ∀ n ∈ table, m.text.toList <+: n.text.toList → m = n := by decide
  exact htable m m.mem_table n n.mem_table h

/-- So a text starts with one name at most, and it does not matter in which order
they are tried. -/
theorem find?_eq_some_iff {cs : List Char} {n : Name} :
    find? cs = some n ↔ n.text.toList <+: cs.map Char.toLower := by
  have hunique : ∀ m : Name, m.text.toList <+: cs.map Char.toLower →
      n.text.toList <+: cs.map Char.toLower → m = n := by
    intro m hm hn
    rcases List.prefix_or_prefix_of_prefix hm hn with h | h
    · exact eq_of_isPrefix h
    · exact (eq_of_isPrefix h).symm
  constructor
  · exact fun h => (startsText_iff n cs).mp (startsText_of_find? h)
  · intro hn
    cases hfind : find? cs with
    | none =>
      have hnone := List.find?_eq_none.mp hfind n n.mem_table
      exact absurd ((startsText_iff n cs).mpr hn) hnone
    | some m =>
      have hm := (startsText_iff m cs).mp (startsText_of_find? hfind)
      rw [hunique m hm hn]

end Name

/-- A letter is no digit and no point. -/
theorem not_numeral_of_letter {c : Char} (h : c.toLower.isLower = true) :
    c.isDigit = false ∧ c ≠ '.' := by
  constructor
  · by_contra hdigit
    rw [Bool.not_eq_false, isDigit_iff] at hdigit
    have hcase : c.toLower = c := toLower_of_toNat (by omega)
    rw [hcase, isLower_iff] at h
    omega
  · rintro rfl
    revert h
    decide

namespace Lexeme

theorem ofSign?_of_letter {c : Char} (h : c.toLower.isLower = true) : ofSign? c = none :=
  ofSign?_eq_none (p := fun c => c.toLower.isLower) (by decide) h

/-- A letter begins a name or nothing. -/
theorem first?_of_letter {c : Char} (h : c.toLower.isLower = true) (cs : List Char) :
    first? (c :: cs) = ofName? (c :: cs) := by
  obtain ⟨hdigit, hpoint⟩ := not_numeral_of_letter h
  rw [first?, ofSign?_of_letter h]
  simp [hdigit, hpoint]

/-! ### The first lexeme -/

/-- The lexeme is written with these characters, and does not go on into `rest`. -/
inductive Written : Lexeme → (cs rest : List Char) → Prop where
  | sign {c : Char} {l : Lexeme} {rest : List Char} (h : ofSign? c = some l) : Written l [c] rest
  | numeral (n : Numeral) {rest : List Char} (h : n.Stops rest) :
      Written (.token (.num n.toNumber)) n.text rest
  | name (n : Name) {cs rest : List Char} (h : cs.map Char.toLower = n.text.toList) :
      Written (.token (.ofName n)) cs rest

/-- A name begins with a letter. -/
theorem exists_letter_of_map {n : Name} {cs : List Char} (h : cs.map Char.toLower = n.text.toList) :
    ∃ c cs', cs = c :: cs' ∧ c.toLower.isLower = true := by
  have hlength : 0 < cs.length := by
    rw [← List.length_map Char.toLower, h]
    exact n.length_pos
  obtain ⟨c, cs', rfl⟩ := List.exists_cons_of_length_pos hlength
  exact ⟨c, cs', rfl, Name.isLower_of_mem_text (n := n) (by simp [← h])⟩

variable {l : Lexeme} {cs rest : List Char}

theorem Written.ne_nil (h : l.Written cs rest) : cs ≠ [] := by
  cases h with
  | sign => exact List.cons_ne_nil _ _
  | numeral n => exact n.text_ne_nil
  | name n h =>
    obtain ⟨c, cs', rfl, -⟩ := exists_letter_of_map h
    exact List.cons_ne_nil c cs'

theorem Written.first?_append (h : l.Written cs rest) :
    first? (cs ++ rest) = some (l, cs.length) := by
  cases h with
  | @sign c _ _ h =>
    rw [List.singleton_append, first?, h]
    rfl
  | numeral n h => exact Numeral.first?_text_append h
  | name n h =>
    obtain ⟨c, cs, rfl, hc⟩ := exists_letter_of_map h
    have hfind : Name.find? (c :: cs ++ rest) = some n := by
      rw [Name.find?_eq_some_iff, List.map_append, h]
      exact List.prefix_append ..
    have hlength : n.length = (c :: cs).length := by
      rw [Name.length, ← h, List.length_map]
    rw [List.cons_append] at hfind ⊢
    rw [first?_of_letter hc, ofName?, hfind, ← hlength]
    rfl

theorem written_of_first?_append (h : first? (cs ++ rest) = some (l, cs.length)) :
    l.Written cs rest := by
  have hpos := length_pos_of_first? h
  rcases of_first?_eq_some h with
    ⟨c, cs', hcs, hsign, hone⟩ | ⟨hlength, v, hv, rfl⟩ | ⟨n, hfind, hlength, rfl⟩
  · obtain ⟨d, rfl⟩ := List.length_eq_one_iff.mp hone
    obtain ⟨rfl, -⟩ := List.cons.inj hcs
    exact .sign hsign
  · -- The text is split in two ways, and both first parts have the length of the numeral.
    obtain ⟨n, rest', hsplit, hstops⟩ := Numeral.exists_text_append (hlength ▸ hpos.ne')
    rw [hsplit, Numeral.numeralLength_text_append hstops] at hlength
    obtain ⟨rfl, rfl⟩ := List.append_inj hsplit hlength
    rw [List.take_left, n.ofText?_text] at hv
    obtain rfl := Option.some.inj hv
    exact .numeral n hstops
  · have hname := List.prefix_iff_eq_take.mp (Name.find?_eq_some_iff.mp hfind)
    refine .name n ?_
    rw [hname, ← Name.length, ← hlength, ← List.map_take, List.take_left]

/-- **What a text begins with.** The first lexeme of a text is one that its first
characters write and that does not go on. -/
theorem first?_append_eq_some_iff :
    first? (cs ++ rest) = some (l, cs.length) ↔ l.Written cs rest :=
  ⟨written_of_first?_append, Written.first?_append⟩

/-- The first lexeme with the characters that it takes off the text. -/
theorem written_of_first? {n : Nat} (h : first? cs = some (l, n)) :
    l.Written (cs.take n) (cs.drop n) := by
  rw [← first?_append_eq_some_iff, List.take_append_drop, List.length_take,
    Nat.min_eq_left (length_le_of_first? h), h]

/-- What follows matters to a numeral only. -/
theorem Written.of_stops {rest' : List Char} (h : l.Written cs rest)
    (hstops : ∀ n : Numeral, n.Stops rest → n.Stops rest') : l.Written cs rest' := by
  cases h with
  | sign h => exact .sign h
  | numeral n h => exact .numeral n (hstops n h)
  | name n h => exact .name n h

end Lexeme

namespace Numeral

variable {n : Numeral} {rest rest' : List Char}

/-- Only the first character of what follows matters. -/
theorem Stops.of_head?_eq (h : n.Stops rest) (hrest : rest'.head? = rest.head?) :
    n.Stops rest' := by
  rw [Stops, hrest]
  exact h

theorem Stops.append (h : n.Stops rest) (h' : n.Stops rest') : n.Stops (rest ++ rest') := by
  cases rest with
  | nil => exact h'
  | cons c rest => exact h

theorem stops_of_apart (h : Apart rest) (n : Numeral) : n.Stops rest := by
  refine fun c hc => ⟨h.not_isDigit c hc, ?_⟩
  rintro rfl
  exact absurd hc h.head?_ne_point

end Numeral

namespace Lexeme

variable {l : Lexeme} {cs rest : List Char}

theorem Written.of_head? {rest' : List Char} (h : l.Written cs rest)
    (hrest : rest'.head? = rest.head? ∨ Apart rest') : l.Written cs rest' :=
  h.of_stops fun n hn => hrest.elim hn.of_head?_eq fun hapart => n.stops_of_apart hapart

end Lexeme

theorem Name.map_toLower_text (n : Name) : n.text.toList.map Char.toLower = n.text.toList := by
  have hlower : ∀ n ∈ table, n.text.toList.map Char.toLower = n.text.toList := by decide
  exact hlower n n.mem_table

/-- A name is read as itself, whatever follows. -/
theorem Name.written_text (n : Name) (rest : List Char) :
    (Lexeme.token (.ofName n)).Written n.text.toList rest :=
  .name n n.map_toLower_text

/-! ### The layout of a text -/

/-- The text consists of these lexemes, with blanks before each and after the last,
or with none. -/
inductive LaidOut : List Char → List Lexeme → Prop where
  | blank {gap : List Char} (hgap : ∀ c ∈ gap, isBlank c = true) : LaidOut gap []
  | lexeme {gap cs rest : List Char} {l : Lexeme} {ls : List Lexeme}
      (hgap : ∀ c ∈ gap, isBlank c = true) (hl : l.Written cs rest) (h : LaidOut rest ls) :
      LaidOut (gap ++ (cs ++ rest)) (l :: ls)

theorem LaidOut.cons_blank {c : Char} {cs : List Char} {ls : List Lexeme} (hc : isBlank c = true)
    (h : LaidOut cs ls) : LaidOut (c :: cs) ls := by
  cases h with
  | blank hgap => exact .blank (List.forall_mem_cons.mpr ⟨hc, hgap⟩)
  | lexeme hgap hl h => exact .lexeme (List.forall_mem_cons.mpr ⟨hc, hgap⟩) hl h

theorem LaidOut.append_blanks {gap cs : List Char} {ls : List Lexeme}
    (hgap : ∀ c ∈ gap, isBlank c = true) (h : LaidOut cs ls) : LaidOut (gap ++ cs) ls := by
  induction gap with
  | nil => exact h
  | cons c gap ih =>
    obtain ⟨hc, hgap⟩ := List.forall_mem_cons.mp hgap
    exact (ih hgap).cons_blank hc

namespace Lexeme

/-- The induction is along the cutting of the text; what is skipped belongs to a
lexeme already read. -/
theorem laidOut_drop : ∀ {cs : List Char} {skip position : Nat} {ls : List Lexeme},
    cutFrom skip position cs = .ok ls → LaidOut (cs.drop skip) ls
  | [], skip, _, _, h => by
    rw [cutFrom] at h
    cases h
    rw [List.drop_nil]
    exact .blank (List.forall_mem_nil _)
  | _ :: cs, skip + 1, position, ls, h => by
    rw [cutFrom] at h
    have hlater : LaidOut (cs.drop skip) ls := laidOut_drop h
    exact hlater
  | c :: cs, 0, position, ls, h => by
    rcases cutFrom_cons_eq_ok_iff.mp h with ⟨hblank, h⟩ | ⟨-, l, n, ls, hfirst, hrest, rfl⟩
    · exact .cons_blank hblank (laidOut_drop h)
    · obtain ⟨k, rfl⟩ := Nat.exists_eq_add_of_lt (length_pos_of_first? hfirst)
      rw [Nat.zero_add] at hfirst hrest
      have hwritten := written_of_first? hfirst
      have hlater : LaidOut (cs.drop k) ls := laidOut_drop hrest
      have hall : LaidOut ([] ++ ((c :: cs).take (k + 1) ++ (c :: cs).drop (k + 1))) (l :: ls) :=
        .lexeme (List.forall_mem_nil _) hwritten hlater
      rwa [List.nil_append, List.take_append_drop] at hall

/-- A lexeme begins with a character that is no blank. -/
theorem Written.exists_cons {l : Lexeme} {cs rest : List Char} (h : l.Written cs rest) :
    ∃ c cs', cs = c :: cs' ∧ isBlank c = false := by
  have hfirst := h.first?_append
  obtain ⟨c, cs, rfl⟩ := List.exists_cons_of_ne_nil h.ne_nil
  refine ⟨c, cs, rfl, Bool.eq_false_iff.mpr fun hc => ?_⟩
  rw [List.cons_append, first?_of_isBlank _ hc] at hfirst
  cases hfirst

/-- The first lexeme is cut off. -/
theorem Written.cutFrom_append {l : Lexeme} {cs rest : List Char} (h : l.Written cs rest)
    (position : Nat) : cutFrom 0 position (cs ++ rest) =
      (cutFrom 0 (position + cs.length) rest).map (l :: ·) := by
  have hfirst := h.first?_append
  obtain ⟨c, cs, rfl, hblank⟩ := h.exists_cons
  have hskip := cutFrom_skip cs rest (position + 1)
  rw [Nat.add_assoc, Nat.add_comm 1] at hskip
  rw [List.cons_append] at hfirst ⊢
  rw [cutFrom, hblank, if_neg Bool.false_ne_true, hfirst]
  exact congrArg (·.map (l :: ·)) hskip

theorem cuts_of_laidOut {cs : List Char} {ls : List Lexeme} (h : LaidOut cs ls) : Cuts cs ls := by
  induction h with
  | @blank gap hgap =>
    intro position
    have hblanks := cutFrom_blanks position [] hgap
    rwa [List.append_nil] at hblanks
  | @lexeme gap cs rest l ls hgap hl _ ih =>
    intro position
    rw [cutFrom_blanks position _ hgap, hl.cutFrom_append]
    exact map_eq_ok_iff.mpr ⟨ls, ih _, rfl⟩

/-- **A text is cut exactly as it is laid out.** -/
theorem cut_eq_ok_iff {cs : List Char} {ls : List Lexeme} : cut cs = .ok ls ↔ LaidOut cs ls :=
  ⟨fun h => laidOut_drop h, fun h => cuts_of_laidOut h 0⟩

end Lexeme

theorem tokenize_eq_ok_iff {cs : List Char} {ts : List Token} :
    tokenize cs = .ok ts ↔ ∃ ls, LaidOut cs ls ∧ Lexeme.toTokens .noValue ls = ts := by
  simp only [tokenize, map_eq_ok_iff, Lexeme.cut_eq_ok_iff]

end Calculator
