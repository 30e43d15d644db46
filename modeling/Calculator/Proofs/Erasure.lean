/-
# What the erase key takes off

The erase key takes off the last piece of an entry (`LastPiece`): the longest text that
ends the entry among those that are erased as a whole, and the last character where none
of them does. Those texts are the functions with their opening parenthesis and `pi`. The
table has them from the longest to the shortest, so the first one that ends the entry is
the longest (`length_le_of_find?_erasable`). The blanks at the end go before and after.
Each press makes the entry shorter, so a press for each character empties it.

Key definition: `LastPiece`.
Key theorems: `mem_erasable_iff`, `exists_lastPiece_eraseLast`,
`eraseLast_isPrefix_of_erasable`, `Session.length_entry_iterate_erase`,
`Session.erase_takes_last_piece`.
-/
import Mathlib.Logic.Function.Iterate
import Calculator.Session.Keys

namespace Calculator

/-! ### The texts that are erased as a whole -/

/-- A text is erased as a whole if it is a function with its parenthesis, or `pi`. -/
theorem mem_erasable_iff {t : String} :
    t ∈ erasable ↔ (∃ f : Func, t = f.name ++ "(") ∨ t = Constant.pi.name := by
  constructor
  · have htable : ∀ t ∈ erasable, (∃ f ∈ Func.all, t = f.name ++ "(") ∨ t = Constant.pi.name := by
      decide
    intro ht
    rcases htable t ht with ⟨f, -, hf⟩ | hpi
    · exact .inl ⟨f, hf⟩
    · exact .inr hpi
  · rintro (⟨f, rfl⟩ | rfl)
    · cases f <;> decide
    · decide

/-- The table goes from the longest text to the shortest. -/
theorem pairwise_erasable : erasable.Pairwise fun t u => u.toList.length ≤ t.toList.length := by
  decide

/-- So the first text of the table that ends an entry is the longest. -/
theorem length_le_of_find?_erasable {cs : List Char} {t u : String}
    (ht : erasable.find? (fun t => t.toList.isSuffixOf cs) = some t) (hu : u ∈ erasable)
    (hends : u.toList <:+ cs) : u.toList.length ≤ t.toList.length := by
  obtain ⟨-, before, after, htable, hbefore⟩ := List.find?_eq_some_iff_append.mp ht
  have hpairs := pairwise_erasable
  rw [htable, List.mem_append, List.mem_cons] at hu
  rw [htable, List.pairwise_append, List.pairwise_cons] at hpairs
  rcases hu with hu | rfl | hu
  · have hno := hbefore u hu
    rw [List.isSuffixOf_iff_suffix.mpr hends] at hno
    cases hno
  · exact Nat.le_refl _
  · exact hpairs.2.1.1 u hu

/-! ### The last piece -/

/-- The last piece of a text, and what stands before it: the longest of the texts that
are erased as a whole and end it, or the last character if there is none. An empty text
has nothing to take off. -/
inductive LastPiece : (kept piece : List Char) → Prop where
  | whole {kept : List Char} {t : String} (ht : t ∈ erasable)
      (hlongest : ∀ u ∈ erasable, u.toList <:+ kept ++ t.toList →
        u.toList.length ≤ t.toList.length) : LastPiece kept t.toList
  | char {kept : List Char} {c : Char} (hnone : ∀ u ∈ erasable, ¬ u.toList <:+ kept ++ [c]) :
      LastPiece kept [c]
  | nil : LastPiece [] []

theorem exists_lastPiece (cs : List Char) : ∃ kept piece, LastPiece kept piece ∧
    cs = kept ++ piece ∧ cs.take (cs.length - erasedLength cs) = kept := by
  unfold erasedLength
  cases hfind : erasable.find? fun t => t.toList.isSuffixOf cs with
  | some t =>
    have hends : t.toList <:+ cs := by simpa using List.find?_some hfind
    obtain ⟨kept, rfl⟩ := hends
    refine ⟨kept, t.toList, .whole (List.mem_of_find?_eq_some hfind) ?_, rfl, by simp⟩
    exact fun u hu hends => length_le_of_find?_erasable hfind hu hends
  | none =>
    have hnone : ∀ u ∈ erasable, ¬ u.toList <:+ cs := by simpa using hfind
    rcases List.eq_nil_or_concat cs with rfl | ⟨kept, c, rfl⟩
    · exact ⟨[], [], .nil, rfl, rfl⟩
    · rw [List.concat_eq_append] at hnone ⊢
      exact ⟨kept, [c], .char hnone, rfl, by simp⟩

/-- **The erase key takes off the last piece**, and the blanks around it. -/
theorem exists_lastPiece_eraseLast (cs : List Char) : ∃ kept piece, LastPiece kept piece ∧
    trimEnd cs = kept ++ piece ∧ eraseLast cs = trimEnd kept := by
  obtain ⟨kept, piece, hpiece, hsplit, hkept⟩ := exists_lastPiece (trimEnd cs)
  exact ⟨kept, piece, hpiece, hsplit, by rw [eraseLast, hkept]⟩

/-- No text that is erased as a whole is longer than the last piece. -/
theorem LastPiece.length_le {kept piece : List Char} (h : LastPiece kept piece) {t : String}
    (ht : t ∈ erasable) (hends : t.toList <:+ kept ++ piece) : t.toList.length ≤ piece.length := by
  cases h with
  | whole _ hlongest => exact hlongest t ht hends
  | char hnone => exact absurd hends (hnone t ht)
  | nil => exact hends.length_le

/-- **Nothing is left of a text that is erased as a whole.** -/
theorem eraseLast_isPrefix_of_erasable {cs before : List Char} {t : String} (ht : t ∈ erasable)
    (h : trimEnd cs = before ++ t.toList) : eraseLast cs <+: before := by
  obtain ⟨kept, piece, hpiece, hsplit, herase⟩ := exists_lastPiece_eraseLast cs
  rw [h] at hsplit
  have hlength := hpiece.length_le ht (hsplit ▸ List.suffix_append ..)
  have hkept : kept <+: before := by
    have htotal := congrArg List.length hsplit
    simp only [List.length_append] at htotal
    refine List.prefix_of_prefix_length_le ⟨piece, hsplit.symm⟩ (List.prefix_append ..) ?_
    omega
  rw [herase]
  exact (isPrefix_trimEnd kept).trans hkept

theorem isBlank_of_getLast?_eraseLast (cs : List Char) :
    ∀ c ∈ (eraseLast cs).getLast?, isBlank c = false := by
  intro c hc
  have hne : eraseLast cs ≠ [] := by
    intro hnil
    simp [hnil] at hc
  rw [List.getLast?_eq_some_getLast hne, Option.mem_some_iff] at hc
  rw [← hc]
  exact isBlank_getLast_trimEnd _ hne

theorem length_eraseLast_le (cs : List Char) : (eraseLast cs).length ≤ cs.length - 1 := by
  by_cases hnil : cs = []
  · subst hnil
    exact (isPrefix_eraseLast []).length_le
  · have hshort := length_eraseLast_lt hnil
    omega

/-! ### Pressing the key -/

namespace Session

theorem toList_entry_press_erase (s : Session) :
    (s.press .erase).entry.toList = eraseLast s.entry.toList := by
  rw [press, erase, String.toList_ofList]

/-- **Each press takes one character at least.** -/
theorem length_entry_iterate_erase : ∀ (n : Nat) (s : Session),
    ((press · .erase)^[n] s).entry.toList.length ≤ s.entry.toList.length - n
  | 0, s => Nat.le_refl _
  | n + 1, s => by
    have ih := length_entry_iterate_erase n (s.press .erase)
    have hshort := length_eraseLast_le s.entry.toList
    rw [toList_entry_press_erase] at ih
    rw [Function.iterate_succ_apply]
    omega

/-- The key writes nothing but the entry and the wish for the focus. -/
theorem exists_iterate_erase_eq : ∀ (n : Nat) (s : Session), ∃ entry focus,
    (press · .erase)^[n] s = { s with entry, focus }
  | 0, s => ⟨s.entry, s.focus, rfl⟩
  | n + 1, s => by
    obtain ⟨entry, focus, ih⟩ := exists_iterate_erase_eq n (s.press .erase)
    refine ⟨entry, focus, ?_⟩
    rw [Function.iterate_succ_apply, ih, press, erase]

/-- **The erase key takes off the last piece of the entry.** It leaves a shorter
beginning of the entry with no blank at its end. But for blanks at the end, it takes off
the longest text that ends the entry among those that are erased as a whole, or else
one character; so nothing is left of a function with its parenthesis or of `pi`. As many
presses as the entry has characters empty it, and they change nothing but the entry and
the focus. -/
theorem erase_takes_last_piece (s : Session) (h : s.entry ≠ "") :
    let cs := s.entry.toList
    let left := (s.press .erase).entry.toList
    (left <+: cs ∧ left.length < cs.length ∧ ∀ c ∈ left.getLast?, isBlank c = false) ∧
      (∃ kept piece, LastPiece kept piece ∧ trimEnd cs = kept ++ piece ∧ left = trimEnd kept) ∧
      (∀ (before : List Char) (f : Func), trimEnd cs = before ++ (f.name ++ "(").toList →
        left <+: before) ∧
      (∀ before : List Char, trimEnd cs = before ++ Constant.pi.name.toList → left <+: before) ∧
      (∀ n, cs.length ≤ n → ((press · .erase)^[n] s).entry = "") ∧
      ∀ n, ∃ entry focus, (press · .erase)^[n] s = { s with entry, focus } := by
  have hne : s.entry.toList ≠ [] := by simpa using h
  simp only [toList_entry_press_erase]
  refine ⟨⟨isPrefix_eraseLast _, length_eraseLast_lt hne, isBlank_of_getLast?_eraseLast _⟩,
    exists_lastPiece_eraseLast _, fun before f hf => ?_, fun before hpi => ?_, fun n hn => ?_,
    fun n => exists_iterate_erase_eq n s⟩
  · exact eraseLast_isPrefix_of_erasable (mem_erasable_iff.mpr (.inl ⟨f, rfl⟩)) hf
  · exact eraseLast_isPrefix_of_erasable (mem_erasable_iff.mpr (.inr rfl)) hpi
  · have hlength := length_entry_iterate_erase n s
    have hempty : ((press · .erase)^[n] s).entry.toList.length = 0 := by omega
    simpa using hempty

/-- The arc sine goes as a whole, not only the sine that ends it, and then the letter
of two bytes before it. -/
theorem erase_takes_last_piece_of_arc_sine :
    let s : Session := { entry := "é asin( " }
    s.entry ≠ "" ∧ trimEnd s.entry.toList = "é ".toList ++ (Func.asin.name ++ "(").toList ∧
      (s.press .erase).entry = "é" ∧ (s.press .erase).entry.toList <+: "é ".toList ∧
      ((press · .erase)^[8] s).entry = "" := by
  intro s
  have hne : s.entry ≠ "" := by decide
  have htrim : trimEnd s.entry.toList = "é ".toList ++ (Func.asin.name ++ "(").toList := by decide
  obtain ⟨-, -, hfunc, -, hempty, -⟩ := erase_takes_last_piece s hne
  exact ⟨hne, htrim, by decide, hfunc _ .asin htrim, hempty 8 (by decide)⟩

end Session
end Calculator
