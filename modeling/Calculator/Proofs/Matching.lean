/-
# The parentheses of a text and of its tokens

A lexeme does not go past a character that ends lexemes, so each parenthesis of a
text is a lexeme of its own and no other lexeme holds one. The tokens that are
put in besides leave the matching alone: a multiplication is no parenthesis, and
those around the atom after a root sign are opened and closed at once. So the
parentheses of the tokens match exactly if those of the text do
(`balanced_of_tokenize_iff`).

Key definitions: `MatchedFrom`, `Matched`.
Key theorems: `Lexeme.length_le_of_apart`, `Lexeme.balanced_toTokens`,
`balanced_of_tokenize_iff`.
-/
import Calculator.Proofs.Lexing
import Calculator.Proofs.Placement
import Calculator.Proofs.Postfix

namespace Calculator

/-! ### Matched parentheses -/

/-- Where `n` parentheses are open before the text, no beginning of it closes more
than are open, and the whole closes all. -/
def MatchedFrom (n : Nat) (cs : List Char) : Prop :=
  (∀ us, us <+: cs → us.count ')' ≤ n + us.count '(') ∧ cs.count ')' = n + cs.count '('

/-- The parentheses of the text match. -/
def Matched (cs : List Char) : Prop := MatchedFrom 0 cs

def isParenthesis (c : Char) : Bool := c == '(' || c == ')'

/-- A character of a kind that the parentheses are not of is no parenthesis. -/
theorem isParenthesis_eq_false (kind : Char → Bool) (hopen : kind '(' = false)
    (hclose : kind ')' = false) {c : Char} (hc : kind c = true) : isParenthesis c = false := by
  rw [isParenthesis, Bool.or_eq_false_iff, beq_eq_false_iff_ne, beq_eq_false_iff_ne]
  constructor
  · rintro rfl
    simp [hopen] at hc
  · rintro rfl
    simp [hclose] at hc

theorem isParenthesis_of_isBlank {c : Char} (h : isBlank c = true) : isParenthesis c = false :=
  isParenthesis_eq_false isBlank (by decide) (by decide) h

theorem isParenthesis_of_endsLexeme {c : Char} (h : endsLexeme c = false) :
    isParenthesis c = false :=
  isParenthesis_eq_false (!endsLexeme ·) (by decide) (by decide) (by simp [h])

/-- Nothing but the parentheses matters. -/
theorem matchedFrom_filter_iff {n : Nat} {cs : List Char} :
    MatchedFrom n (cs.filter isParenthesis) ↔ MatchedFrom n cs := by
  have hcount : ∀ us : List Char, (us.filter isParenthesis).count '(' = us.count '(' ∧
      (us.filter isParenthesis).count ')' = us.count ')' := fun us =>
    ⟨List.count_filter rfl, List.count_filter rfl⟩
  unfold MatchedFrom
  rw [(hcount cs).1, (hcount cs).2]
  refine and_congr_left fun _ => ⟨fun h us hus => ?_, fun h us hus => ?_⟩
  · rw [← (hcount us).1, ← (hcount us).2]
    exact h _ (hus.filter _)
  · obtain ⟨vs, hvs, rfl⟩ := List.prefix_filter_iff.mp hus
    rw [(hcount vs).1, (hcount vs).2]
    exact h vs hvs

theorem matchedFrom_nil {n : Nat} : MatchedFrom n [] ↔ n = 0 := by
  constructor
  · rintro ⟨-, h⟩
    exact h.symm
  · rintro rfl
    exact ⟨fun us hus => by rw [List.prefix_nil.mp hus]; exact Nat.le_refl _, rfl⟩

theorem matchedFrom_cons_of_not {n : Nat} {c : Char} {cs : List Char}
    (h : isParenthesis c = false) : MatchedFrom n (c :: cs) ↔ MatchedFrom n cs := by
  rw [← matchedFrom_filter_iff, List.filter_cons_of_neg (by simp [h]), matchedFrom_filter_iff]

/-- The beginnings of a text that is not empty. -/
theorem forall_prefix_cons_iff {P : List Char → Prop} {c : Char} {cs : List Char} :
    (∀ us, us <+: c :: cs → P us) ↔ P [] ∧ ∀ us, us <+: cs → P (c :: us) := by
  constructor
  · exact fun h => ⟨h [] (List.nil_prefix ..), fun us hus => h _ ((List.prefix_cons_inj c).mpr hus)⟩
  · rintro ⟨hnil, hcons⟩ us hus
    rcases List.prefix_cons_iff.mp hus with rfl | ⟨vs, rfl, hvs⟩
    · exact hnil
    · exact hcons vs hvs

theorem matchedFrom_open {n : Nat} {cs : List Char} :
    MatchedFrom n ('(' :: cs) ↔ MatchedFrom (n + 1) cs := by
  have hcount : ∀ us : List Char, ('(' :: us).count '(' = us.count '(' + 1 ∧
      ('(' :: us).count ')' = us.count ')' := fun us =>
    ⟨List.count_cons_self, List.count_cons_of_ne (by decide)⟩
  unfold MatchedFrom
  simp only [forall_prefix_cons_iff, hcount, List.count_nil, Nat.zero_le, true_and,
    Nat.add_right_comm n 1, Nat.add_assoc]

theorem matchedFrom_close {n : Nat} {cs : List Char} :
    MatchedFrom (n + 1) (')' :: cs) ↔ MatchedFrom n cs := by
  have hcount : ∀ us : List Char, (')' :: us).count '(' = us.count '(' ∧
      (')' :: us).count ')' = us.count ')' + 1 := fun us =>
    ⟨List.count_cons_of_ne (by decide), List.count_cons_self⟩
  unfold MatchedFrom
  simp only [forall_prefix_cons_iff, hcount, List.count_nil, Nat.zero_le, true_and,
    Nat.add_right_comm n 1, Nat.add_le_add_iff_right, Nat.add_right_cancel_iff]

/-- A parenthesis that closes none. -/
theorem not_matchedFrom_close (cs : List Char) : ¬ MatchedFrom 0 (')' :: cs) := by
  rintro ⟨h, -⟩
  have hfirst := h [')'] ((List.prefix_cons_inj _).mpr (List.nil_prefix ..))
  revert hfirst
  decide

/-! ### From the text to its lexemes -/

namespace Lexeme

/-- **A lexeme does not go past a character that ends lexemes.** -/
theorem length_le_of_apart {us bs : List Char} {l : Lexeme} {n : Nat} (hbs : Apart bs)
    (hus : us ≠ []) (h : first? (us ++ bs) = some (l, n)) : n ≤ us.length := by
  rw [first?_append hbs hus] at h
  exact length_le_of_first? h

/-- So only its first character may be one. -/
theorem endsLexeme_of_mem_take {c : Char} {cs : List Char} {l : Lexeme} {n : Nat}
    (h : first? (c :: cs) = some (l, n)) : ∀ b ∈ cs.take (n - 1), endsLexeme b = false := by
  intro b hb
  by_contra hends
  obtain ⟨us, vs, hsplit⟩ := List.append_of_mem hb
  have hcs : cs = us ++ b :: (vs ++ cs.drop (n - 1)) := by
    calc cs = cs.take (n - 1) ++ cs.drop (n - 1) := (List.take_append_drop ..).symm
      _ = us ++ b :: (vs ++ cs.drop (n - 1)) := by
        rw [hsplit, List.append_assoc, List.cons_append]
  have hlength := congrArg List.length hsplit
  rw [List.length_take, List.length_append, List.length_cons] at hlength
  -- The text before such a character has the same first lexeme, but is too short for it.
  rw [hcs, ← List.cons_append] at h
  have hle := length_le_of_apart ((apart_cons ..).mpr (by simpa using hends)) (List.cons_ne_nil c us) h
  rw [List.length_cons] at hle
  omega

/-- Only a parenthesis reads as one. -/
theorem isParenthesis_of_first? {c : Char} {cs : List Char} {t : Token} {n : Nat}
    (hc : isParenthesis c = false) (h : first? (c :: cs) = some (token t, n)) :
    t.isParenthesis = false := by
  rcases of_first?_eq_some h with ⟨d, rest, hd, hsign, -⟩ | ⟨-, v, -, ht⟩ | ⟨name, -, -, ht⟩
  · obtain ⟨rfl, -⟩ := List.cons.inj hd
    rcases ofSign?_cases hsign with
      ⟨rfl, -⟩ | ⟨rfl, -⟩ | ⟨-, hl⟩ | ⟨-, hl⟩ | ⟨o, -, -, hl⟩
    · cases hc
    · cases hc
    · cases hl
      rfl
    · cases hl
    · cases hl
      rfl
  · cases ht
    rfl
  · cases ht
    cases name <;> rfl

/-! ### From the lexemes to the tokens -/

theorem balanced_joined (left : LeftContext) (t : Token) (n : Nat) (ts : List Token) :
    balanced n (joined left t ++ ts) = balanced n (t :: ts) := by
  unfold joined
  split <;> rfl

theorem balanced_cons_of_not {t : Token} (h : t.isParenthesis = false) (n : Nat) (ts : List Token) :
    balanced n (t :: ts) = balanced n ts := by
  cases t <;> first | rfl | cases h

theorem balanced_emit_parenthesis {t : Token} (h : t.isParenthesis = true) (left : LeftContext)
    (n : Nat) (ts : List Token) :
    balanced n ((token t).emit left ++ ts) = balanced n (t :: ts) := by
  have hatom : ¬ (left = .rootSign ∧ t.isAtom = true) := by
    rintro ⟨-, ht⟩
    cases t <;> first | cases h; done | cases ht
  rw [emit, if_neg hatom, balanced_joined]

/-- The parentheses around the atom after a root sign are opened and closed at
once. -/
theorem balanced_emit {l : Lexeme} (h : ∀ t, l = token t → t.isParenthesis = false)
    (left : LeftContext) (n : Nat) (ts : List Token) :
    balanced n (l.emit left ++ ts) = balanced n ts := by
  cases l with
  | root => exact balanced_joined left (.func .sqrt) n ts
  | token t =>
    have ht := h t rfl
    rw [emit]
    split
    · change balanced (n + 1) (t :: .rpar :: ts) = balanced n ts
      rw [balanced_cons_of_not ht]
      rfl
    · rw [balanced_joined, balanced_cons_of_not ht]

/-- **The parentheses of a text are those of its tokens.** The induction is along
the cutting of the text; what is skipped belongs to a lexeme. -/
theorem balanced_toTokens : ∀ {cs : List Char} {skip position : Nat} {ls : List Lexeme}
    {left : LeftContext} {n : Nat}, cutFrom skip position cs = .ok ls →
    (∀ c ∈ cs.take skip, endsLexeme c = false) →
    (balanced n (toTokens left ls) = true ↔ MatchedFrom n cs)
  | [], skip, position, ls, left, n, h, _ => by
    rw [cutFrom] at h
    cases h
    rw [matchedFrom_nil, toTokens_nil, balanced, beq_iff_eq]
  | c :: cs, skip + 1, position, ls, left, n, h, hskip => by
    rw [cutFrom] at h
    rw [List.take_succ_cons, List.forall_mem_cons] at hskip
    rw [matchedFrom_cons_of_not (isParenthesis_of_endsLexeme hskip.1)]
    exact balanced_toTokens h hskip.2
  | c :: cs, 0, position, ls, left, n, h, _ => by
    rcases cutFrom_cons_eq_ok_iff.mp h with ⟨hblank, h⟩ | ⟨-, l, length, rest, hfirst, hrest, rfl⟩
    · rw [matchedFrom_cons_of_not (isParenthesis_of_isBlank hblank)]
      exact balanced_toTokens h (by simp)
    · have ih : ∀ left n, balanced n (toTokens left rest) = true ↔ MatchedFrom n cs :=
        fun _ _ => balanced_toTokens hrest (endsLexeme_of_mem_take hfirst)
      rw [toTokens_cons]
      by_cases hopen : c = '('
      · subst hopen
        cases hfirst
        rw [balanced_emit_parenthesis rfl, matchedFrom_open]
        exact ih ..
      by_cases hclose : c = ')'
      · subst hclose
        cases hfirst
        rw [balanced_emit_parenthesis rfl]
        cases n with
        | zero => exact iff_of_false Bool.false_ne_true (not_matchedFrom_close cs)
        | succ n =>
          rw [matchedFrom_close]
          exact ih ..
      · have hc : isParenthesis c = false := by simp [isParenthesis, hopen, hclose]
        have hl : ∀ t, l = token t → t.isParenthesis = false := by
          rintro t rfl
          exact isParenthesis_of_first? hc hfirst
        rw [balanced_emit hl, matchedFrom_cons_of_not hc]
        exact ih ..

end Lexeme

/-! ### From the text to its tokens -/

theorem matched_trim_iff {cs : List Char} : Matched (trim cs) ↔ Matched cs := by
  have hfilter : ∀ {bs : List Char}, (∀ c ∈ bs, isBlank c = true) →
      bs.filter isParenthesis = [] := fun hbs => by
    refine List.filter_eq_nil_iff.mpr fun c hc => ?_
    rw [isParenthesis_of_isBlank (hbs c hc)]
    exact Bool.false_ne_true
  obtain ⟨before, after, hcs, hbefore, hafter⟩ := exists_append_trim cs
  have hsame : cs.filter isParenthesis = (trim cs).filter isParenthesis := by
    conv => lhs; rw [hcs]
    rw [List.filter_append, List.filter_append, hfilter hbefore, hfilter hafter, List.nil_append,
      List.append_nil]
  rw [Matched, Matched, ← matchedFrom_filter_iff, ← hsame, matchedFrom_filter_iff]

/-- **The parentheses of the tokens match exactly if those of the text do.** -/
theorem balanced_of_tokenize_iff {cs : List Char} {ts : List Token}
    (h : tokenize (trim cs) = .ok ts) : balanced 0 ts = true ↔ Matched cs := by
  obtain ⟨ls, hls, rfl⟩ := map_eq_ok_iff.mp h
  rw [← matched_trim_iff]
  exact Lexeme.balanced_toTokens hls (by simp)

end Calculator
