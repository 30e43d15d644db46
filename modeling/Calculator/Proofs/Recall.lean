/-
# The memory typed into the entry

The recall key types the text of the memory, and the entry is read again with it. At
the end of an entry that has tokens an opening parenthesis is always a boundary, so a
negative memory, which comes in parentheses, is an operand of its own: behind a value
it is multiplied (`tokenize_append_group`). The numeral of any other memory goes on
where the entry waits for an operand (`LaidOut.before_of_awaitsOperand`). In an empty
entry the memory is the whole calculation, and the equals key shows it rounded.

Key definition: `AwaitsOperand`.
Key theorems: `LaidOut.before_of_awaitsOperand`, `tokenize_append_group`,
`tokenize_append_numeral`, `Session.recall_types_an_operand`.
-/
import Calculator.Proofs.Boundary
import Calculator.Proofs.Comparison
import Calculator.Proofs.Retyping

namespace Calculator

/-! ### A place for an operand -/

/-- The text is blank, or the last character that is not blank is an operator or an
opening parenthesis. -/
def AwaitsOperand (cs : List Char) : Prop :=
  ∀ c ∈ (trimEnd cs).getLast?, c = '(' ∨ (Operator.ofChar? c).isSome = true

instance (cs : List Char) : Decidable (AwaitsOperand cs) :=
  decidable_of_iff
    ((trimEnd cs).getLast?.all fun c => decide (c = '(' ∨ (Operator.ofChar? c).isSome = true))
    (by simp only [AwaitsOperand, Option.all_eq_true, decide_eq_true_eq, Option.mem_def])

/-- Such a character is a lexeme by itself, after which no value ends. -/
theorem exists_sign_of_opening {c : Char} (h : c = '(' ∨ (Operator.ofChar? c).isSome = true) :
    endsLexeme c = true ∧ ∃ l, Lexeme.ofSign? c = some l ∧ l.toLeft = .noValue := by
  rcases h with rfl | hop
  · exact ⟨by decide, _, rfl, rfl⟩
  · obtain ⟨o, ho⟩ := Option.isSome_iff_exists.mp hop
    unfold Operator.ofChar? at ho
    split at ho <;> cases ho <;> exact ⟨by decide, _, rfl, rfl⟩

theorem AwaitsOperand.cases {cs : List Char} (h : AwaitsOperand cs) :
    (∀ c ∈ cs, isBlank c = true) ∨ ∃ before c gap, cs = before ++ c :: gap ∧
      (c = '(' ∨ (Operator.ofChar? c).isSome = true) ∧ ∀ b ∈ gap, isBlank b = true := by
  have hsplit := trimEnd_append_blank cs
  have hgap : ∀ b ∈ (cs.reverse.takeWhile isBlank).reverse, isBlank b = true := fun b hb =>
    List.mem_takeWhile_imp (List.mem_reverse.mp hb)
  generalize (cs.reverse.takeWhile isBlank).reverse = gap at hsplit hgap
  rcases List.eq_nil_or_concat (trimEnd cs) with hnil | ⟨before, c, hlast⟩
  · rw [hnil, List.nil_append] at hsplit
    exact .inl (hsplit ▸ hgap)
  · refine .inr ⟨before, c, gap, ?_, h c (by simp [hlast]), hgap⟩
    rw [← hsplit, hlast]
    simp

/-- **Where an operand is awaited, a numeral may follow.** -/
theorem LaidOut.before_of_awaitsOperand {cs : List Char} {ls : List Lexeme} (h : LaidOut cs ls)
    (hcs : AwaitsOperand cs) (after : List Char) :
    LaidOutBefore after cs ls ∧ Lexeme.leftAfter .noValue ls = .noValue := by
  rcases hcs.cases with hblank | ⟨before, c, gap, rfl, hc, hgap⟩
  · obtain rfl := h.unique (.blank hblank)
    exact ⟨.blank hblank, rfl⟩
  · -- The sign ends every lexeme, so what stands before it is laid out by itself.
    obtain ⟨hends, l, hl, hleft⟩ := exists_sign_of_opening hc
    obtain ⟨ms, hms⟩ := h.exists_of_apart ((apart_cons ..).mpr hends)
    have hbefore : LaidOutBefore ((c :: gap) ++ after) before ms :=
      hms.before (Numeral.stops_of_apart ((apart_cons ..).mpr hends))
    have hsign : LaidOutBefore after ([c] ++ gap) [l] := .cons_written (.sign hl) (.blank hgap)
    have hall := hbefore.append hsign
    obtain rfl := h.unique hall.laidOut
    exact ⟨hall, by rw [Lexeme.leftAfter_concat, hleft]⟩

/-! ### Operands at the end of a text -/

section Append

variable {cs : List Char} {ts : List Token}

/-- **A negative number in parentheses** is an operand at the end of any text. -/
theorem tokenize_append_group (h : tokenize cs = .ok ts) (n : Numeral) :
    tokenize (cs ++ inGroup ('-' :: n.text)) = .ok (ts ++
      ((if ts.getLast?.any Token.isValue = true then [Token.op .times] else []) ++
        [Token.lpar, .op .minus, .num n.toNumber, .rpar])) := by
  obtain ⟨ls, hts, hls⟩ := exists_laidOutBefore_of_tokenize h
  have hgroup : LaidOut (inGroup ('-' :: n.text))
      [.token .lpar, .token (.op .minus), .token (.num n.toNumber), .token .rpar] := by
    have hminus : Lexeme.ofSign? '-' = some (.token (.op .minus)) := rfl
    exact Lexeme.cut_eq_ok_iff.mp (Formula.cuts_group (n.cuts_text.cons hminus) 0)
  have hbefore : LaidOutBefore (inGroup ('-' :: n.text)) cs ls := hls _ (by simp [inGroup])
  refine hbefore.tokenize_append_iff.mpr ⟨_, hgroup, ?_⟩
  simp only [← hts, ← Lexeme.leftAfter_noValue_eq_value_iff]
  -- What stands before the parenthesis decides about a multiplication only.
  cases Lexeme.leftAfter .noValue ls <;> rfl

/-- **A numeral** is an operand at the end of a text that awaits one. -/
theorem tokenize_append_numeral (h : tokenize cs = .ok ts) (hcs : AwaitsOperand cs) (n : Numeral) :
    tokenize (cs ++ n.text) = .ok (ts ++ [Token.num n.toNumber]) := by
  obtain ⟨ls, hls, rfl⟩ := tokenize_eq_ok_iff.mp h
  obtain ⟨hbefore, hleft⟩ := hls.before_of_awaitsOperand hcs n.text
  refine hbefore.tokenize_append_iff.mpr ⟨_, .of_numeral n, ?_⟩
  rw [hleft]
  rfl

end Append

/-! ### The text of the memory -/

namespace Number

variable {v : Number}

theorem toNumber_magnitude_of_lt_zero (h : v.IsFinite) (hlt : v < 0) :
    v.magnitude.toNumber = v.abs := by
  have hv := ofRank_rank (not_isNaN_of_isFinite h)
  rw [isNegative_of_lt_zero h hlt] at hv
  rw [abs_of_lt_zero h hlt, toNumber_magnitude]
  calc ofRank false (rank v) = -ofRank true (rank v) := (neg_ofRank true (rank v)).symm
    _ = -v := congrArg Neg.neg hv

end Number

namespace Session

variable {s : Session}

theorem entry_recall (s : Session) : (s.press .memoryRecall).entry = s.entry ++ s.memoryText := rfl

theorem memoryText_of_not_lt_zero (hlt : ¬ s.memory < 0) : s.memoryText = s.memory.text :=
  if_neg hlt

theorem toList_memoryText_of_lt_zero (hm : s.memory.IsFinite) (hlt : s.memory < 0) :
    s.memoryText.toList = inGroup ('-' :: s.memory.magnitude.text) := by
  have htext := Number.toList_text hm
  rw [Number.isNegative_of_lt_zero hm hlt, if_pos rfl] at htext
  have hopen : "(".toList = ['('] := rfl
  have hclose : ")".toList = [')'] := rfl
  rw [memoryText, if_pos hlt, String.toList_append, String.toList_append, htext, hopen, hclose,
    List.singleton_append, List.cons_append, inGroup]

/-- **A recalled memory below zero** is an operand of its own. -/
theorem tokenize_recall_of_lt_zero {ts : List Token} (hm : s.memory.IsFinite)
    (hlt : s.memory < 0) (h : tokenize s.entry.toList = .ok ts) :
    tokenize (s.press .memoryRecall).entry.toList = .ok (ts ++
      ((if ts.getLast?.any Token.isValue = true then [Token.op .times] else []) ++
        [Token.lpar, .op .minus, .num s.memory.abs, .rpar])) := by
  rw [entry_recall, String.toList_append, toList_memoryText_of_lt_zero hm hlt,
    ← Number.toNumber_magnitude_of_lt_zero hm hlt]
  exact tokenize_append_group h _

/-- Any other memory but -0 is the operand that the entry awaits. -/
theorem tokenize_recall_of_zero_le {ts : List Token} (hm : s.memory.IsFinite)
    (hle : 0 ≤ s.memory) (hne : s.memory ≠ -0.0) (h : tokenize s.entry.toList = .ok ts)
    (hentry : AwaitsOperand s.entry.toList) :
    tokenize (s.press .memoryRecall).entry.toList = .ok (ts ++ [Token.num s.memory]) := by
  have hsign : s.memory.isNegative = false := Number.isNegative_of_zero_le hm hle hne
  have hlt : ¬ s.memory < 0 := fun hlt => by
    cases hsign.symm.trans (Number.isNegative_of_lt_zero hm hlt)
  have hmemory := Number.eq_magnitude hm
  have htext := Number.toList_text hm
  rw [hsign, if_neg Bool.false_ne_true] at hmemory htext
  have htokens := tokenize_append_numeral h hentry s.memory.magnitude
  rw [← hmemory, ← htext] at htokens
  rw [entry_recall, String.toList_append, memoryText_of_not_lt_zero hlt]
  exact htokens

/-- **In an empty entry** the recalled memory is the whole calculation. -/
theorem calculateEntry_recall (hm : s.memory.IsFinite) (hentry : s.entry = "") :
    (s.press .memoryRecall).calculateEntry.1 = .ok s.memory.rounded := by
  rw [calculateEntry_fst_eq_ok_iff]
  by_cases hlt : s.memory < 0
  · have hsign := Number.isNegative_of_lt_zero hm hlt
    have hnil : tokenize s.entry.toList = .ok [] := by
      rw [hentry]
      rfl
    have hrpn : toRpn [.lpar, .op .minus, .num s.memory.abs, .rpar] =
        .ok (Expr.ofNumber s.memory).rpn := by
      rw [Expr.ofNumber, if_pos hsign, Number.toNumber_magnitude_of_lt_zero hm hlt]
      rfl
    exact calculate_of_ofNumber _ hm (tokenize_recall_of_lt_zero hm hlt hnil) hrpn
  · rw [entry_recall, hentry, String.empty_append, memoryText_of_not_lt_zero hlt]
    exact calculate_text _ hm

/-- **The memory is recalled as an operand.** Behind an entry that has tokens, a
memory below zero is typed as its opposite with a minus sign before it, in parentheses,
and multiplied with the value that the entry ends with, if any; a memory that is at
least zero and not -0 is one more token, if the entry is blank or ends with an operator
or an opening parenthesis. In an empty entry any finite memory is a calculation, and
the equals key displays it, rounded. -/
theorem recall_types_an_operand (hm : s.memory.IsFinite) :
    (∀ ts, tokenize s.entry.toList = .ok ts → s.memory < 0 →
        tokenize (s.press .memoryRecall).entry.toList = .ok (ts ++
          ((if ts.getLast?.any Token.isValue = true then [Token.op .times] else []) ++
            [Token.lpar, .op .minus, .num s.memory.abs, .rpar]))) ∧
      (∀ ts, tokenize s.entry.toList = .ok ts → 0 ≤ s.memory → s.memory ≠ -0.0 →
        AwaitsOperand s.entry.toList →
        tokenize (s.press .memoryRecall).entry.toList = .ok (ts ++ [Token.num s.memory])) ∧
      (s.entry = "" →
        (s.press .memoryRecall).calculateEntry.1 = .ok s.memory.rounded ∧
          ((s.press .memoryRecall).press .equals).Settled s.memory.rounded) := by
  refine ⟨fun ts h hlt => tokenize_recall_of_lt_zero hm hlt h,
    fun ts h hle hne hentry => tokenize_recall_of_zero_le hm hle hne h hentry, fun hentry => ?_⟩
  have hvalue := calculateEntry_recall hm hentry
  exact ⟨hvalue, settled_press_equals hvalue⟩

/-- A negative memory behind a root sign, and behind a numeral that ends with a point;
a memory of twenty-two digits behind an operator and a blank; and -0 in an empty entry. -/
theorem recall_types_an_operand_after_root :
    let recalled (memory : Number) (entry : String) : Session :=
      Session.press { entry := entry, memory := memory } .memoryRecall
    tokenize (recalled (-6) "2√").entry.toList =
        .ok [.num 2, .op .times, .func .sqrt, .lpar, .op .minus, .num 6, .rpar] ∧
      tokenize (recalled (-6) "2.").entry.toList =
        .ok [.num 2, .op .times, .lpar, .op .minus, .num 6, .rpar] ∧
      tokenize (recalled 1e21 "x* ").entry.toList = .ok [.var .x, .op .times, .num 1e21] ∧
      ((recalled (-0.0) "").press .equals).Settled 0 := by
  intro recalled
  have hroot : tokenize "2√".toList = .ok [.num 2, .op .times, .func .sqrt] := by decide +kernel
  have hpoint : tokenize "2.".toList = .ok [.num 2] := by decide +kernel
  have hstar : tokenize "x* ".toList = .ok [.var .x, .op .times] := by decide +kernel
  have hawaits : AwaitsOperand "x* ".toList := by decide
  have hnegative : Number.IsFinite (-6) ∧ (-6 : Number) < 0 ∧ (-6 : Number).abs = 6 := by
    decide +kernel
  have hlarge : Number.IsFinite 1e21 ∧ 0 ≤ (1e21 : Number) ∧ (1e21 : Number) ≠ -0.0 := by
    decide +kernel
  have hzero : Number.IsFinite (-0.0) ∧ Number.rounded (-0.0) = 0 := by decide +kernel
  obtain ⟨hfinite, hlt, habs⟩ := hnegative
  have hbehindRoot := (@recall_types_an_operand { entry := "2√", memory := -6 } hfinite).1 _ hroot hlt
  have hbehindPoint := (@recall_types_an_operand { entry := "2.", memory := -6 } hfinite).1 _ hpoint hlt
  have hbehindStar := (@recall_types_an_operand { entry := "x* ", memory := 1e21 } hlarge.1).2.1 _
    hstar hlarge.2.1 hlarge.2.2 hawaits
  have hempty := (@recall_types_an_operand { memory := -0.0 } hzero.1).2.2 rfl
  rw [habs] at hbehindRoot hbehindPoint
  rw [hzero.2] at hempty
  exact ⟨hbehindRoot, hbehindPoint, hbehindStar, hempty.2⟩

end Session
end Calculator
