/-
# The kind of a failure

The stages of a calculation fail in a fixed order. A text that is not cut into
lexemes is a lexical error. Of the rest, one whose parentheses do not match is a
grammatical error, whatever else is in it: the arrangement counts the open
parentheses on its stack, and nothing else can stop it (`toRpn_eq_error_iff`). All
others have a value or an error of the evaluation. No parenthesis goes out of the
arrangement, so the machine never meets a token that has no place there
(`isParenthesis_of_toRpn`).

Key theorems: `toRpn_eq_error_iff`, `isParenthesis_of_toRpn`, `evalRpn_ne_unexpectedToken`,
`failure_kind`.
-/
import Calculator.Proofs.Calculation
import Calculator.Proofs.Matching

namespace Calculator

/-! ### The lexemes -/

/-- Cutting a text fails at a character that begins no lexeme, and in no other
way. -/
theorem Lexeme.kind_of_cutFrom_error : ∀ {cs : List Char} {skip position : Nat} {e : CalcError},
    cutFrom skip position cs = .error e → e.kind = .lexical
  | [], _, _, _, h => by
    rw [cutFrom] at h
    cases h
  | _ :: _, _ + 1, _, _, h => by
    rw [cutFrom] at h
    exact kind_of_cutFrom_error h
  | c :: cs, 0, position, e, h => by
    rw [cutFrom] at h
    by_cases hblank : isBlank c = true
    · rw [if_pos hblank] at h
      exact kind_of_cutFrom_error h
    · rw [if_neg hblank] at h
      cases hfirst : first? (c :: cs) with
      | none =>
        rw [hfirst] at h
        cases h
        rfl
      | some found =>
        rw [hfirst] at h
        exact kind_of_cutFrom_error (map_eq_error_iff.mp h)

theorem kind_of_tokenize_error {cs : List Char} {e : CalcError} (h : tokenize cs = .error e) :
    e.kind = .lexical := Lexeme.kind_of_cutFrom_error (map_eq_error_iff.mp h)

/-! ### The arrangement -/

/-- **Tokens are arranged just if their parentheses match.** -/
theorem toRpn_eq_error_iff {ts : List Token} {e : CalcError} :
    toRpn ts = .error e ↔ e = .unmatchedParentheses ∧ balanced 0 ts = false := by
  constructor
  · intro h
    rcases Waiting.arrange_cases ts {} with ⟨-, out, hout⟩ | ⟨hbalanced, herror⟩
    · cases hout.symm.trans h
    · exact ⟨Except.error.inj (h.symm.trans herror), hbalanced⟩
  · rintro ⟨rfl, hbalanced⟩
    rcases Waiting.arrange_cases ts {} with ⟨hbalanced', -⟩ | ⟨-, herror⟩
    · cases hbalanced.symm.trans hbalanced'
    · exact herror

theorem isParenthesis_of_mem_symbols : ∀ {ts : List Token} {afterValue : Bool} {t : Token},
    t ∈ symbols afterValue ts → t.isParenthesis = false
  | [], _, _, h => by cases h
  | s :: ts, afterValue, t, h => by
    rcases List.mem_append.mp h with h | h
    · unfold Token.emitted at h
      split at h
      · cases h
      · cases h
      · split at h
        · rw [List.mem_singleton.mp h]
          rfl
        · cases h
      · split at h <;> rw [List.mem_singleton.mp h] <;> rfl
      · rw [List.mem_singleton.mp h]
        cases s <;> first | rfl | contradiction
    · exact isParenthesis_of_mem_symbols h

/-- No parenthesis goes out. -/
theorem isParenthesis_of_toRpn {ts out : List Token} (h : toRpn ts = .ok out) :
    ∀ t ∈ out, t.isParenthesis = false := fun t ht => by
  have hperm : out.Perm (symbols false ts) := Waiting.arrange_perm h
  exact isParenthesis_of_mem_symbols (hperm.mem_iff.mp ht)

/-! ### The machine -/

namespace Machine

variable {ctx : Context}

/-- A token with its operands fails by its value, unless it is a parenthesis. -/
theorem isMalformed_of_step {stack : List Number} {t : Token} {e : EvalError}
    (ht : t.isParenthesis = false) (hstack : t.arity ≤ stack.length)
    (h : step ctx stack t = .error e) : e.isMalformed = false := by
  cases t with
  | num v =>
    rw [step_num] at h
    exact isMalformed_of_checked (map_eq_error_iff.mp h)
  | const c =>
    rw [step_const] at h
    exact isMalformed_of_checked (map_eq_error_iff.mp h)
  | var v =>
    rw [step_var] at h
    exact isMalformed_of_checked (map_eq_error_iff.mp h)
  | lpar | rpar => cases ht
  | func f =>
    obtain ⟨a, below, rfl⟩ := List.exists_cons_of_length_pos hstack
    rw [step_func] at h
    rcases bind_eq_error_iff.mp (map_eq_error_iff.mp h) with h | ⟨v, -, h⟩
    · exact Func.isMalformed_of_apply h
    · exact isMalformed_of_checked h
  | op o =>
    by_cases ho : o = .negate
    · subst ho
      obtain ⟨a, below, rfl⟩ := List.exists_cons_of_length_pos hstack
      rw [step_negate] at h
      exact isMalformed_of_checked (map_eq_error_iff.mp h)
    · rw [Expr.arity_op ho] at hstack
      match stack, hstack with
      | b :: a :: below, _ =>
        rw [step_binary ctx below ho] at h
        rcases bind_eq_error_iff.mp (map_eq_error_iff.mp h) with h | ⟨v, -, h⟩
        · exact Operator.isMalformed_of_apply ho h
        · exact isMalformed_of_checked h

/-- Without parentheses no token is out of place. -/
theorem run_ne_unexpectedToken : ∀ {ts : List Token} {stack : List Number},
    (∀ t ∈ ts, t.isParenthesis = false) → ∀ u, run ctx stack ts ≠ .error (.unexpectedToken u)
  | [], _, _, _, h => by cases h
  | t :: ts, stack, hts, u, h => by
    obtain ⟨ht, hts⟩ := List.forall_mem_cons.mp hts
    unfold run at h
    split at h
    · rename_i e hstep
      cases h
      by_cases hstack : t.arity ≤ stack.length
      · cases isMalformed_of_step ht hstack hstep
      · rw [step_of_length_lt (Nat.not_le.mp hstack)] at hstep
        cases hstep
    · exact run_ne_unexpectedToken hts u h

end Machine

theorem evalRpn_ne_unexpectedToken (ctx : Context) {ts : List Token}
    (hts : ∀ t ∈ ts, t.isParenthesis = false) (u : Token) :
    evalRpn ctx ts ≠ .error (.unexpectedToken u) := by
  intro h
  unfold evalRpn at h
  split at h
  · rename_i e hrun
    cases h
    exact Machine.run_ne_unexpectedToken hts u hrun
  · unfold Machine.result at h
    split at h
    · cases Machine.isMalformed_of_shown h
    · cases h

/-! ### The calculation -/

section Calculation
variable (ctx : Context) {s : String} {ts : List Token}

theorem calculate_of_tokenize_error {e : CalcError} (h : tokenize (trim s.toList) = .error e) :
    calculate ctx s = .error e := by
  rw [calculate, h]
  rfl

theorem calculate_of_not_matched (htokens : tokenize (trim s.toList) = .ok ts)
    (h : ¬ Matched s.toList) : calculate ctx s = .error .unmatchedParentheses := by
  have hbalanced : balanced 0 ts = false := by
    rw [← balanced_of_tokenize_iff htokens] at h
    exact Bool.eq_false_iff.mpr h
  rw [calculate_of_tokens htokens, toRpn_eq_error_iff.mpr ⟨rfl, hbalanced⟩]
  rfl

/-- With matched parentheses the evaluation is reached. -/
theorem calculate_of_matched (htokens : tokenize (trim s.toList) = .ok ts)
    (h : Matched s.toList) : (∃ v w, calculate ctx s = .ok (v, w)) ∨
      ∃ e, calculate ctx s = .error (.evaluation e) ∧ ∀ t, e ≠ .unexpectedToken t := by
  have hbalanced := (balanced_of_tokenize_iff htokens).mpr h
  cases hrpn : toRpn ts with
  | error e =>
    rw [(toRpn_eq_error_iff.mp hrpn).2] at hbalanced
    cases hbalanced
  | ok rpn =>
    have hcalculate : calculate ctx s = ((evalRpn ctx rpn).map fun v =>
        (v, ⟨Token.render ts, Token.render rpn⟩)).mapError .evaluation := by
      rw [calculate_of_tokens htokens, hrpn]
      rfl
    rw [hcalculate]
    cases hvalue : evalRpn ctx rpn with
    | ok v => exact .inl ⟨v, _, rfl⟩
    | error e =>
      refine .inr ⟨e, rfl, ?_⟩
      rintro t rfl
      exact evalRpn_ne_unexpectedToken ctx (isParenthesis_of_toRpn hrpn) t hvalue

end Calculation

/-- **The text alone decides the kind of a failure.** In every mode and with any
variables, a calculation fails lexically exactly if the trimmed text is not cut
into tokens. Where it is, the calculation fails grammatically exactly if the
parentheses of the text do not match, and else has a value or fails in the
evaluation; the parentheses of the tokens match if those of the text do, although
some may have been put in. No token is ever out of place in the evaluation. -/
theorem failure_kind (ctx : Context) (s : String) :
    ((∃ e, calculate ctx s = .error e ∧ e.kind = .lexical) ↔
        ∃ e, tokenize (trim s.toList) = .error e) ∧
      (∀ ts, tokenize (trim s.toList) = .ok ts →
        (calculate ctx s = .error .unmatchedParentheses ↔ ¬ Matched s.toList) ∧
          (Matched s.toList → (∃ v w, calculate ctx s = .ok (v, w)) ∨
            ∃ e, calculate ctx s = .error (.evaluation e)) ∧
          (balanced 0 ts = true ↔ Matched s.toList)) ∧
      ∀ t, calculate ctx s ≠ .error (.evaluation (.unexpectedToken t)) := by
  cases htokens : tokenize (trim s.toList) with
  | error e =>
    have hcalculate := calculate_of_tokenize_error ctx htokens
    have hkind := kind_of_tokenize_error htokens
    refine ⟨iff_of_true ⟨e, hcalculate, hkind⟩ ⟨e, rfl⟩, nofun, fun t h => ?_⟩
    rw [hcalculate] at h
    cases h
    cases hkind
  | ok ts =>
    have hbalanced := balanced_of_tokenize_iff htokens
    by_cases hmatched : Matched s.toList
    · rcases calculate_of_matched ctx htokens hmatched with
        ⟨v, w, hvalue⟩ | ⟨e, herror, hplaced⟩
      · simp [hvalue, hbalanced, hmatched]
      · simp [herror, hbalanced, hmatched, hplaced, CalcError.kind]
    · have hcalculate := calculate_of_not_matched ctx htokens hmatched
      have hopen : balanced 0 ts = false := by simpa [hmatched] using hbalanced
      simp [hcalculate, hopen, hmatched, CalcError.kind]

/-- The parentheses put in around the 4 do not close the one that is missing. -/
theorem failure_kind_of_unopened_group :
    tokenize (trim "√4)".toList) = .ok [.func .sqrt, .lpar, .num 4, .rpar, .rpar] ∧
      ¬ Matched "√4)".toList ∧ calculate {} "√4)" = .error .unmatchedParentheses := by
  have htokens : tokenize (trim "√4)".toList) =
      .ok [.func .sqrt, .lpar, .num 4, .rpar, .rpar] := by decide +kernel
  obtain ⟨herror, -, hbalanced⟩ := (failure_kind {} "√4)").2.1 _ htokens
  have hmatched : ¬ Matched "√4)".toList := by
    rw [← hbalanced]
    decide
  exact ⟨htokens, hmatched, herror.mpr hmatched⟩

end Calculator
