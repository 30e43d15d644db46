/-
# Which texts have a value

The stages of a calculation fail one by one, so a text has a value just if it is
cut into tokens whose arrangement is the list of a tree that has one
(`calculate_eq_ok_iff`). Nothing on the way checks the shape of an expression.
What is no expression is refused because its values do not add up, unless its
faults cancel: `2 3 +` has an operand too many before its end and lacks one at
the end, and is 5.

Key theorems: `evaluate_of_toRpn`, `calculate_eq_ok_iff`, `calculate_of_not_derivable`.
-/
import Mathlib.Control.Monad.Basic
import Calculator.Calculate
import Calculator.Proofs.Conservation
import Calculator.Proofs.Evaluation
import Calculator.Proofs.Lexing

namespace Calculator

variable {ctx : Context} {s : String} {ts : List Token}

/-! ### The stages -/

theorem calculate_of_tokens (htokens : tokenize (trim s.toList) = .ok ts) :
    calculate ctx s = toRpn ts >>= fun rpn =>
      ((evalRpn ctx rpn).map fun v => (v, ⟨Token.render ts, Token.render rpn⟩)).mapError
        .evaluation := by
  unfold calculate
  rw [htokens]
  change (toRpn ts >>= _) = _
  refine congrArg (toRpn ts >>= ·) (funext fun rpn => ?_)
  cases evalRpn ctx rpn <;> rfl

theorem evaluate_of_toRpn {rpn : List Token} (htokens : tokenize (trim s.toList) = .ok ts)
    (hrpn : toRpn ts = .ok rpn) :
    evaluate ctx s = (evalRpn ctx rpn).mapError .evaluation := by
  rw [evaluate, calculate_of_tokens htokens, hrpn]
  change Except.map _ (Except.mapError _ (Except.map _ (evalRpn ctx rpn))) = _
  cases evalRpn ctx rpn <;> rfl

/-- **A value is a tree's value.** A text has a value just if it is cut into
tokens whose arrangement is the list of a tree that has this value. -/
theorem calculate_eq_ok_iff {v : Number} {w : Working} :
    calculate ctx s = .ok (v, w) ↔ ∃ (ts : List Token) (t : Expr),
      tokenize (trim s.toList) = .ok ts ∧ toRpn ts = .ok t.rpn ∧ t.result ctx = .ok v ∧
        w = ⟨Token.render ts, Token.render t.rpn⟩ := by
  constructor
  · intro h
    cases htokens : tokenize (trim s.toList) with
    | error e =>
      rw [calculate, htokens] at h
      cases h
    | ok ts =>
      rw [calculate_of_tokens htokens] at h
      obtain ⟨rpn, hrpn, hmapped⟩ := bind_eq_ok_iff.mp h
      obtain ⟨v', hvalue, hpair⟩ := map_eq_ok_iff.mp (mapError_eq_ok_iff.mp hmapped)
      obtain ⟨t, rfl⟩ := exists_rpn_of_evalRpn_eq_ok hvalue
      rw [Expr.evalRpn_rpn] at hvalue
      cases hpair
      exact ⟨ts, t, rfl, hrpn, hvalue, rfl⟩
  · rintro ⟨ts, t, htokens, hrpn, hvalue, rfl⟩
    rw [calculate_of_tokens htokens]
    refine bind_eq_ok_iff.mpr ⟨t.rpn, hrpn, mapError_eq_ok_iff.mpr ?_⟩
    rw [Expr.evalRpn_rpn]
    exact map_eq_ok_iff.mpr ⟨v, hvalue, rfl⟩

/-! ### What is no expression -/

/-- **Malformed text is refused, unless its faults cancel.** A text that is no
expression of the infix language has no value, whatever the mode and the
variables, if no operand stands right after another value, or not as many do as
are missing elsewhere, or its arrangement is no tree's list. Otherwise it has the
value of that tree. -/
theorem calculate_of_not_derivable (ctx : Context) (htokens : tokenize s.toList = .ok ts)
    (h : ¬ Derivable ts) :
    ((juxtapositions false ts = 0 ∨ juxtapositions false ts ≠ omissions false ts ∨
        ∀ t : Expr, toRpn ts ≠ .ok t.rpn) → ∃ e, calculate ctx s = .error e) ∧
      ∀ t : Expr, toRpn ts = .ok t.rpn →
        evaluate ctx s = (t.result ctx).mapError .evaluation := by
  have htrim := tokenize_trim htokens
  have hneg := negate_not_mem_of_tokenize htokens
  refine ⟨fun hfault => ?_, fun t hrpn => ?_⟩
  · cases hvalue : calculate ctx s with
    | error e => exact ⟨e, rfl⟩
    | ok pair =>
      obtain ⟨ts', t, htokens', hrpn, -⟩ := calculate_eq_ok_iff.mp hvalue
      obtain rfl : ts = ts' := Except.ok.inj (htrim.symm.trans htokens')
      rcases hfault with hzero | hcount | htree
      · have := juxtapositions_pos_of_toRpn hneg hrpn h
        omega
      · exact absurd (juxtapositions_eq_omissions_of_toRpn hneg hrpn) hcount
      · exact absurd hrpn (htree t)
  · rw [evaluate_of_toRpn htrim hrpn, Expr.evalRpn_rpn]

/-- Two numbers side by side have no value; with a sum after them their faults
cancel. -/
theorem calculate_two_numbers_and_postfix_sum :
    (∃ e, calculate {} "2 3" = .error e) ∧
      ∃ t : Expr, evaluate {} "2 3 +" = (t.result {}).mapError .evaluation := by
  have htwo : tokenize "2 3".toList = .ok [.num 2, .num 3] := by decide +kernel
  have hsum : tokenize "2 3 +".toList = .ok [.num 2, .num 3, .op .plus] := by decide +kernel
  have hrpn : toRpn [.num 2, .num 3, .op .plus] =
      .ok (Expr.binary .plus (by decide) (.num 2) (.num 3)).rpn := by decide +kernel
  refine ⟨(calculate_of_not_derivable {} htwo (by decide +kernel)).1 (.inr (.inl ?_)), _,
    (calculate_of_not_derivable {} hsum (by decide +kernel)).2 _ hrpn⟩
  decide +kernel

/-- Faults that cancel: an operator after its operands, an empty group before a
value, an operator before its operands. -/
theorem calculate_malformed_eq_ok :
    (∃ ts, tokenize "2 3 +".toList = .ok ts ∧ ¬ Derivable ts ∧
      calculate {} "2 3 +" = .ok (5, ⟨"2 3 +", "2 3 +"⟩)) ∧
    (∃ ts, tokenize "()2".toList = .ok ts ∧ ¬ Derivable ts ∧
      calculate {} "()2" = .ok (2, ⟨"( ) 2", "2"⟩)) ∧
    ∃ ts, tokenize "* 2 3".toList = .ok ts ∧ ¬ Derivable ts ∧
      calculate {} "* 2 3" = .ok (6, ⟨"* 2 3", "2 3 *"⟩) := by
  refine ⟨⟨[.num 2, .num 3, .op .plus], ?_⟩, ⟨[.lpar, .rpar, .num 2], ?_⟩,
    ⟨[.op .times, .num 2, .num 3], ?_⟩⟩ <;> decide +kernel

end Calculator
