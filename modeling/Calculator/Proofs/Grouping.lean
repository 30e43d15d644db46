/-
# A group is a value

What is arranged by itself is arranged in the same way above an open parenthesis,
since no token of it reaches down to that parenthesis (`Waiting.read_above`). So a
group sends out its own arrangement, wherever it stands, and leaves the stack as a
number does, unless a function waits right below it and goes out with it
(`Waiting.sends_group`, `Waiting.sends_call`). The machine then has the value of the
group on top of its stack, as it has that of a number. So a group may be replaced
by its value in any list, an expression or not (`evaluateTokens_group`).

Key definitions: `evaluateTokens`, `Waiting.above`, `OperandPlace`.
Key theorems: `Waiting.step_above`, `Waiting.read_above`, `Waiting.sends_group`,
`Waiting.sends_call`, `evaluateTokens_congr`, `evaluateTokens_group`.
-/
import Calculator.Proofs.Formula
import Calculator.Proofs.Operands

namespace Calculator

/-- The value of a list of tokens in the order of an expression. -/
def evaluateTokens (ctx : Context) (ts : List Token) : Except CalcError Number :=
  toRpn ts >>= fun rpn => (evalRpn ctx rpn).mapError .evaluation

theorem evaluate_of_tokens {ctx : Context} {s : String} {ts : List Token}
    (h : tokenize (trim s.toList) = .ok ts) : evaluate ctx s = evaluateTokens ctx ts := by
  rw [evaluateTokens]
  cases hrpn : toRpn ts with
  | ok rpn => exact evaluate_of_toRpn h hrpn
  | error e =>
    rw [evaluate, calculate_of_tokens h, hrpn]
    rfl

namespace Waiting

/-! ### Above an open parenthesis -/

/-- The state with an open parenthesis below its stack, and `below` under that. -/
def above (w : Waiting) (below : List Pending) : Waiting :=
  ⟨w.stack ++ .group :: below, w.afterValue⟩

/-- **A step does not see what is below an open parenthesis.** A closing one that
finds its partner looks no further down than to what stands right below it. -/
theorem step_above {w next : Waiting} {t : Token} {out : List Token}
    (h : w.step t = .ok (out, next)) (below : List Pending) :
    (w.above below).step t = .ok (out, next.above below) := by
  rw [step_eq_ok_iff] at h ⊢
  cases h with
  | atom ht => exact .atom ht
  | func f => exact .func f
  | opening => exact .opening
  | @closing held outside _ hheld houtside =>
    rw [above, List.append_assoc]
    refine .closing hheld fun f => ?_
    -- Right below the partner stands what stood there before, or else the parenthesis.
    cases outside with
    | nil => simp
    | cons p outside => exact houtside f
  | call hheld f =>
    rw [above, List.append_assoc]
    exact .call hheld f
  | prefixPlus => exact .prefixPlus
  | prefixMinus => exact .prefixMinus
  | @operator stack afterValue o ho =>
    have hgroup : ∀ p ∈ (Pending.group :: below).head?, p.precedes o = false := by
      simp [Pending.precedes]
    have habove : Move (above ⟨stack, afterValue⟩ below) (.op o) _ _ := .operator ho
    rw [takeWhile_append_of_head hgroup, dropWhile_append_of_head hgroup] at habove
    exact habove

theorem read_above (below : List Pending) : ∀ {ts : List Token} {w last : Waiting}
    {out : List Token}, w.read ts = .ok (out, last) →
    (w.above below).read ts = .ok (out, last.above below)
  | [], _, _, _, h => by
    cases h
    rfl
  | t :: ts, w, last, out, h => by
    obtain ⟨sent, next, later, hstep, hread, hout⟩ := read_cons_eq_ok_iff.mp h
    exact read_cons_eq_ok_iff.mpr
      ⟨sent, _, later, step_above hstep below, read_above below hread, hout⟩

/-! ### Groups -/

theorem Sends.of_read {w next : Waiting} {ts out : List Token} (h : w.read ts = .ok (out, next)) :
    w.Sends ts out next := fun rest => by
  rw [arrange_append, h]
  rfl

/-- What is arranged has been read, with no open parenthesis left. -/
theorem exists_read_of_toRpn {ts out : List Token} (h : toRpn ts = .ok out) :
    ∃ sent last, read {} ts = .ok (sent, last) ∧ .group ∉ last.stack ∧
      sent ++ released last.stack = out := by
  rw [toRpn, ← List.append_nil ts, arrange_append] at h
  obtain ⟨⟨sent, last⟩, hread, hfinish⟩ := bind_eq_ok_iff.mp h
  obtain ⟨later, hlater, rfl⟩ := map_eq_ok_iff.mp hfinish
  rw [arrange_nil, finish] at hlater
  split at hlater
  · cases hlater
  · rename_i hclosed
    cases hlater
    exact ⟨sent, last, hread, hclosed, rfl⟩

/-- What is read with no open parenthesis left is arranged. -/
theorem toRpn_of_read {ts sent : List Token} {last : Waiting} (hread : read {} ts = .ok (sent, last))
    (hclosed : .group ∉ last.stack) : toRpn ts = .ok (sent ++ released last.stack) := by
  have hend := Sends.of_read hread []
  rw [List.append_nil, arrange_nil, finish, if_neg hclosed] at hend
  exact hend

/-- A group is arranged by itself. -/
theorem sends_group {ts out : List Token} (h : toRpn ts = .ok out) {w : Waiting}
    (hfunc : ∀ f, w.stack.head? ≠ some (.func f)) :
    w.Sends (Token.inGroup ts) out ⟨w.stack, true⟩ := by
  obtain ⟨sent, last, hread, hclosed, rfl⟩ := exists_read_of_toRpn h
  have hopen : w.step .lpar = .ok ([], above {} w.stack) := rfl
  have hinside := Sends.of_read (read_above w.stack hread)
  exact Sends.cons_silent hopen (hinside.trans (Sends.of_step (step_rpar _ hclosed hfunc)))

/-- A function goes out right after its group. -/
theorem sends_call {ts out : List Token} (h : toRpn ts = .ok out) (f : Func) (w : Waiting) :
    w.Sends (.func f :: Token.inGroup ts) (out ++ [.func f]) ⟨w.stack, true⟩ := by
  obtain ⟨sent, last, hread, hclosed, rfl⟩ := exists_read_of_toRpn h
  have hfunc : w.step (.func f) = .ok ([], ⟨.func f :: w.stack, false⟩) := rfl
  have hopen : step ⟨.func f :: w.stack, false⟩ .lpar =
    .ok ([], above {} (.func f :: w.stack)) := rfl
  have hinside := Sends.of_read (read_above (.func f :: w.stack) hread)
  have hclose := Sends.of_step (step_rpar_func last.afterValue hclosed f w.stack)
  rw [List.append_assoc]
  exact Sends.cons_silent hfunc (Sends.cons_silent hopen (hinside.trans hclose))

theorem sends_num (w : Waiting) (v : Number) : w.Sends [.num v] [.num v] ⟨w.stack, true⟩ :=
  Sends.of_step rfl

end Waiting

/-! ### Places of operands -/

/-- The tokens end where an operand may stand by itself: at the beginning, after an
opening parenthesis, or after an operator. A plus is an operator after a value. -/
inductive OperandPlace : List Token → Prop where
  | start : OperandPlace []
  | lpar (ts : List Token) : OperandPlace (ts ++ [.lpar])
  | op {ts : List Token} {o : Operator} (h : o = .plus → ts.getLast?.any Token.isValue = true) :
      OperandPlace (ts ++ [.op o])

/-- There no function waits right below. -/
theorem OperandPlace.head?_stack_ne {ts sent : List Token} {w : Waiting} (hts : OperandPlace ts)
    (h : Waiting.read {} ts = .ok (sent, w)) : ∀ f, w.stack.head? ≠ some (.func f) := by
  intro f
  cases hts with
  | start =>
    cases h
    exact nofun
  | lpar ts =>
    obtain ⟨_, next, _, -, hstep⟩ := Waiting.exists_step_of_read_concat h
    cases hstep
    simp
  | @op ts o hplus =>
    obtain ⟨_, next, _, hread, hstep⟩ := Waiting.exists_step_of_read_concat h
    have hvalue := Waiting.afterValue_read hread
    cases Waiting.step_eq_ok_iff.mp hstep with
    | atom ht => cases ht
    | prefixPlus =>
      -- A plus that is dropped has no value before it.
      have hsome := hplus rfl
      cases hlast : ts.getLast? with
      | none => simp [hlast] at hsome
      | some t =>
        rw [hlast] at hvalue hsome
        cases hvalue.trans hsome
    | prefixMinus | operator => simp

/-! ### Values -/

theorem Expr.defined_eq_ok_iff {u v : Number} : defined u = .ok v ↔ ¬ u.IsNaN ∧ u = v := by
  unfold defined
  split <;> simp_all

/-- No part of an expression has an undefined value. -/
theorem Expr.defined_of_value {ctx : Context} {t : Expr} {v : Number} (h : t.value ctx = .ok v) :
    defined v = .ok v := by
  have hdefined : ∃ u, defined u = .ok v := by
    cases t with
    | num u => exact ⟨u, h⟩
    | const c => exact ⟨c.value, h⟩
    | var u => exact ⟨u.value ctx, h⟩
    | func f a =>
      obtain ⟨_, -, h⟩ := bind_eq_ok_iff.mp h
      obtain ⟨u, -, h⟩ := bind_eq_ok_iff.mp h
      exact ⟨u, h⟩
    | negate a =>
      obtain ⟨u, -, h⟩ := bind_eq_ok_iff.mp h
      exact ⟨-u, h⟩
    | binary o two a b =>
      obtain ⟨_, -, h⟩ := bind_eq_ok_iff.mp h
      obtain ⟨_, -, h⟩ := bind_eq_ok_iff.mp h
      obtain ⟨u, -, h⟩ := bind_eq_ok_iff.mp h
      exact ⟨u, h⟩
  obtain ⟨u, hu⟩ := hdefined
  obtain ⟨-, rfl⟩ := defined_eq_ok_iff.mp hu
  exact hu

/-- The machine has the value of a tree as it has that of a number. -/
theorem Expr.run_rpn_eq_run_num {ctx : Context} {t : Expr} {v : Number} (h : t.value ctx = .ok v)
    (stack : List Number) :
    Machine.run ctx stack t.rpn = Machine.run ctx stack [.num v] := by
  rw [run_rpn, h, Machine.run_singleton, Machine.step_num, checked_eq_defined, defined_of_value h]

/-- A list that leaves one value is the list of a tree with this value. -/
theorem Machine.exists_rpn_of_run {ctx : Context} {ts : List Token} {v : Number}
    (h : run ctx [] ts = .ok [v]) : ∃ t : Expr, t.rpn = ts ∧ t.value ctx = .ok v := by
  obtain ⟨t, rfl⟩ := Expr.exists_rpn_iff.mpr (depth_of_run h)
  rw [Expr.run_rpn] at h
  obtain ⟨u, hu, hstack⟩ := map_eq_ok_iff.mp h
  cases hstack
  exact ⟨t, rfl, hu⟩

/-- What leaves the same on every stack may be exchanged within a list. -/
theorem evalRpn_congr {ctx : Context} {us vs : List Token}
    (h : ∀ stack, Machine.run ctx stack us = Machine.run ctx stack vs) (before after : List Token) :
    evalRpn ctx (before ++ (us ++ after)) = evalRpn ctx (before ++ (vs ++ after)) := by
  have hrun : Machine.run ctx [] (before ++ (us ++ after)) =
      Machine.run ctx [] (before ++ (vs ++ after)) := by
    simp only [Machine.run_append, h]
  rw [evalRpn, evalRpn, hrun]

/-- **Parts that do the same may be exchanged.** They are read from the same states
to the same states, and what they send out leaves the same on every stack. -/
theorem evaluateTokens_congr {ctx : Context} {before us vs out out' : List Token}
    (hsends : ∀ sent w, Waiting.read {} before = .ok (sent, w) →
      ∃ next, w.Sends us out next ∧ w.Sends vs out' next)
    (hrun : ∀ stack, Machine.run ctx stack out = Machine.run ctx stack out') (after : List Token) :
    evaluateTokens ctx (before ++ us ++ after) = evaluateTokens ctx (before ++ vs ++ after) := by
  rw [evaluateTokens, evaluateTokens, toRpn, toRpn, List.append_assoc, List.append_assoc,
    Waiting.arrange_append, Waiting.arrange_append]
  cases hread : Waiting.read {} before with
  | error e => rfl
  | ok r =>
    obtain ⟨sent, w⟩ := r
    obtain ⟨next, hus, hvs⟩ := hsends sent w hread
    change (((w.arrange (us ++ after)).map (sent ++ ·)) >>= _) =
      (((w.arrange (vs ++ after)).map (sent ++ ·)) >>= _)
    rw [hus, hvs]
    cases next.arrange after with
    | error e => rfl
    | ok later =>
      exact congrArg (Except.mapError CalcError.evaluation) (evalRpn_congr hrun sent later)

/-- **A group acts as its value.** If a list is arranged and its arrangement leaves
one value on the machine, then the list in parentheses, where an operand may stand,
has the same result as that value, whatever is before and after it; so has, at any
place, a function with the list in parentheses and the function's value. -/
theorem evaluateTokens_group {ctx : Context} {ts rpn : List Token} {v : Number}
    (hrpn : toRpn ts = .ok rpn) (hvalue : Machine.run ctx [] rpn = .ok [v]) :
    (∀ before after, OperandPlace before →
      evaluateTokens ctx (before ++ Token.inGroup ts ++ after) =
        evaluateTokens ctx (before ++ [.num v] ++ after)) ∧
      ∀ f u, f.apply ctx.mode v = .ok u → ¬ u.IsNaN → ∀ before after,
        evaluateTokens ctx (before ++ (.func f :: Token.inGroup ts) ++ after) =
          evaluateTokens ctx (before ++ [.num u] ++ after) := by
  obtain ⟨t, rfl, ht⟩ := Machine.exists_rpn_of_run hvalue
  constructor
  · intro before after hplace
    refine evaluateTokens_congr (fun sent w hread => ⟨_, ?_, w.sends_num v⟩)
      (Expr.run_rpn_eq_run_num ht) after
    exact Waiting.sends_group hrpn (hplace.head?_stack_ne hread)
  · intro f u hu hnan before after
    have hcall : (Expr.func f t).value ctx = .ok u :=
      bind_eq_ok_iff.mpr ⟨v, ht, bind_eq_ok_iff.mpr
        ⟨u, hu, Expr.defined_eq_ok_iff.mpr ⟨hnan, rfl⟩⟩⟩
    exact evaluateTokens_congr
      (fun sent w hread => ⟨_, Waiting.sends_call hrpn f w, w.sends_num u⟩)
      (Expr.run_rpn_eq_run_num hcall) after

/-- The group `(1 2 +)` is no expression and is 3 all the same: in a product with 2; after
a minus in a group that is never closed; and, as the argument of a factorial, after a
sine, where the minus finds one operand. -/
theorem evaluateTokens_group_of_postfix_sum :
    let sum : List Token := Token.inGroup [.num 1, .num 2, .op .plus]
    let double : List Token := [.num 2, .op .times]
    let unclosed : List Token := [.lpar, .op .minus]
    let sine : List Token := [.func .sin, .op .plus]
    let minus : List Token := [.op .minus]
    let seven : List Token := [.num 7]
    evaluateTokens {} (double ++ sum ++ []) = evaluateTokens {} (double ++ [.num 3] ++ []) ∧
      evaluateTokens {} (double ++ sum ++ []) = .ok 6 ∧
      evaluateTokens {} (unclosed ++ sum ++ seven) =
        evaluateTokens {} (unclosed ++ [.num 3] ++ seven) ∧
      evaluateTokens {} (unclosed ++ sum ++ seven) = .error .unmatchedParentheses ∧
      evaluateTokens {} (sine ++ (.func .factorial :: sum) ++ minus) =
        evaluateTokens {} (sine ++ [.num 6] ++ minus) ∧
      evaluateTokens {} (sine ++ (.func .factorial :: sum) ++ minus) =
        .error (.evaluation (.missingOperand (.op .minus))) := by
  intro sum double unclosed sine minus seven
  have hrpn : toRpn [.num 1, .num 2, .op .plus] = .ok [.num 1, .num 2, .op .plus] := by
    decide +kernel
  have hvalue : Machine.run {} [] [.num 1, .num 2, .op .plus] = .ok [3] := by decide +kernel
  have htimes : OperandPlace ([.num 2] ++ [.op .times]) := .op nofun
  have hminus : OperandPlace ([.lpar] ++ [.op .minus]) := .op nofun
  obtain ⟨hgroup, hcall⟩ := evaluateTokens_group hrpn hvalue
  have hproduct := hgroup double [] htimes
  have hopen := hgroup unclosed seven hminus
  have hfactorial := hcall .factorial 6 (by decide +kernel) (by decide +kernel) sine minus
  -- The values are those of the lists without the group.
  refine ⟨hproduct, hproduct.trans ?_, hopen, hopen.trans ?_, hfactorial, hfactorial.trans ?_⟩
  · decide +kernel
  · decide +kernel
  · decide +kernel

end Calculator
