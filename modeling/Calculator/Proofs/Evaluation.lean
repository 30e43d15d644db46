/-
# Evaluation of a tree and of a list

The nodes of a tree in the order of evaluation are the left operand's, the right
operand's, then the node itself. The first of them that fails, because its
application is an error or its value undefined, gives the error of the whole
tree, so no node above can hide it (`Expr.value_of_first_failure`). On the list
of a tree the machine does the same, and it never finds a value missing or left
over there; on every other list it fails (`evalRpn_rpn_and_error_of_ne_rpn`).

Key definitions: `Expr.nodes`, `EvalError.isMalformed`.
Key theorems: `Expr.findSome?_nodes`, `Expr.value_of_first_failure`, `Expr.isMalformed_of_value`,
`evalRpn_rpn_and_error_of_ne_rpn`.
-/
import Calculator.Proofs.Postfix

namespace Calculator

/-- Whether the error says that the list is not the list of a tree. -/
def EvalError.isMalformed : EvalError → Bool
  | missingOperand _ | valuesLeft _ | unexpectedToken _ => true
  | _ => false

/-- A function fails on its argument only. -/
theorem Func.isMalformed_of_apply {f : Func} {mode : AngleMode} {a : Number} {e : EvalError}
    (h : f.apply mode a = .error e) : e.isMalformed = false := by
  cases f with
  | sin | cos | atan => cases h
  | factorial =>
    simp only [Func.apply, factorialOf] at h
    split at h
    · cases h
      rfl
    · split at h <;> cases h
      rfl
  | _ =>
    simp only [Func.apply] at h
    split at h <;> cases h
    rfl

/-- An operator with its two operands fails on their values only. -/
theorem Operator.isMalformed_of_apply {o : Operator} (ho : o ≠ .negate) {a b : Number}
    {e : EvalError} (h : o.apply [a, b] = .error e) : e.isMalformed = false := by
  cases o with
  | plus | minus | times | power => cases h
  | negate => exact absurd rfl ho
  | divide | modulo =>
    simp only [Operator.apply] at h
    split at h <;> cases h
    rfl

theorem Machine.isMalformed_of_checked {v : Number} {e : EvalError} (h : checked v = .error e) :
    e.isMalformed = false := by
  unfold checked at h
  split at h <;> cases h
  rfl

theorem Machine.isMalformed_of_shown {v : Number} {e : EvalError} (h : shown v = .error e) :
    e.isMalformed = false := by
  unfold shown at h
  split at h <;> cases h
  rfl

namespace Expr

variable {ctx : Context}

/-! ### The first node that fails -/

/-- The nodes of a tree in the order of their evaluation, operands first. -/
def nodes : Expr → List Expr
  | func f a => a.nodes ++ [func f a]
  | negate a => a.nodes ++ [negate a]
  | binary o two a b => a.nodes ++ b.nodes ++ [binary o two a b]
  | t => [t]

/-- Why a tree has no value. -/
def failure? (ctx : Context) (t : Expr) : Option EvalError :=
  match t.value ctx with
  | .error e => some e
  | .ok _ => none

theorem failure?_eq_some_iff {t : Expr} {e : EvalError} :
    t.failure? ctx = some e ↔ t.value ctx = .error e := by
  unfold failure?
  cases t.value ctx <;> simp

theorem failure?_eq_none_iff {t : Expr} :
    t.failure? ctx = none ↔ ∃ v, t.value ctx = .ok v := by
  unfold failure?
  cases t.value ctx <;> simp

/-- The failure of an operand is the failure of the node. -/
theorem or_failure? {a t : Expr} (h : ∀ e, a.value ctx = .error e → t.value ctx = .error e) :
    (a.failure? ctx).or (t.failure? ctx) = t.failure? ctx := by
  cases ha : a.failure? ctx with
  | none => rfl
  | some e => exact (failure?_eq_some_iff.mpr (h e (failure?_eq_some_iff.mp ha))).symm

/-- Evaluation stops at the first node that fails. -/
theorem findSome?_nodes : ∀ t : Expr, t.nodes.findSome? (failure? ctx) = t.failure? ctx
  | num _ | const _ | var _ => by simp [nodes]
  | func f a => by
    rw [nodes, List.findSome?_append, findSome?_nodes a, List.findSome?_singleton]
    refine or_failure? fun e ha => ?_
    rw [value, ha]
    rfl
  | negate a => by
    rw [nodes, List.findSome?_append, findSome?_nodes a, List.findSome?_singleton]
    refine or_failure? fun e ha => ?_
    rw [value, ha]
    rfl
  | binary o two a b => by
    rw [nodes, List.findSome?_append, List.findSome?_append, findSome?_nodes a, findSome?_nodes b,
      List.findSome?_singleton]
    cases ha : a.failure? ctx with
    | some e =>
      refine (failure?_eq_some_iff.mpr ?_).symm
      rw [value, failure?_eq_some_iff.mp ha]
      rfl
    | none =>
      obtain ⟨u, hu⟩ := failure?_eq_none_iff.mp ha
      refine or_failure? fun e hb => ?_
      rw [value, hu, hb]
      rfl

/-- **Errors are not hidden.** If a node fails and all nodes before it have
values, its error is the error of the tree. -/
theorem value_of_first_failure {t s : Expr} {before after : List Expr} {e : EvalError}
    (hnodes : t.nodes = before ++ s :: after)
    (hbefore : ∀ b ∈ before, ∃ v, b.value ctx = .ok v) (hs : s.value ctx = .error e) :
    t.value ctx = .error e := by
  rw [← failure?_eq_some_iff, ← findSome?_nodes, List.findSome?_eq_some_iff]
  exact ⟨before, s, after, hnodes, failure?_eq_some_iff.mpr hs,
    fun b hb => failure?_eq_none_iff.mpr (hbefore b hb)⟩

theorem exists_value_error_of_mem {t s : Expr} {e : EvalError} (hmem : s ∈ t.nodes)
    (hs : s.value ctx = .error e) : ∃ e', t.value ctx = .error e' := by
  cases ht : t.failure? ctx with
  | some e' => exact ⟨e', failure?_eq_some_iff.mp ht⟩
  | none =>
    rw [← findSome?_nodes, List.findSome?_eq_none_iff] at ht
    have := failure?_eq_some_iff.mpr hs
    rw [ht s hmem] at this
    cases this

/-! ### The errors of a tree -/

/-- The value of a tree fails by a value, never by the shape of the list. -/
theorem isMalformed_of_value : ∀ {t : Expr} {e : EvalError}, t.value ctx = .error e →
    e.isMalformed = false
  | num _, _, h | const _, _, h | var _, _, h => Machine.isMalformed_of_checked h
  | func f a, e, h => by
    rcases bind_eq_error_iff.mp h with h | ⟨u, -, h⟩
    · exact isMalformed_of_value h
    · rcases bind_eq_error_iff.mp h with h | ⟨v, -, h⟩
      · exact Func.isMalformed_of_apply h
      · exact Machine.isMalformed_of_checked h
  | negate a, e, h => by
    rcases bind_eq_error_iff.mp h with h | ⟨u, -, h⟩
    · exact isMalformed_of_value h
    · exact Machine.isMalformed_of_checked h
  | binary o two a b, e, h => by
    rcases bind_eq_error_iff.mp h with h | ⟨u, -, h⟩
    · exact isMalformed_of_value h
    rcases bind_eq_error_iff.mp h with h | ⟨w, -, h⟩
    · exact isMalformed_of_value h
    rcases bind_eq_error_iff.mp h with h | ⟨v, -, h⟩
    · exact Operator.isMalformed_of_apply two h
    · exact Machine.isMalformed_of_checked h

theorem isMalformed_of_result {t : Expr} {e : EvalError} (h : t.result ctx = .error e) :
    e.isMalformed = false := by
  rcases bind_eq_error_iff.mp h with h | ⟨v, -, h⟩
  · exact isMalformed_of_value h
  · exact Machine.isMalformed_of_shown h

theorem result_of_value_error {t : Expr} {e : EvalError} (h : t.value ctx = .error e) :
    t.result ctx = .error e := bind_eq_error_iff.mpr (.inl h)

end Expr

/-- **The machine evaluates trees and nothing else.** The list of a tree has the
tree's result: the first node that fails gives the error, no failure of a node is
hidden, and no value is ever missing or left over. Every other list is an error,
and if nothing fails by its value on the way, the first token that finds too few
values is named, or else the number of values left. -/
theorem evalRpn_rpn_and_error_of_ne_rpn (ctx : Context) :
    (∀ t : Expr, evalRpn ctx t.rpn = t.result ctx ∧
      (∀ e, evalRpn ctx t.rpn = .error e → e.isMalformed = false) ∧
      (∀ before s after e, t.nodes = before ++ s :: after →
        (∀ b ∈ before, ∃ v, b.value ctx = .ok v) → s.value ctx = .error e →
        evalRpn ctx t.rpn = .error e) ∧
      ∀ s ∈ t.nodes, ∀ e, s.value ctx = .error e → ∃ e', evalRpn ctx t.rpn = .error e') ∧
    ∀ ts : List Token, (∀ t : Expr, t.rpn ≠ ts) →
      (∃ e, evalRpn ctx ts = .error e) ∧
      (Machine.Smooth ctx [] ts → evalRpn ctx ts = .error (countError ts)) := by
  refine ⟨fun t => ?_, fun ts hne => ⟨?_, fun hsmooth => evalRpn_of_smooth hsmooth hne⟩⟩
  · rw [Expr.evalRpn_rpn]
    refine ⟨rfl, fun e he => Expr.isMalformed_of_result he, ?_, fun s hs e he => ?_⟩
    · intro before s after e hnodes hbefore hs
      exact Expr.result_of_value_error (Expr.value_of_first_failure hnodes hbefore hs)
    · obtain ⟨e', he'⟩ := Expr.exists_value_error_of_mem hs he
      exact ⟨e', Expr.result_of_value_error he'⟩
  · cases h : evalRpn ctx ts with
    | error e => exact ⟨e, rfl⟩
    | ok v =>
      obtain ⟨t, ht⟩ := exists_rpn_of_evalRpn_eq_ok h
      exact absurd ht (hne t)

/-- `1 +` in this order: the sum finds one operand. And an infinite `x` less itself, to
the power of 0: the power would be 1, but the difference is undefined. -/
theorem evalRpn_sum_of_one_operand :
    let ctx : Context := { x := Number.ofRank false Number.infiniteRank }
    let difference : Expr := .binary .minus (by decide) (.var .x) (.var .x)
    let t : Expr := .binary .power (by decide) difference (.num 0)
    Machine.Smooth {} [] [.num 1, .op .plus] ∧
      evalRpn {} [.num 1, .op .plus] = .error (.missingOperand (.op .plus)) ∧
      t.nodes = [.var .x, .var .x] ++ difference :: [.num 0, t] ∧
      evalRpn ctx [.var .x, .var .x, .op .minus, .num 0, .op .power] = .error .notFinite := by
  intro ctx difference t
  have hone : ¬ Number.IsNaN 1 := by decide +kernel
  have hsmooth : Machine.Smooth {} [] [.num 1, .op .plus] := by
    refine fun _ => ⟨[1], ?_, fun htwo => absurd htwo (by decide)⟩
    rw [Machine.step_num, Machine.checked, if_neg hone]
    rfl
  have hne : ∀ t : Expr, t.rpn ≠ [.num 1, .op .plus] := fun t ht => by
    have hdepth := t.depth_rpn
    rw [ht] at hdepth
    cases hdepth
  have hx : (Expr.var .x).value ctx = .ok ctx.x := by decide +kernel
  have hdifference : difference.value ctx = .error .notFinite := by decide +kernel
  obtain ⟨-, -, hfirst, -⟩ := (evalRpn_rpn_and_error_of_ne_rpn ctx).1 t
  refine ⟨hsmooth, ((evalRpn_rpn_and_error_of_ne_rpn {}).2 _ hne).2 hsmooth, rfl, ?_⟩
  exact hfirst [.var .x, .var .x] difference [.num 0, t] _ rfl (by simp [hx]) hdifference

end Calculator
