/-
# Expression trees

An expression is a tree of symbols. Its value is computed from the leaves up,
left operand first; the first error on the way is the error of the whole, and so
is an undefined value anywhere in it. At the end the value must be finite, and it
is rounded. Written in reverse Polish notation, every node after its operands, the
tree has on the stack machine the value it has as a tree.

Key definitions: `Expr`, `Expr.rpn`, `Expr.defined`, `Expr.value`, `Expr.result`.
Key theorems: `Expr.run_rpn`, `Expr.evalRpn_rpn`.
-/
import Calculator.Rpn.Machine

namespace Calculator

inductive Expr where
  | num (v : Number)
  | const (c : Constant)
  | var (v : Variable)
  | func (f : Func) (a : Expr)
  | negate (a : Expr)
  /-- An operator on two operands, so not the prefix minus. -/
  | binary (o : Operator) (two : o ≠ .negate) (a b : Expr)
deriving DecidableEq

namespace Expr

/-- The tokens of the tree in reverse Polish notation. -/
def rpn : Expr → List Token
  | num v => [.num v]
  | const c => [.const c]
  | var v => [.var v]
  | func f a => a.rpn ++ [.func f]
  | negate a => a.rpn ++ [.op .negate]
  | binary o _ a b => a.rpn ++ b.rpn ++ [.op o]

/-- The value of a part of the tree, which must not be undefined. -/
def defined (v : Number) : Except EvalError Number :=
  if v.IsNaN then .error .notFinite else .ok v

/-- The value of the tree, neither rounded nor refused if it is infinite. -/
def value (ctx : Context) : Expr → Except EvalError Number
  | num v => defined v
  | const c => defined c.value
  | var v => defined (v.value ctx)
  | func f a => do
    let u ← a.value ctx
    let v ← f.apply ctx.mode u
    defined v
  | negate a => do
    let u ← a.value ctx
    defined (-u)
  | binary o _ a b => do
    let u ← a.value ctx
    let w ← b.value ctx
    let v ← o.apply [u, w]
    defined v

/-- The value of the tree as it is shown. -/
def result (ctx : Context) (t : Expr) : Except EvalError Number := do
  let v ← t.value ctx
  if v.IsFinite then .ok v.rounded else .error .notFinite

/-- The machine refuses what the tree refuses. -/
theorem checked_eq_defined (v : Number) : Machine.checked v = defined v := rfl

/-- The machine computes the tree's value on top of whatever is on the stack,
and stops where the tree's value fails. -/
theorem run_rpn (ctx : Context) : ∀ (t : Expr) (stack : List Number),
    Machine.run ctx stack t.rpn = (t.value ctx).map (· :: stack)
  | num v, stack => by
    rw [rpn, value, Machine.run_singleton, Machine.step_num, checked_eq_defined]
  | const c, stack => by
    rw [rpn, value, Machine.run_singleton, Machine.step_const, checked_eq_defined]
  | var v, stack => by
    rw [rpn, value, Machine.run_singleton, Machine.step_var, checked_eq_defined]
  | func f a, stack => by
    rw [rpn, value, Machine.run_append, run_rpn ctx a]
    cases a.value ctx with
    | error e => rfl
    | ok u => exact (Machine.run_singleton ..).trans (Machine.step_func ..)
  | negate a, stack => by
    rw [rpn, value, Machine.run_append, run_rpn ctx a]
    cases a.value ctx with
    | error e => rfl
    | ok u => exact (Machine.run_singleton ..).trans (Machine.step_negate ..)
  | binary o h a b, stack => by
    rw [rpn, value, Machine.run_append, Machine.run_append, run_rpn ctx a]
    cases a.value ctx with
    | error e => rfl
    | ok u =>
      change (Machine.run ctx (u :: stack) b.rpn >>= _) = _
      rw [run_rpn ctx b]
      cases b.value ctx with
      | error e => rfl
      | ok w => exact (Machine.run_singleton ..).trans (Machine.step_binary _ _ h _ _)

/-- **The machine and the tree agree.** -/
theorem evalRpn_rpn (ctx : Context) (t : Expr) : evalRpn ctx t.rpn = t.result ctx := by
  rw [evalRpn, run_rpn, result]
  cases t.value ctx <;> rfl

end Expr
end Calculator
