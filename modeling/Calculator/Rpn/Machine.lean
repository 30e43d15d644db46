/-
# The stack machine

A list of tokens in reverse Polish notation is evaluated with a stack of
numbers. A value is pushed; an operator or function takes its operands off the
stack and pushes its result. An undefined number never goes on the stack: the
power operator could hide it again. At the end the stack holds the result
alone, which must be finite and is rounded.

Key definitions: `Machine.operate`, `Machine.step`, `Machine.run`, `Machine.result`,
`evalRpn`.
Key theorem: `Machine.run_append`.
-/
import Calculator.Arithmetic
import Calculator.Number.Rounded

namespace Calculator
namespace Machine

/-- The value of a token on a stack, and what it leaves of the stack. -/
def operate (ctx : Context) (stack : List Number) (t : Token) :
    Except EvalError (Number × List Number) :=
  match t with
  | .num v => .ok (v, stack)
  | .const c => .ok (c.value, stack)
  | .var v => .ok (v.value ctx, stack)
  | .func f =>
    match stack with
    | [] => .error (.missingOperand t)
    | a :: below => (f.apply ctx.mode a).map (·, below)
  | .op o =>
    if stack.length < o.arity then .error (.missingOperand t)
    else (o.apply (stack.take o.arity).reverse).map (·, stack.drop o.arity)
  | .lpar | .rpar => .error (.unexpectedToken t)

/-- A value that may go on the stack. -/
def checked (v : Number) : Except EvalError Number :=
  if v.IsNaN then .error .notFinite else .ok v

/-- The stack after a token. -/
def step (ctx : Context) (stack : List Number) (t : Token) : Except EvalError (List Number) :=
  match operate ctx stack t with
  | .error e => .error e
  | .ok (v, below) => (checked v).map (· :: below)

/-- A value that may be shown, rounded. -/
def shown (v : Number) : Except EvalError Number :=
  if v.IsFinite then .ok v.rounded else .error .notFinite

/-- The result that a stack holds at the end. -/
def result : List Number → Except EvalError Number
  | [v] => shown v
  | stack => .error (.valuesLeft stack.length)

/-- The stack after a list of tokens. -/
def run (ctx : Context) (stack : List Number) : List Token → Except EvalError (List Number)
  | [] => .ok stack
  | t :: ts =>
    match step ctx stack t with
    | .error e => .error e
    | .ok next => run ctx next ts

theorem step_num (ctx : Context) (stack : List Number) (v : Number) :
    step ctx stack (.num v) = (checked v).map (· :: stack) := rfl

theorem step_const (ctx : Context) (stack : List Number) (c : Constant) :
    step ctx stack (.const c) = (checked c.value).map (· :: stack) := rfl

theorem step_var (ctx : Context) (stack : List Number) (v : Variable) :
    step ctx stack (.var v) = (checked (v.value ctx)).map (· :: stack) := rfl

theorem step_func (ctx : Context) (stack : List Number) (f : Func) (a : Number) :
    step ctx (a :: stack) (.func f) = (f.apply ctx.mode a >>= checked).map (· :: stack) := by
  rw [step, operate]
  cases f.apply ctx.mode a <;> rfl

theorem step_negate (ctx : Context) (stack : List Number) (a : Number) :
    step ctx (a :: stack) (.op .negate) = (checked (-a)).map (· :: stack) := rfl

/-- The operand on top of the stack was read last. -/
theorem step_binary (ctx : Context) (stack : List Number) {o : Operator} (h : o ≠ .negate)
    (a b : Number) :
    step ctx (b :: a :: stack) (.op o) = (o.apply [a, b] >>= checked).map (· :: stack) := by
  have hstep : step ctx (b :: a :: stack) (.op o) =
      match (o.apply [a, b]).map (·, stack) with
      | .error e => .error e
      | .ok (v, below) => (checked v).map (· :: below) := by
    cases o <;> first | rfl | exact absurd rfl h
  rw [hstep]
  cases o.apply [a, b] <;> rfl

theorem run_singleton (ctx : Context) (stack : List Number) (t : Token) :
    run ctx stack [t] = step ctx stack t := by
  rw [run]
  cases step ctx stack t <;> rfl

theorem run_append (ctx : Context) : ∀ (ts us : List Token) (stack : List Number),
    run ctx stack (ts ++ us) = run ctx stack ts >>= fun next => run ctx next us
  | [], _, _ => rfl
  | t :: ts, us, stack => by
    rw [List.cons_append, run, run]
    cases step ctx stack t with
    | error e => rfl
    | ok next => exact run_append ctx ts us next

end Machine

/-- The value of a list of tokens in reverse Polish notation. -/
def evalRpn (ctx : Context) (ts : List Token) : Except EvalError Number :=
  match Machine.run ctx [] ts with
  | .error e => .error e
  | .ok stack => Machine.result stack

end Calculator
