/-
# Functions

The ten functions of one argument and their names.

Key definitions: `Func`, `Func.name`, `Func.ofName?`.
-/

namespace Calculator

inductive Func where
  | sqrt
  | log
  | ln
  | factorial
  | sin
  | cos
  | tan
  | asin
  | acos
  | atan
deriving DecidableEq, Repr

namespace Func

def all : List Func := [sqrt, log, ln, factorial, sin, cos, tan, asin, acos, atan]

/-- The name, as it is written in a text. -/
def name : Func → String
  | sqrt => "sqrt"
  | log => "log"
  | ln => "ln"
  | factorial => "factorial"
  | sin => "sin"
  | cos => "cos"
  | tan => "tan"
  | asin => "asin"
  | acos => "acos"
  | atan => "atan"

/-- The function with exactly this name. -/
def ofName? (s : String) : Option Func := all.find? fun f => f.name == s

end Func
end Calculator
