/-
# Tokens

A token is a number, a constant, a variable, a function, an operator or a
parenthesis. Some tokens end a value, some begin one; between the two stands a
multiplication, written or not. A number does not begin a value in this sense:
`2 3` stays two numbers.

Key definitions: `Token`, `Token.isValue`, `Token.beginsValue`, `Token.text`,
`Token.render`.
Key theorem: `Token.isValue_of_isAtom`.
-/
import Calculator.Number.Shortest
import Calculator.Symbol.Name
import Calculator.Symbol.Operator

namespace Calculator

inductive Token where
  | num (v : Number)
  | const (c : Constant)
  | var (v : Variable)
  | func (f : Func)
  | op (o : Operator)
  | lpar
  | rpar
deriving DecidableEq

namespace Token

/-- A value in one token: a number, a constant or a variable. -/
def isAtom : Token → Bool
  | num _ | const _ | var _ => true
  | _ => false

/-- Whether a value ends here. -/
def isValue : Token → Bool
  | rpar => true
  | t => t.isAtom

/-- Whether a value that may stand right after another one begins here. -/
def beginsValue : Token → Bool
  | func _ | const _ | var _ | lpar => true
  | _ => false

/-- The token of a name. -/
def ofName : Name → Token
  | .func f => func f
  | .const c => const c
  | .var v => var v

/-- How the token is written. -/
def text : Token → String
  | num v => Number.text v
  | const c => c.name
  | var v => v.name
  | func f => f.name
  | op o => o.symbol
  | lpar => "("
  | rpar => ")"

/-- A list of tokens, written with a space between each two. -/
def render (ts : List Token) : String := " ".intercalate (ts.map text)

theorem isValue_of_isAtom {t : Token} (h : t.isAtom = true) : t.isValue = true := by
  cases t <;> simp_all [isAtom, isValue]

end Token
end Calculator
