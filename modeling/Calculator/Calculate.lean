/-
# The calculation of a text

A text is trimmed, cut into tokens, put in reverse Polish notation and
evaluated; the first stage that fails gives the error. The two lists of tokens
on the way are kept as texts, to show how the result came about.

Key definitions: `Working`, `calculate`, `evaluate`.
-/
import Calculator.Rpn.Machine
import Calculator.Rpn.Order
import Calculator.Token.Lexer

namespace Calculator

/-- The steps of a calculation, as texts: the tokens in the order of the
expression, and in reverse Polish notation. -/
structure Working where
  tokens : String := ""
  rpn : String := ""
deriving DecidableEq

/-- The value of a text and the steps that led to it. -/
def calculate (ctx : Context) (text : String) : Except CalcError (Number × Working) := do
  let tokens ← tokenize (trim text.toList)
  let rpn ← toRpn tokens
  match evalRpn ctx rpn with
  | .error e => .error (.evaluation e)
  | .ok v => .ok (v, ⟨Token.render tokens, Token.render rpn⟩)

def evaluate (ctx : Context) (text : String) : Except CalcError Number :=
  (calculate ctx text).map Prod.fst

end Calculator
