/-
# The tokens of a text

The lexemes of a text become tokens one by one. Two rules add tokens that the
text does not write. A multiplication is put between a value and a function,
constant, variable or opening parenthesis right after it. And the atom right
after a root sign is put in parentheses, so `√4+5` is 7; before anything else
the root sign is the function `sqrt`, which takes the rest of the expression as
its argument if no parenthesis follows.

Key definitions: `LeftContext`, `Lexeme.emit`, `Lexeme.toTokens`, `tokenize`.
Key theorem: `Lexeme.toTokens_cons`.
-/
import Calculator.Token.Lexeme

namespace Calculator

/-- What stands to the left of a lexeme, as far as it matters. -/
inductive LeftContext where
  /-- The beginning of the text, or a lexeme that ends no value. -/
  | noValue
  | value
  | rootSign
deriving DecidableEq, Repr

namespace Lexeme

/-- The token with a multiplication before it, where two values touch. -/
def joined (left : LeftContext) (t : Token) : List Token :=
  if left = .value ∧ t.beginsValue then [.op .times, t] else [t]

def emit (left : LeftContext) : Lexeme → List Token
  | root => joined left (.func .sqrt)
  | token t => if left = .rootSign ∧ t.isAtom then [.lpar, t, .rpar] else joined left t

/-- What a lexeme is to the one after it. -/
def toLeft : Lexeme → LeftContext
  | root => .rootSign
  | token t => if t.isValue then .value else .noValue

def toTokens (left : LeftContext) : List Lexeme → List Token
  | [] => []
  | l :: ls => l.emit left ++ toTokens l.toLeft ls

@[simp] theorem toTokens_nil (left : LeftContext) : toTokens left [] = [] := rfl

@[simp] theorem toTokens_cons (left : LeftContext) (l : Lexeme) (ls : List Lexeme) :
    toTokens left (l :: ls) = l.emit left ++ toTokens l.toLeft ls := rfl

end Lexeme

def tokenize (cs : List Char) : Except CalcError (List Token) :=
  (Lexeme.cut cs).map (Lexeme.toTokens .noValue)

end Calculator
