/-
# Errors

A text fails in one of three ways: a character of it begins nothing (lexical),
its parentheses do not match (grammatical), or its value cannot be computed
(evaluation). Each cause is a constructor, and `message` words it.

Key definitions: `EvalError`, `CalcError`, `CalcError.kind`, `CalcError.message`.
-/
import Calculator.Token.Basic

namespace Calculator

inductive EvalError where
  | divisionByZero
  | rootOfNegative
  | logOfNonPositive
  | lnOfNonPositive
  | factorialOfNonNatural
  | factorialTooLarge
  | tangentUndefined
  /-- The argument of an arc sine or arc cosine is not in [-1, 1]. -/
  | outOfDomain (f : Func)
  | missingOperand (t : Token)
  /-- At the end there is not one value but `n`. -/
  | valuesLeft (n : Nat)
  /-- The token has no place in reverse Polish notation. -/
  | unexpectedToken (t : Token)
  | notFinite
deriving DecidableEq

inductive CalcError where
  /-- The character at this position, counted from 0, begins no lexeme. -/
  | unexpectedChar (position : Nat) (c : Char)
  | unmatchedParentheses
  | evaluation (e : EvalError)
deriving DecidableEq

inductive ErrorKind where
  | lexical
  | grammatical
  | evaluation
deriving DecidableEq, Repr

def EvalError.message : EvalError → String
  | divisionByZero => "division par zéro"
  | rootOfNegative => "racine carrée d'un nombre négatif"
  | logOfNonPositive => "logarithme d'un nombre non positif"
  | lnOfNonPositive => "logarithme népérien d'un nombre non positif"
  | factorialOfNonNatural => "factorielle d'un nombre négatif ou non entier"
  | factorialTooLarge => "factorielle trop grande"
  | tangentUndefined => "tangente indéfinie (90° modulo 180°)"
  | outOfDomain f => f.name ++ " : argument hors de [-1, 1]"
  | missingOperand t => "opérande manquant pour '" ++ t.text ++ "'"
  | valuesLeft n => "expression invalide (" ++ n.repr ++ " valeurs restantes)"
  | unexpectedToken t => "jeton inattendu en RPN : '" ++ t.text ++ "'"
  | notFinite => "résultat non fini"

namespace CalcError

def kind : CalcError → ErrorKind
  | unexpectedChar .. => .lexical
  | unmatchedParentheses => .grammatical
  | evaluation _ => .evaluation

def message : CalcError → String
  | unexpectedChar position c =>
    "caractère inattendu '" ++ c.toString ++ "' (position " ++ position.repr ++ ")"
  | unmatchedParentheses => "erreur de syntaxe : parenthèses non appariées"
  | evaluation e => "erreur d'évaluation : " ++ e.message

end CalcError
end Calculator
