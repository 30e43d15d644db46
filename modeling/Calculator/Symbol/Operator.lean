/-
# Operators

Five operators on two operands, the power, and the prefix minus. The power and
the prefix minus bind tightest and group to the right; the others group to the
left. The prefix minus shares its sign with the subtraction, so no character of
a text reads as it: its place in the text decides.

Key definitions: `Operator`, `Operator.ofChar?`, `Operator.waitsFor`.
Key theorem: `Operator.ofChar?_eq_some_iff`.
-/

namespace Calculator

inductive Operator where
  | plus
  | minus
  | times
  | divide
  | modulo
  | power
  /-- The prefix minus. -/
  | negate
deriving DecidableEq, Repr

inductive Associativity where
  | left
  | right
deriving DecidableEq, Repr

namespace Operator

def all : List Operator := [plus, minus, times, divide, modulo, power, negate]

/-- How the operator is written in a list of tokens. -/
def symbol : Operator → String
  | plus => "+"
  | minus => "-"
  | times => "*"
  | divide => "/"
  | modulo => "%"
  | power => "^"
  | negate => "neg"

/-- The operator a character of a text stands for. -/
def ofChar? : Char → Option Operator
  | '+' => some plus
  | '-' => some minus
  | '*' => some times
  | '/' => some divide
  | '%' => some modulo
  | '^' => some power
  | _ => none

/-- The operator with this symbol. -/
def ofSymbol? (s : String) : Option Operator := all.find? fun op => op.symbol == s

def precedence : Operator → Nat
  | plus | minus => 1
  | times | divide | modulo => 2
  | power | negate => 3

def associativity : Operator → Associativity
  | power | negate => .right
  | _ => .left

/-- The number of operands. -/
def arity : Operator → Nat
  | negate => 1
  | _ => 2

/-- Whether `op`, met after `earlier`, lets `earlier` take its operands first:
a tighter operator always, one as tight if `op` groups to the left. -/
def waitsFor (op earlier : Operator) : Bool :=
  match op.associativity with
  | .left => decide (op.precedence ≤ earlier.precedence)
  | .right => decide (op.precedence < earlier.precedence)

/-- The characters that read as operators are the symbols of the operators
other than the prefix minus. -/
theorem ofChar?_eq_some_iff (c : Char) (op : Operator) :
    ofChar? c = some op ↔ op ≠ negate ∧ op.symbol.toList = [c] := by
  constructor
  · intro h
    unfold ofChar? at h
    split at h <;> cases h <;> exact ⟨by decide, rfl⟩
  · rintro ⟨hne, hc⟩
    cases op <;> simp_all [symbol] <;> subst hc <;> rfl

end Operator
end Calculator
