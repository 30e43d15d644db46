/-
# Names in a text

A text may name functions, the constants pi and e, and the variables x and y, in
upper or lower case. The names are searched from the longest to the shortest, so
a text that starts with `asin` does not start with a shorter name.

Key definitions: `Constant`, `Variable`, `Name`, `Name.table`, `Name.find?`.
Key theorems: `Name.length_pos`, `Name.startsText_of_find?`.
-/
import Calculator.Symbol.Func

namespace Calculator

inductive Constant where
  | pi
  | e
deriving DecidableEq, Repr

/-- The name, as it is written in a text. -/
def Constant.name : Constant → String
  | .pi => "pi"
  | .e => "e"

inductive Variable where
  | x
  | y
deriving DecidableEq, Repr

/-- The name, as it is written in a text. -/
def Variable.name : Variable → String
  | .x => "x"
  | .y => "y"

/-- What a name of a text stands for. -/
inductive Name where
  | func (f : Func)
  | const (c : Constant)
  | var (v : Variable)
deriving DecidableEq, Repr

namespace Name

/-- The name in lower case. -/
def text : Name → String
  | func f => f.name
  | const c => c.name
  | var v => v.name

/-- All names, from the longest to the shortest. -/
def table : List Name :=
  [func .factorial, func .sqrt, func .asin, func .acos, func .atan, func .log, func .sin,
    func .cos, func .tan, func .ln, const .pi, const .e, var .x, var .y]

/-- The number of characters of the name. -/
def length (n : Name) : Nat := n.text.toList.length

/-- Whether a text starts with the name, the case of ASCII letters aside. -/
def startsText (n : Name) (cs : List Char) : Bool :=
  (cs.take n.length).map Char.toLower == n.text.toList

/-- The longest name a text starts with. -/
def find? (cs : List Char) : Option Name := table.find? fun n => n.startsText cs

theorem length_pos (n : Name) : 0 < n.length := by
  rcases n with f | c | v
  · cases f <;> decide
  · cases c <;> decide
  · cases v <;> decide

theorem startsText_of_find? {cs : List Char} {n : Name} (h : find? cs = some n) :
    n.startsText cs = true := by
  simpa using List.find?_some h

end Name
end Calculator
