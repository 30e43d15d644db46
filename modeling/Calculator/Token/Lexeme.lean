/-
# Lexemes

A text is cut from the left into blanks and lexemes. A lexeme is a parenthesis,
an operator, a numeral, a name, or the root sign; it is always the longest one
that begins at its first character. The root sign is kept apart from the name
`sqrt` because it treats the atom after it differently.

Key definitions: `Lexeme`, `Lexeme.first?`, `Lexeme.cut`.
Key theorem: `Lexeme.length_pos_of_first?`.
-/
import Calculator.Error
import Calculator.Number.Notation
import Calculator.Text.Blank

namespace Calculator

inductive Lexeme where
  | token (t : Token)
  /-- The sign `√`. -/
  | root
deriving DecidableEq

namespace Lexeme

/-- The lexeme of one character, if the character is one by itself. -/
def ofSign? : Char → Option Lexeme
  | '(' => some (token .lpar)
  | ')' => some (token .rpar)
  | 'π' => some (token (.const .pi))
  | '√' => some root
  | c => (Operator.ofChar? c).map fun o => token (.op o)

/-- The numeral a text starts with, and its length. The text of the numeral must be
that of a number. -/
def ofNumeral? (cs : List Char) : Option (Lexeme × Nat) :=
  let length := numeralLength cs
  if length = 0 then none
  else (Number.ofText? (String.ofList (cs.take length))).map fun v => (token (.num v), length)

/-- The name a text starts with, and its length. -/
def ofName? (cs : List Char) : Option (Lexeme × Nat) :=
  (Name.find? cs).map fun n => (token (Token.ofName n), n.length)

/-- The lexeme a text starts with, and its length in characters. -/
def first? : List Char → Option (Lexeme × Nat)
  | [] => none
  | c :: cs =>
    match ofSign? c with
    | some l => some (l, 1)
    | none => if c.isDigit || c == '.' then ofNumeral? (c :: cs) else ofName? (c :: cs)

/-- The lexemes of a text from `position` on, of which the first `skip`
characters belong to a lexeme already read. -/
def cutFrom : (skip position : Nat) → List Char → Except CalcError (List Lexeme)
  | _, _, [] => .ok []
  | skip + 1, position, _ :: cs => cutFrom skip (position + 1) cs
  | 0, position, c :: cs =>
    if isBlank c then cutFrom 0 (position + 1) cs
    else
      match first? (c :: cs) with
      | none => .error (.unexpectedChar position c)
      | some (l, length) => (cutFrom (length - 1) (position + 1) cs).map (l :: ·)

def cut (cs : List Char) : Except CalcError (List Lexeme) := cutFrom 0 0 cs

/-- A lexeme takes at least the character it begins with. -/
theorem length_pos_of_first? {cs : List Char} {l : Lexeme} {n : Nat}
    (h : first? cs = some (l, n)) : 0 < n := by
  unfold first? at h
  split at h
  · cases h
  · split at h
    · cases h
      decide
    · split at h
      · unfold ofNumeral? at h
        simp only at h
        split at h
        · cases h
        · obtain ⟨v, _, hpair⟩ := Option.map_eq_some_iff.mp h
          cases hpair
          omega
      · obtain ⟨name, _, hname⟩ := Option.map_eq_some_iff.mp h
        cases hname
        exact name.length_pos

end Lexeme
end Calculator
