/-
# Decimals and numerals

A decimal is a whole number of tenths, hundredths, and so on. Its numeral is
written in positional notation, never with an exponent: the whole part, then a
point and the fraction if there is one, without trailing zeros. A numeral that
is read may also lack the digits on one side of its point (`.5`, `3.`) or carry
leading and trailing zeros. Reading gives the double nearest to the decimal.

Key definitions: `Decimal`, `Decimal.toNumber`, `Decimal.numeral`,
`Decimal.ofNumeral`, `numeralLength`.
Key theorems: `numeralLength_le`, `Decimal.fractionDigits_length_le`.
-/
import Calculator.Number.Nearest

namespace Calculator

/-- The decimal `coefficient / 10 ^ places`. -/
structure Decimal where
  coefficient : Nat
  places : Nat
deriving DecidableEq

namespace Decimal

/-- The rank of the double nearest to the decimal. -/
def rank (d : Decimal) : Nat := Number.nearestRank d.coefficient (Nat.pow 10 d.places)

/-- The double nearest to the decimal; a decimal too large for the finite
doubles is infinite. -/
def toNumber (d : Decimal) : Number := Number.ofRank false d.rank

/-! ### Writing -/

/-- The digits of `r / 10 ^ places`, for `r` below `10 ^ places`, up to the last
one that is not zero. -/
def fractionDigits : (places r : Nat) → List Char
  | 0, _ => []
  | places + 1, r =>
    if r = 0 then []
    else Nat.digitChar (r / Nat.pow 10 places) :: fractionDigits places (r % Nat.pow 10 places)

theorem fractionDigits_length_le : ∀ places r : Nat, (fractionDigits places r).length ≤ places
  | 0, _ => Nat.le_refl _
  | places + 1, r => by
    unfold fractionDigits
    split
    · simp
    · simpa using fractionDigits_length_le places _

/-- A point before the fraction digits, if there are any. -/
def pointed : List Char → List Char
  | [] => []
  | d :: ds => '.' :: d :: ds

/-- The decimal in positional notation. -/
def numeral (d : Decimal) : List Char :=
  Nat.toDigits 10 (d.coefficient / Nat.pow 10 d.places) ++
    pointed (fractionDigits d.places (d.coefficient % Nat.pow 10 d.places))

/-! ### Reading -/

/-- The value of a string of digits. -/
def digitsValue (ds : List Char) : Nat := ds.foldl (fun n c => 10 * n + (c.toNat - '0'.toNat)) 0

/-- The decimal with these digits before and after its point. -/
def ofDigits (whole fraction : List Char) : Decimal :=
  ⟨digitsValue (whole ++ fraction), fraction.length⟩

/-- The decimal of a numeral: the digits up to its point, and those after it. -/
def ofNumeral (cs : List Char) : Decimal :=
  ofDigits (cs.takeWhile Char.isDigit) ((cs.dropWhile Char.isDigit).drop 1)

end Decimal

/-- The length of the longest numeral at the head of a text: digits, then
perhaps a point and more digits, with a digit on one side at least. It is 0 if
the text starts with no numeral. -/
def numeralLength (cs : List Char) : Nat :=
  let whole := (cs.takeWhile Char.isDigit).length
  match cs.dropWhile Char.isDigit with
  | '.' :: rest =>
    let fraction := (rest.takeWhile Char.isDigit).length
    if whole + fraction = 0 then 0 else whole + 1 + fraction
  | _ => whole

theorem numeralLength_le (cs : List Char) : numeralLength cs ≤ cs.length := by
  have hsplit := congrArg List.length (List.takeWhile_append_dropWhile (p := Char.isDigit) (l := cs))
  rw [List.length_append] at hsplit
  unfold numeralLength
  simp only
  split
  · rename_i rest heq
    rw [heq, List.length_cons] at hsplit
    have := (List.takeWhile_sublist Char.isDigit (l := rest)).length_le
    split <;> omega
  · omega

end Calculator
