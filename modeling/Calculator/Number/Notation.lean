/-
# Number texts with sign and exponent

Outside an expression a number may be written with a sign, with an exponent of
ten, or as `inf`, `infinity` or `NaN` in upper or lower case; a saved state needs all
of these. The decimal so written is read exactly and rounded once. A numeral of an
expression is read in the same way.

Key definitions: `Scientific.ofText?`, `Number.ofText?`.
-/
import Calculator.Number.Decimal

namespace Calculator

/-- A decimal times a power of ten. -/
structure Scientific where
  decimal : Decimal
  exponent : Int
deriving DecidableEq

namespace Scientific

/-- An exponent beyond this one, up or down, takes any decimal of moderate
length out of the range of the doubles. -/
def exponentLimit (d : Decimal) : Nat := 400 + d.places + (Nat.toDigits 10 d.coefficient).length

/-- The number nearest to the value. -/
def toNumber (negative : Bool) (s : Scientific) : Number :=
  let size := min s.exponent.natAbs (exponentLimit s.decimal)
  if s.exponent < 0 then
    Number.ofFraction negative s.decimal.coefficient (Nat.pow 10 (s.decimal.places + size))
  else Number.ofFraction negative (s.decimal.coefficient * Nat.pow 10 size)
    (Nat.pow 10 s.decimal.places)

/-- The whole number of a non-empty string of digits. -/
def natOfDigits? (cs : List Char) : Option Nat :=
  if cs.isEmpty || !cs.all Char.isDigit then none else some (Decimal.digitsValue cs)

/-- An exponent: digits, perhaps with a sign before them. -/
def exponentOf? : List Char → Option Int
  | '-' :: cs => (natOfDigits? cs).map fun n => -(n : Int)
  | '+' :: cs => (natOfDigits? cs).map Int.ofNat
  | cs => (natOfDigits? cs).map Int.ofNat

/-- A numeral, perhaps with an exponent after `e` or `E`. -/
def ofText? (cs : List Char) : Option Scientific :=
  let length := numeralLength cs
  if length = 0 then none
  else
    let decimal := Decimal.ofNumeral (cs.take length)
    match cs.drop length with
    | [] => some ⟨decimal, 0⟩
    | mark :: rest =>
      if mark.toLower = 'e' then (exponentOf? rest).map (⟨decimal, ·⟩) else none

end Scientific

namespace Number

/-- The number of an unsigned text. -/
def ofUnsigned? (negative : Bool) (cs : List Char) : Option Number :=
  let lower := cs.map Char.toLower
  if lower = "inf".toList ∨ lower = "infinity".toList then some (ofRank negative infiniteRank)
  else if lower = "nan".toList then some nan
  else (Scientific.ofText? cs).map (Scientific.toNumber negative)

/-- The number a text stands for, if it is a number's. -/
def ofText? (s : String) : Option Number :=
  match s.toList with
  | '-' :: cs => ofUnsigned? true cs
  | '+' :: cs => ofUnsigned? false cs
  | cs => ofUnsigned? false cs

end Number
end Calculator
