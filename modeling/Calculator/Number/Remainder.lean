/-
# The remainder of a division

The remainder of `a` by `b` is what is left of `a` after taking `b` away as often
as it goes in whole. It is computed exactly, in units of 2^-1074, and has the
sign of `a`, zero included; the sign of `b` does not matter. Of an infinite `a`,
or by zero, it is undefined, and by an infinite `b` it is `a`.

Key definitions: `Number.remainder`, `Number.IsWhole`.
-/
import Calculator.Number.Nearest

namespace Calculator
namespace Number

/-- The remainder of `a` by `b`, with the sign of `a`. -/
def remainder (a b : Number) : Number :=
  if ¬ a.IsFinite ∨ b.IsNaN ∨ rank b = 0 then nan
  else if ¬ b.IsFinite then a
  else ofFraction (isNegative a) (units (rank a) % units (rank b)) unitsPerOne

example : remainder (-5.5) 2 = -1.5 := by decide +kernel

/-- A remainder of zero keeps the sign too. -/
example : remainder (-4) 2 = -0.0 := by decide +kernel

/-- The magnitude of `v` cut down to a whole number. -/
def wholePart (v : Number) : Nat := units (rank v) / unitsPerOne

/-- A finite number without a fraction. -/
def IsWhole (v : Number) : Prop := v.IsFinite ∧ units (rank v) % unitsPerOne = 0

instance (v : Number) : Decidable v.IsWhole := inferInstanceAs (Decidable (_ ∧ _))

end Number
end Calculator
