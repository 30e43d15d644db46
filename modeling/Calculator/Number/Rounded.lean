/-
# Results keep ten decimals

A result is rounded to ten decimals before it is shown, so the noise of binary
arithmetic does not show: 0.1 + 0.2 becomes 0.3. The exact binary magnitude is
rounded to a decimal, a half to the even one, and that decimal is read back as
the nearest double. A result that rounds to zero is the positive zero.

Key definitions: `Number.keptPlaces`, `Number.roundedDecimal`, `Number.rounded`.
Key theorems: `Number.rounded_of_not_isFinite`, `Number.isNegative_rounded`.
-/
import Calculator.Number.Decimal

namespace Calculator
namespace Number

def keptPlaces : Nat := 10

/-- The magnitude of rank `r` rounded to the kept decimals, a half to even. -/
def roundedDecimal (r : Nat) : Decimal :=
  ⟨nearestQuotient (units r * Nat.pow 10 keptPlaces) unitsPerOne, keptPlaces⟩

def roundedRank (r : Nat) : Nat := (roundedDecimal r).rank

/-- The number rounded to the kept decimals; it keeps its sign unless it becomes
zero. Infinite and undefined numbers stay as they are. -/
def rounded (v : Number) : Number :=
  if v.IsFinite then ofRank (isNegative v && roundedRank (rank v) != 0) (roundedRank (rank v))
  else v

theorem rounded_of_not_isFinite {v : Number} (h : ¬ v.IsFinite) : rounded v = v := if_neg h

/-- **No result is -0.** A rounded number with its sign bit set is not zero. -/
theorem isNegative_rounded {v : Number} (h : v.IsFinite) :
    isNegative (rounded v) = (isNegative v && roundedRank (rank v) != 0) := by
  rw [rounded, if_pos h, isNegative_ofRank]

/-- The noise of binary arithmetic goes. -/
example : rounded (0.1 + 0.2) = 0.3 := by decide +kernel

/-- 2^-11 lies halfway between two decimals of ten places; the even one is kept. -/
example : rounded 0.00048828125 = 0.0004882812 := by decide +kernel

end Number
end Calculator
