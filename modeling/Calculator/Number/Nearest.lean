/-
# Rounding a fraction to the nearest number

`nearestQuotient n d` is the whole number nearest to `n / d`, and the even one
of two equally near. `nearestRank n d` is the rank of the double nearest to
`n / d`, found by one such rounding: the fraction is counted in units of 2^-1074,
and from 2^53 units on in as many doublings of the unit as bring the count back
below 2^53. A count that rounds up to 2^53 is the first of the next band, and
the rank formula says so without a case of its own. Large fractions get a rank
past the infinite one, which `ofRank` reads as infinite.

Key definitions: `Number.nearestQuotient`, `Number.nearestRank`.
Key theorems: `Number.two_mul_nearestQuotient`, `Number.nearestRank_units`.
-/
import Calculator.Number.Basic

namespace Calculator
namespace Number

/-- `n / d` rounded to the nearest whole number, a half to the even neighbour. -/
def nearestQuotient (n d : Nat) : Nat :=
  if 2 * (n % d) < d ∨ (2 * (n % d) = d ∧ n / d % 2 = 0) then n / d else n / d + 1

/-- The rank of the double nearest to `n / d`, ties to the even rank. -/
def nearestRank (n d : Nat) : Nat :=
  let doubled := (n * unitsPerOne / d).log2 - 52
  doubled * bandSize + nearestQuotient (n * unitsPerOne) (d <<< doubled)

/-- The number nearest to `n / d`. -/
def ofFraction (negative : Bool) (n d : Nat) : Number := ofRank negative (nearestRank n d)

/-- A rounded quotient is within half a unit of the quotient. -/
theorem two_mul_nearestQuotient (n d : Nat) (hd : 0 < d) :
    2 * n ≤ 2 * (nearestQuotient n d * d) + d ∧ 2 * (nearestQuotient n d * d) ≤ 2 * n + d := by
  have hm := Nat.mod_lt n hd
  have hn := Nat.div_add_mod n d
  rw [Nat.mul_comm] at hn
  unfold nearestQuotient
  split
  · omega
  · rw [Nat.add_mul]; omega

@[simp] theorem nearestQuotient_mul (n d : Nat) (hd : 0 < d) : nearestQuotient (n * d) d = n := by
  unfold nearestQuotient
  simp [Nat.mul_mod_left, hd]

theorem nearestQuotient_mul_right (n d m : Nat) (hm : 0 < m) :
    nearestQuotient (n * m) (d * m) = nearestQuotient n d := by
  unfold nearestQuotient
  simp only [Nat.mul_mod_mul_right, Nat.mul_div_mul_right _ _ hm, ← Nat.mul_assoc,
    Nat.mul_lt_mul_right hm, Nat.mul_right_cancel_iff hm]

/-- The rank depends on the fraction only, not on how it is written. -/
theorem nearestRank_mul_right (n d m : Nat) (hm : 0 < m) :
    nearestRank (n * m) (d * m) = nearestRank n d := by
  unfold nearestRank
  rw [show n * m * unitsPerOne = n * unitsPerOne * m by
    rw [Nat.mul_assoc, Nat.mul_comm m, Nat.mul_assoc], Nat.mul_div_mul_right _ _ hm]
  simp only [Nat.shiftLeft_eq]
  generalize 2 ^ ((n * unitsPerOne / d).log2 - 52) = p
  rw [show d * m * p = d * p * m by rw [Nat.mul_assoc, Nat.mul_comm m, Nat.mul_assoc],
    nearestQuotient_mul_right _ _ _ hm]

/-- Ranks of the first two bands are their own units. -/
theorem units_of_lt (r : Nat) (hr : r < 2 * bandSize) : units r = r := by
  have hd : doublings r = 0 := by
    unfold doublings bandSize at *
    omega
  simp [units, hd]

/-- In a later band the significand has 53 digits. -/
theorem significand_bounds (r : Nat) (hr : 2 * bandSize ≤ r) :
    bandSize ≤ r - doublings r * bandSize ∧ r - doublings r * bandSize < 2 * bandSize := by
  unfold doublings bandSize at *
  omega

theorem log2_units_of_lt (r : Nat) (hr : r < 2 * bandSize) : (units r).log2 - 52 = 0 := by
  rw [units_of_lt r hr]
  rcases Nat.eq_zero_or_pos r with rfl | hpos
  · rfl
  · have := (Nat.log2_lt (k := 53) (by omega)).mpr hr
    omega

theorem log2_units_of_le (r : Nat) (hr : 2 * bandSize ≤ r) :
    (units r).log2 - 52 = doublings r := by
  obtain ⟨hlo, hhi⟩ := significand_bounds r hr
  have hpos := Nat.two_pow_pos (doublings r)
  have : (units r).log2 = 52 + doublings r := by
    rw [units, Nat.shiftLeft_eq, Nat.log2_eq_iff]
    · rw [Nat.pow_add, show 2 ^ (52 + doublings r + 1) = 2 ^ 53 * 2 ^ doublings r by
        rw [← Nat.pow_add]; congr 1; omega]
      exact ⟨Nat.mul_le_mul_right _ hlo, Nat.mul_lt_mul_of_pos_right hhi hpos⟩
    · refine Nat.mul_ne_zero ?_ (by omega)
      unfold bandSize at *
      omega
  omega

/-- **Rounding gives back the doubles.** A magnitude that is a double's is
rounded to that double. -/
theorem nearestRank_units (r : Nat) : nearestRank (units r) unitsPerOne = r := by
  have hU := unitsPerOne_pos
  unfold nearestRank
  simp only [Nat.mul_div_cancel _ hU]
  rcases Nat.lt_or_ge r (2 * bandSize) with hr | hr
  · rw [log2_units_of_lt r hr, units_of_lt r hr]
    simp [nearestQuotient_mul _ _ hU]
  · rw [log2_units_of_le r hr, units, Nat.shiftLeft_eq, Nat.shiftLeft_eq, Nat.mul_assoc,
      Nat.mul_comm (2 ^ doublings r),
      nearestQuotient_mul _ _ (Nat.mul_pos hU (Nat.two_pow_pos _))]
    have := (significand_bounds r hr).1
    unfold bandSize at *
    omega

end Number
end Calculator
