/-
# Rounding keeps the order

Rounding a fraction, to a whole number or to a double, keeps the order of the
fractions (`nearestQuotient_mono`, `nearestRank_mono`). So rounding to the kept
decimals keeps the order of the magnitudes; it leaves the largest finite
magnitude as it is, and no finite number becomes infinite (`isFinite_rounded`).

Key theorems: `nearestQuotient_mono`, `nearestRank_mono`, `roundedRank_mono`,
`isFinite_rounded`.
-/
import Mathlib.Tactic.Linarith
import Calculator.Rpn.Machine

namespace Calculator
namespace Number

/-! ### Rounding to a whole number -/

theorem div_le_nearestQuotient (n d : Nat) : n / d ≤ nearestQuotient n d := by
  unfold nearestQuotient
  split <;> omega

theorem nearestQuotient_le_of_lt {n d k : Nat} (h : n / d < k) : nearestQuotient n d ≤ k := by
  unfold nearestQuotient
  split <;> omega

/-- Two fractions less than one apart may have the same half between them, but
equal fractions are rounded alike. -/
theorem nearestQuotient_mono {n d n' d' : Nat} (hd : 0 < d) (hd' : 0 < d')
    (h : n * d' ≤ n' * d) : nearestQuotient n d ≤ nearestQuotient n' d' := by
  rcases Nat.lt_or_eq_of_le h with hlt | heq
  · by_contra hgt
    have hlow := (two_mul_nearestQuotient n d hd).2
    have hhigh := (two_mul_nearestQuotient n' d' hd').1
    generalize nearestQuotient n d = q at *
    generalize nearestQuotient n' d' = q' at *
    have hstep : (q' + 1) * d ≤ q * d := Nat.mul_le_mul_right d (by omega)
    have hbelow : (2 * q' + 1) * d ≤ 2 * n := by linarith
    have habove : 2 * n' ≤ (2 * q' + 1) * d' := by linarith
    have : (2 * q' + 1) * d * d' < (2 * q' + 1) * d * d' :=
      calc (2 * q' + 1) * d * d' ≤ 2 * n * d' := Nat.mul_le_mul_right d' hbelow
        _ < 2 * n' * d := by linarith
        _ ≤ (2 * q' + 1) * d' * d := Nat.mul_le_mul_right d habove
        _ = (2 * q' + 1) * d * d' := Nat.mul_right_comm ..
    exact absurd this (Nat.lt_irrefl _)
  · rw [← nearestQuotient_mul_right n d d' hd', heq, Nat.mul_comm d,
      nearestQuotient_mul_right n' d' d hd]

theorem div_le_div_of_mul_le_mul {n d n' d' : Nat} (hd : 0 < d) (hd' : 0 < d')
    (h : n * d' ≤ n' * d) : n / d ≤ n' / d' := by
  refine (Nat.le_div_iff_mul_le hd').mpr (Nat.le_of_mul_le_mul_right ?_ hd)
  calc n / d * d' * d = n / d * d * d' := Nat.mul_right_comm ..
    _ ≤ n * d' := Nat.mul_le_mul_right _ (Nat.div_mul_le_self n d)
    _ ≤ n' * d := h

/-! ### Rounding to a double -/

theorem div_shiftLeft (n d k : Nat) : n / (d <<< k) = n / d / 2 ^ k := by
  rw [Nat.shiftLeft_eq, Nat.div_div_eq_div_mul]

theorem log2_mono {a b : Nat} (h : a ≤ b) : a.log2 ≤ b.log2 := by
  rcases Nat.eq_zero_or_pos a with rfl | hpos
  · exact Nat.zero_le _
  · exact (Nat.le_log2 (by omega)).mpr ((Nat.log2_self_le (by omega)).trans h)

/-- The significand has at most 53 digits before it is rounded. -/
theorem div_two_pow_lt (a : Nat) : a / 2 ^ (a.log2 - 52) < 2 * bandSize := by
  have hlog : a < 2 ^ (a.log2 + 1) := Nat.lt_log2_self
  rw [Nat.div_lt_iff_lt_mul (Nat.two_pow_pos _)]
  calc a < 2 ^ (a.log2 + 1) := hlog
    _ ≤ 2 ^ (53 + (a.log2 - 52)) := Nat.pow_le_pow_right (by decide) (by omega)
    _ = 2 * bandSize * 2 ^ (a.log2 - 52) := Nat.pow_add ..

/-- And 53 digits at least, once the unit has doubled. -/
theorem le_div_two_pow {a : Nat} (h : 52 < a.log2) : bandSize ≤ a / 2 ^ (a.log2 - 52) := by
  have hlog : 2 ^ a.log2 ≤ a := Nat.log2_self_le fun h0 => by simp [h0] at h
  rw [Nat.le_div_iff_mul_le (Nat.two_pow_pos _)]
  calc bandSize * 2 ^ (a.log2 - 52) = 2 ^ (52 + (a.log2 - 52)) := by rw [Nat.pow_add]; rfl
    _ = 2 ^ a.log2 := by congr 1; omega
    _ ≤ a := hlog

/-- **Rounding keeps the order.** Fractions in the same band are compared by their
rounded significands, others by their bands. -/
theorem nearestRank_mono {n d n' d' : Nat} (hd : 0 < d) (hd' : 0 < d') (h : n * d' ≤ n' * d) :
    nearestRank n d ≤ nearestRank n' d' := by
  have hscaled : n * unitsPerOne * d' ≤ n' * unitsPerOne * d := by
    rw [Nat.mul_right_comm, Nat.mul_right_comm n']
    exact Nat.mul_le_mul_right _ h
  have hupper := div_two_pow_lt (n * unitsPerOne / d)
  have hlower := @le_div_two_pow (n' * unitsPerOne / d')
  have hlog := log2_mono (div_le_div_of_mul_le_mul hd hd' hscaled)
  unfold nearestRank
  rw [← div_shiftLeft] at hupper hlower
  generalize (n * unitsPerOne / d).log2 = k at *
  generalize (n' * unitsPerOne / d').log2 = k' at *
  by_cases hband : k - 52 = k' - 52
  · simp only [hband]
    refine Nat.add_le_add_left (nearestQuotient_mono ?_ ?_ ?_) _
    · rw [Nat.shiftLeft_eq]
      exact Nat.mul_pos hd (Nat.two_pow_pos _)
    · rw [Nat.shiftLeft_eq]
      exact Nat.mul_pos hd' (Nat.two_pow_pos _)
    · rw [Nat.shiftLeft_eq, Nat.shiftLeft_eq, ← Nat.mul_assoc, ← Nat.mul_assoc]
      exact Nat.mul_le_mul_right _ hscaled
  · have hdown := nearestQuotient_le_of_lt hupper
    have hup := (hlower (by omega)).trans (div_le_nearestQuotient ..)
    have hbands : k - 52 + 1 ≤ k' - 52 := by omega
    have hsize := Nat.mul_le_mul_right bandSize hbands
    rw [Nat.add_mul, Nat.one_mul] at hsize
    simp only
    omega

/-! ### Rounding to the kept decimals -/

/-- A larger rank stands for a larger magnitude. -/
theorem units_mono {r r' : Nat} (h : r ≤ r') : units r ≤ units r' := by
  have hband : doublings r ≤ doublings r' := Nat.sub_le_sub_right (Nat.div_le_div_right h) 1
  simp only [units, Nat.shiftLeft_eq]
  rcases Nat.lt_or_eq_of_le hband with hlt | heq
  · have hbelow : r - doublings r * bandSize ≤ 2 * bandSize := by
      unfold doublings bandSize
      omega
    have habove := (significand_bounds r' (by unfold doublings bandSize at *; omega)).1
    calc (r - doublings r * bandSize) * 2 ^ doublings r
        ≤ 2 * bandSize * 2 ^ doublings r := Nat.mul_le_mul_right _ hbelow
      _ = bandSize * 2 ^ (doublings r + 1) := by
          rw [Nat.pow_succ, Nat.mul_assoc, Nat.mul_left_comm, Nat.mul_comm 2]
      _ ≤ bandSize * 2 ^ doublings r' := Nat.mul_le_mul_left _ (Nat.pow_le_pow_right (by decide) hlt)
      _ ≤ (r' - doublings r' * bandSize) * 2 ^ doublings r' := Nat.mul_le_mul_right _ habove
  · rw [heq]
    exact Nat.mul_le_mul_right _ (Nat.sub_le_sub_right h _)

/-- **A larger magnitude is not rounded to a smaller one.** -/
theorem roundedRank_mono {r r' : Nat} (h : r ≤ r') : roundedRank r ≤ roundedRank r' := by
  have hpow : 0 < Nat.pow 10 keptPlaces := Nat.pow_pos (by decide)
  refine nearestRank_mono hpow hpow (Nat.mul_le_mul_right _ ?_)
  refine nearestQuotient_mono unitsPerOne_pos unitsPerOne_pos (Nat.mul_le_mul_right _ ?_)
  exact Nat.mul_le_mul_right _ (units_mono h)

/-- From 2^52 on, magnitudes are whole numbers. -/
theorem units_eq_mul_unitsPerOne {r : Nat} (h : unitExponent ≤ doublings r) :
    units r = (r - doublings r * bandSize) * 2 ^ (doublings r - unitExponent) * unitsPerOne := by
  rw [units, unitsPerOne, Nat.shiftLeft_eq, Nat.shiftLeft_eq, Nat.one_mul, Nat.mul_assoc,
    ← Nat.pow_add, Nat.sub_add_cancel h]

/-- Whole numbers are kept. -/
theorem roundedRank_of_units_eq {r k : Nat} (h : units r = k * unitsPerOne) : roundedRank r = r := by
  have hpow : 0 < Nat.pow 10 keptPlaces := Nat.pow_pos (by decide)
  have hwhole : roundedDecimal r = ⟨k * Nat.pow 10 keptPlaces, keptPlaces⟩ := by
    rw [roundedDecimal, h, Nat.mul_right_comm, nearestQuotient_mul _ _ unitsPerOne_pos]
  rw [roundedRank, hwhole, Decimal.rank]
  calc nearestRank (k * Nat.pow 10 keptPlaces) (Nat.pow 10 keptPlaces)
      = nearestRank (k * Nat.pow 10 keptPlaces) (1 * Nat.pow 10 keptPlaces) := by rw [Nat.one_mul]
    _ = nearestRank k 1 := nearestRank_mul_right _ _ _ hpow
    _ = nearestRank (k * unitsPerOne) (1 * unitsPerOne) :=
        (nearestRank_mul_right _ _ _ unitsPerOne_pos).symm
    _ = nearestRank (units r) unitsPerOne := by rw [h, Nat.one_mul]
    _ = r := nearestRank_units r

/-- **Rounding does not overflow.** -/
theorem roundedRank_lt {r : Nat} (h : r < infiniteRank) : roundedRank r < infiniteRank := by
  have hwhole : unitExponent ≤ doublings (infiniteRank - 1) := by
    rw [unitExponent]
    decide
  have hlargest := roundedRank_of_units_eq (units_eq_mul_unitsPerOne hwhole)
  have hmono := roundedRank_mono (Nat.le_sub_one_of_lt h)
  have hpos : 0 < infiniteRank := by decide
  omega

theorem isFinite_rounded {v : Number} (h : v.IsFinite) : (rounded v).IsFinite := by
  have hrank := roundedRank_lt h
  rw [rounded, if_pos h, IsFinite, rank_ofRank]
  omega

end Number

/-- What is shown is finite. -/
theorem Machine.isFinite_of_shown {u v : Number} (h : shown u = .ok v) : v.IsFinite := by
  unfold shown at h
  split at h
  · rename_i hu
    cases h
    exact Number.isFinite_rounded hu
  · cases h

end Calculator
