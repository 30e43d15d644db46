/-
# A rounded number stays as it is

Rounding to the kept decimals and reading back moves a number, but only once
(`roundedRank_roundedRank`). Where the doubles lie closer together than the kept
decimals, the double nearest to a decimal is nearer to this decimal than to any
other, so the second rounding finds the same decimal. Where they lie farther
apart, a double moves by less than half the way to its neighbours, so it is read
back as itself; the first double of a band, whose neighbour below is only half as
far, is a whole number there and does not move at all.

So every value of a text is a fixed point of the rounding
(`rounded_of_evaluate`).

Key definition: `Number.doublingsAt`.
Key theorems: `two_mul_units_nearestRank`, `nearestRank_eq_of_near`,
`roundedRank_roundedRank`, `rounded_rounded`, `exists_rounded_of_calculate`,
`rounded_of_evaluate`.
-/
import Calculator.Proofs.Calculation
import Calculator.Proofs.Rounding

namespace Calculator
namespace Number

/-! ### How far rounding moves -/

/-- A whole number less than half a unit from the quotient is the rounded one. -/
theorem nearestQuotient_eq_of_near {n d q : Nat} (hd : 0 < d) (hbelow : 2 * (q * d) < 2 * n + d)
    (habove : 2 * n < 2 * (q * d) + d) : nearestQuotient n d = q := by
  obtain ⟨hlow, hhigh⟩ := two_mul_nearestQuotient n d hd
  generalize nearestQuotient n d = q' at *
  have hle : q' * d < (q + 1) * d := by linarith
  have hge : q * d < (q' + 1) * d := by linarith
  have := Nat.lt_of_mul_lt_mul_right hle
  have := Nat.lt_of_mul_lt_mul_right hge
  omega

/-- How often the spacing of the doubles has doubled at `n / d`. -/
def doublingsAt (n d : Nat) : Nat := (n * unitsPerOne / d).log2 - 52

/-- The significand that `n / d` is rounded to. -/
def significandAt (n d : Nat) : Nat :=
  nearestQuotient (n * unitsPerOne) (d * 2 ^ doublingsAt n d)

theorem nearestRank_eq (n d : Nat) :
    nearestRank n d = doublingsAt n d * bandSize + significandAt n d := by
  rw [significandAt, ← Nat.shiftLeft_eq]
  rfl

theorem significandAt_le (n d : Nat) : significandAt n d ≤ 2 * bandSize := by
  refine nearestQuotient_le_of_lt ?_
  rw [← Nat.shiftLeft_eq, div_shiftLeft]
  exact div_two_pow_lt _

theorem le_significandAt {n d : Nat} (h : 0 < doublingsAt n d) : bandSize ≤ significandAt n d := by
  refine le_trans ?_ (div_le_nearestQuotient _ _)
  rw [← Nat.shiftLeft_eq, div_shiftLeft]
  exact le_div_two_pow (Nat.lt_of_sub_pos h)

/-- The magnitude of a rank by its significand and its doublings. The end of a
band is the beginning of the next. -/
theorem units_add {k m : Nat} (hm : m ≤ 2 * bandSize) (h : 0 < k → bandSize ≤ m) :
    units (k * bandSize + m) = m * 2 ^ k := by
  rcases Nat.lt_or_eq_of_le hm with hlt | rfl
  · have hdoublings : doublings (k * bandSize + m) = k := by
      unfold doublings bandSize at *
      omega
    rw [units, hdoublings, Nat.add_sub_cancel_left, Nat.shiftLeft_eq]
  · have hdoublings : doublings (k * bandSize + 2 * bandSize) = k + 1 := by
      unfold doublings bandSize at *
      omega
    have hrest : k * bandSize + 2 * bandSize - (k + 1) * bandSize = bandSize := by
      unfold bandSize
      omega
    rw [units, hdoublings, hrest, Nat.shiftLeft_eq, Nat.pow_succ, Nat.mul_comm 2, Nat.mul_assoc,
      Nat.mul_comm 2]

theorem units_nearestRank (n d : Nat) :
    units (nearestRank n d) = significandAt n d * 2 ^ doublingsAt n d := by
  rw [nearestRank_eq, units_add (significandAt_le n d) le_significandAt]

/-- **The nearest double is within half a spacing.** -/
theorem two_mul_units_nearestRank (n : Nat) {d : Nat} (hd : 0 < d) :
    2 * (n * unitsPerOne) ≤ 2 * (units (nearestRank n d) * d) + d * 2 ^ doublingsAt n d ∧
      2 * (units (nearestRank n d) * d) ≤ 2 * (n * unitsPerOne) + d * 2 ^ doublingsAt n d := by
  have h := two_mul_nearestQuotient (n * unitsPerOne) (d * 2 ^ doublingsAt n d)
    (Nat.mul_pos hd (Nat.two_pow_pos _))
  rw [units_nearestRank, Nat.mul_assoc, Nat.mul_comm _ d]
  exact h

/-- **What is near a double is rounded to it.** A fraction less than half a
spacing from a double is rounded to it, unless the double is the first of its
band. -/
theorem nearestRank_eq_of_near {n d k m : Nat} (hd : 0 < d) (hlow : bandSize < m)
    (hhigh : m < 2 * bandSize) (hbelow : 2 * (m * 2 ^ k * d) < 2 * (n * unitsPerOne) + d * 2 ^ k)
    (habove : 2 * (n * unitsPerOne) < 2 * (m * 2 ^ k * d) + d * 2 ^ k) :
    nearestRank n d = k * bandSize + m := by
  have hdk : 0 < d * 2 ^ k := Nat.mul_pos hd (Nat.two_pow_pos k)
  rw [show m * 2 ^ k * d = m * (d * 2 ^ k) by rw [Nat.mul_assoc, Nat.mul_comm d]] at hbelow habove
  have hlog : (n * unitsPerOne / d).log2 = 52 + k := by
    have hband : bandSize * 2 ^ k ≤ n * unitsPerOne / d := by
      rw [Nat.le_div_iff_mul_le hd, Nat.mul_assoc, Nat.mul_comm _ d]
      have hm : (bandSize + 1) * (d * 2 ^ k) ≤ m * (d * 2 ^ k) := Nat.mul_le_mul_right _ hlow
      linarith
    have hnext : n * unitsPerOne / d < 2 * bandSize * 2 ^ k := by
      rw [Nat.div_lt_iff_lt_mul hd, Nat.mul_assoc, Nat.mul_comm _ d]
      have hm : (m + 1) * (d * 2 ^ k) ≤ 2 * bandSize * (d * 2 ^ k) := Nat.mul_le_mul_right _ hhigh
      linarith
    have hpos : n * unitsPerOne / d ≠ 0 := by
      have : 0 < bandSize * 2 ^ k := Nat.mul_pos (by decide) (Nat.two_pow_pos k)
      omega
    rw [Nat.log2_eq_iff hpos, Nat.pow_add, show 52 + k + 1 = 53 + k by omega, Nat.pow_add]
    exact ⟨hband, hnext⟩
  have hdoublings : doublingsAt n d = k := by
    rw [doublingsAt, hlog, Nat.add_sub_cancel_left]
  rw [nearestRank_eq, significandAt, hdoublings, nearestQuotient_eq_of_near hdk hbelow habove]

/-! ### The kept decimals against the doubles -/

theorem lt_unitExponent : 33 < unitExponent := by
  rw [unitExponent]
  decide

/-- Where the spacing is coarser than the kept decimals, no double moves. -/
theorem roundedRank_of_le_doublings {r : Nat} (h : unitExponent ≤ doublings r + 33) :
    roundedRank r = r := by
  have hexp := lt_unitExponent
  obtain ⟨hlow, hhigh⟩ := significand_bounds r (by unfold doublings bandSize at *; omega)
  have hrank : doublings r * bandSize + (r - doublings r * bandSize) = r := by
    unfold doublings bandSize at *
    omega
  have hunits : units r = (r - doublings r * bandSize) * 2 ^ doublings r := by
    rw [units, Nat.shiftLeft_eq]
  generalize doublings r = k at *
  generalize r - k * bandSize = m at *
  rcases Nat.lt_or_eq_of_le hlow with hlt | rfl
  · have hpow : 0 < Nat.pow 10 keptPlaces := by decide
    have hfine : unitsPerOne < Nat.pow 10 keptPlaces * 2 ^ k :=
      calc unitsPerOne = 2 ^ unitExponent := by rw [unitsPerOne, Nat.one_shiftLeft]
        _ ≤ 2 ^ (k + 33) := Nat.pow_le_pow_right (by decide) h
        _ = 2 ^ 33 * 2 ^ k := by rw [Nat.pow_add, Nat.mul_comm]
        _ < Nat.pow 10 keptPlaces * 2 ^ k := Nat.mul_lt_mul_of_pos_right (by decide) (Nat.two_pow_pos k)
    have herror := two_mul_nearestQuotient (units r * Nat.pow 10 keptPlaces) unitsPerOne unitsPerOne_pos
    have hdecimal : roundedRank r = nearestRank
        (nearestQuotient (units r * Nat.pow 10 keptPlaces) unitsPerOne) (Nat.pow 10 keptPlaces) := rfl
    rw [hdecimal, nearestRank_eq_of_near (k := k) (m := m) hpow hlt hhigh, hrank]
    · rw [← hunits]
      omega
    · rw [← hunits]
      omega
  · -- The neighbour below the first double of a band is too near, but this double is whole.
    refine roundedRank_of_units_eq (k := 2 ^ (52 + k - unitExponent)) ?_
    rw [hunits, unitsPerOne, Nat.one_shiftLeft, ← Nat.pow_add, Nat.sub_add_cancel (by omega),
      Nat.pow_add]
    rfl

/-- Where the spacing is finer than the kept decimals, a decimal that has been
read back is found again. -/
theorem roundedDecimal_of_doublingsAt_le {n : Nat}
    (h : doublingsAt n (Nat.pow 10 keptPlaces) + 34 ≤ unitExponent) :
    roundedDecimal (nearestRank n (Nat.pow 10 keptPlaces)) = ⟨n, keptPlaces⟩ := by
  have hpow : 0 < Nat.pow 10 keptPlaces := by decide
  have herror := two_mul_units_nearestRank n hpow
  have hcoarse : Nat.pow 10 keptPlaces * 2 ^ doublingsAt n (Nat.pow 10 keptPlaces) < unitsPerOne :=
    calc Nat.pow 10 keptPlaces * 2 ^ doublingsAt n (Nat.pow 10 keptPlaces)
        < 2 ^ 34 * 2 ^ doublingsAt n (Nat.pow 10 keptPlaces) :=
          Nat.mul_lt_mul_of_pos_right (by decide) (Nat.two_pow_pos _)
      _ = 2 ^ (doublingsAt n (Nat.pow 10 keptPlaces) + 34) := by rw [Nat.pow_add, Nat.mul_comm]
      _ ≤ 2 ^ unitExponent := Nat.pow_le_pow_right (by decide) h
      _ = unitsPerOne := by rw [unitsPerOne, Nat.one_shiftLeft]
  rw [roundedDecimal, nearestQuotient_eq_of_near (q := n) unitsPerOne_pos (by omega) (by omega)]

/-- **A second rounding changes nothing.** -/
theorem roundedRank_roundedRank (r : Nat) : roundedRank (roundedRank r) = roundedRank r := by
  obtain ⟨n, hdecimal⟩ : ∃ n, roundedDecimal r = ⟨n, keptPlaces⟩ := ⟨_, rfl⟩
  have hround : roundedRank r = nearestRank n (Nat.pow 10 keptPlaces) := by
    rw [roundedRank, hdecimal, Decimal.rank]
  rcases Nat.lt_or_ge (doublingsAt n (Nat.pow 10 keptPlaces) + 33) unitExponent with hfine | hcoarse
  · have hagain := roundedDecimal_of_doublingsAt_le (n := n) hfine
    rw [← hround, ← hdecimal] at hagain
    rw [roundedRank, hagain, roundedRank]
  · refine roundedRank_of_le_doublings (hcoarse.trans (Nat.add_le_add_right ?_ 33))
    have hexp := lt_unitExponent
    have hlow := le_significandAt (n := n) (d := Nat.pow 10 keptPlaces) (by omega)
    rw [hround, nearestRank_eq, doublings]
    unfold bandSize at *
    omega

theorem rank_rounded {v : Number} (h : v.IsFinite) : rank (rounded v) = roundedRank (rank v) := by
  rw [rounded, if_pos h, rank_ofRank]
  exact Nat.min_eq_left (roundedRank_lt h).le

theorem rounded_rounded (v : Number) : rounded (rounded v) = rounded v := by
  by_cases h : v.IsFinite
  · have hsign : (isNegative (rounded v) && roundedRank (rank (rounded v)) != 0) =
        (isNegative v && roundedRank (rank v) != 0) := by
      rw [isNegative_rounded h, rank_rounded h, roundedRank_roundedRank, Bool.and_assoc,
        Bool.and_self]
    rw [rounded, if_pos (isFinite_rounded h), hsign, rank_rounded h, roundedRank_roundedRank]
    exact (if_pos h).symm
  · rw [rounded_of_not_isFinite h]
    exact rounded_of_not_isFinite h

/-- A rounded number that is zero is the positive zero. -/
theorem rounded_ne_neg_zero {v : Number} (h : v.IsFinite) : rounded v ≠ -0.0 := by
  intro hzero
  have hrank := rank_rounded h
  have hsign := isNegative_rounded h
  rw [hzero, show rank (-0.0) = 0 by decide +kernel] at hrank
  rw [hzero, show isNegative (-0.0) = true by decide +kernel, ← hrank, bne_self_eq_false,
    Bool.and_false] at hsign
  cases hsign

end Number

/-- What is shown is a rounded finite number. -/
theorem Machine.shown_eq_ok_iff {u v : Number} :
    shown u = .ok v ↔ u.IsFinite ∧ u.rounded = v := by
  unfold shown
  split <;> rename_i h <;> simp [h]

/-- A value is what some finite number is rounded to. -/
theorem exists_rounded_of_calculate {ctx : Context} {s : String} {v : Number} {w : Working}
    (h : calculate ctx s = .ok (v, w)) : ∃ u : Number, u.IsFinite ∧ u.rounded = v := by
  obtain ⟨_, t, -, -, hresult, -⟩ := calculate_eq_ok_iff.mp h
  obtain ⟨u, -, hshown⟩ := bind_eq_ok_iff.mp hresult
  exact ⟨u, Machine.shown_eq_ok_iff.mp hshown⟩

/-- **Every value is a rounded number.** The value of a text is finite, not -0,
and a fixed point of the rounding, whatever the text, the mode and the variables
are. -/
theorem rounded_of_evaluate {ctx : Context} {s : String} {v : Number}
    (h : evaluate ctx s = .ok v) : v.IsFinite ∧ v ≠ -0.0 ∧ v.rounded = v := by
  obtain ⟨⟨v', w⟩, hcalculate, rfl⟩ := map_eq_ok_iff.mp h
  obtain ⟨u, hu, rfl⟩ := exists_rounded_of_calculate hcalculate
  exact ⟨Number.isFinite_rounded hu, Number.rounded_ne_neg_zero hu, Number.rounded_rounded u⟩

/-- A variable that rounds to zero from below, while the other is undefined. -/
theorem rounded_of_evaluate_tiny :
    evaluate ⟨.degrees, -1e-13, Number.nan⟩ "x" = .ok 0 ∧
      Number.IsFinite 0 ∧ (0 : Number) ≠ -0.0 ∧ Number.rounded 0 = 0 := by
  have h : evaluate ⟨.degrees, -1e-13, Number.nan⟩ "x" = .ok 0 := by decide +kernel
  exact ⟨h, rounded_of_evaluate h⟩

end Calculator
