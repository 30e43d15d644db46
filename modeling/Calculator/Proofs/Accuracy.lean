/-
# Rounding is faithful

A finite number is a fraction, exactly: a sign and a magnitude that is a multiple of
2^-1074. The magnitudes rise with their ranks, each by the spacing at its rank
(`valueAt_succ`), so ranks are compared instead of magnitudes. Rounding to the kept
decimals keeps the order of the ranks and the sign; it moves a number by half a kept
decimal at most, and reading back by half a spacing of the result
(`abs_valueAt_roundedRank_sub_le`). From 2^19 on the doubles lie farther apart than the
kept decimals, and nothing moves (`roundedRank_of_le_valueAt`).

Key definitions: `Number.valueAt`, `Number.spacingAt`, `Number.toRat`, `Number.ulp`.
Key theorems: `Number.valueAt_succ`, `Number.valueAt_le_iff`, `Number.toRat_rounded`,
`Number.abs_valueAt_roundedRank_sub_le`, `Number.rounded_faithful`.
-/
import Calculator.Proofs.Comparison
import Calculator.Proofs.Idempotence

namespace Calculator
namespace Number

/-! ### Exact magnitudes -/

/-- The magnitude of rank `r`, exactly. -/
def valueAt (r : Nat) : ℚ := units r / unitsPerOne

/-- How far the magnitude of rank `r` is from the next one. -/
def spacingAt (r : Nat) : ℚ := 2 ^ doublings r / unitsPerOne

theorem cast_unitsPerOne_pos : (0 : ℚ) < unitsPerOne := Nat.cast_pos.mpr unitsPerOne_pos

theorem units_succ (r : Nat) : units (r + 1) = units r + 2 ^ doublings r := by
  have hband : doublings r * bandSize ≤ r := by unfold doublings bandSize; omega
  have hhigh : r - doublings r * bandSize + 1 ≤ 2 * bandSize := by
    unfold doublings bandSize
    omega
  have hlow : 0 < doublings r → bandSize ≤ r - doublings r * bandSize := by
    unfold doublings bandSize
    omega
  have hunits : units r = (r - doublings r * bandSize) * 2 ^ doublings r := by
    rw [units, Nat.shiftLeft_eq]
  have hnext := units_add hhigh fun h => (hlow h).trans (Nat.le_succ _)
  rw [← Nat.add_assoc, Nat.add_sub_cancel' hband] at hnext
  rw [hnext, hunits, Nat.add_mul, Nat.one_mul]

/-- **The spacing is the way to the next magnitude.** -/
theorem valueAt_succ (r : Nat) : valueAt (r + 1) = valueAt r + spacingAt r := by
  rw [valueAt, valueAt, spacingAt, units_succ, ← add_div]
  push_cast
  rfl

theorem units_strictMono : StrictMono units := strictMono_nat_of_lt_succ fun r => by
  rw [units_succ]
  exact Nat.lt_add_of_pos_right (Nat.two_pow_pos _)

theorem valueAt_strictMono : StrictMono valueAt := fun _ _ h =>
  div_lt_div_of_pos_right (Nat.cast_lt.mpr (units_strictMono h)) cast_unitsPerOne_pos

/-- Magnitudes are in the order of their ranks. -/
theorem valueAt_le_iff {r s : Nat} : valueAt r ≤ valueAt s ↔ r ≤ s := valueAt_strictMono.le_iff_le

theorem valueAt_zero : valueAt 0 = 0 := by
  rw [valueAt, units_of_lt 0 (by decide), Nat.cast_zero, zero_div]

theorem valueAt_nonneg (r : Nat) : 0 ≤ valueAt r := by
  rw [← valueAt_zero]
  exact valueAt_le_iff.mpr (Nat.zero_le r)

theorem valueAt_le_zero_iff {r : Nat} : valueAt r ≤ 0 ↔ r = 0 := by
  rw [← valueAt_zero, valueAt_le_iff, Nat.le_zero]

/-! ### Rounding a magnitude -/

theorem roundedRank_zero : roundedRank 0 = 0 :=
  roundedRank_of_units_eq (k := 0) (by rw [units_of_lt 0 (by decide), Nat.zero_mul])

/-- The spacing at the rank that is read back is no finer than the one it was found with. -/
theorem doublingsAt_le_doublings (n d : Nat) : doublingsAt n d ≤ doublings (nearestRank n d) := by
  have hlow := @le_significandAt n d
  rw [nearestRank_eq]
  unfold doublings bandSize at *
  omega

/-- In units: the decimal is within half a kept decimal of the magnitude, and the double
that is read back within half a spacing of the decimal. -/
theorem units_roundedRank_near (r : Nat) :
    2 * (units r * Nat.pow 10 keptPlaces) ≤ 2 * (units (roundedRank r) * Nat.pow 10 keptPlaces) +
        (unitsPerOne + Nat.pow 10 keptPlaces * 2 ^ doublings (roundedRank r)) ∧
      2 * (units (roundedRank r) * Nat.pow 10 keptPlaces) ≤ 2 * (units r * Nat.pow 10 keptPlaces) +
        (unitsPerOne + Nat.pow 10 keptPlaces * 2 ^ doublings (roundedRank r)) := by
  have hpow : 0 < Nat.pow 10 keptPlaces := by decide
  obtain ⟨n, hn⟩ : ∃ n, nearestQuotient (units r * Nat.pow 10 keptPlaces) unitsPerOne = n :=
    ⟨_, rfl⟩
  have hround : roundedRank r = nearestRank n (Nat.pow 10 keptPlaces) := by
    rw [← hn]
    rfl
  have hdecimal :=
    two_mul_nearestQuotient (units r * Nat.pow 10 keptPlaces) unitsPerOne unitsPerOne_pos
  have hread := two_mul_units_nearestRank n hpow
  have hspacing := Nat.mul_le_mul_left (Nat.pow 10 keptPlaces)
    (Nat.pow_le_pow_right (n := 2) (by decide) (doublingsAt_le_doublings n (Nat.pow 10 keptPlaces)))
  rw [hn] at hdecimal
  rw [← hround] at hread hspacing
  exact ⟨by linarith [hdecimal.1, hread.1], by linarith [hdecimal.2, hread.2]⟩

/-- **How far rounding moves a magnitude**: by half a kept decimal, and by half a spacing
where the result is read back. -/
theorem abs_valueAt_roundedRank_sub_le (r : Nat) :
    |valueAt (roundedRank r) - valueAt r| ≤ 1 / 2 * (1 / 10) ^ 10 + spacingAt (roundedRank r) / 2 := by
  have hU := cast_unitsPerOne_pos
  have hten : ((Nat.pow 10 keptPlaces : Nat) : ℚ) = 10 ^ 10 := by norm_num [keptPlaces]
  obtain ⟨hbelow, habove⟩ := units_roundedRank_near r
  qify at hbelow habove
  rw [hten] at hbelow habove
  calc |valueAt (roundedRank r) - valueAt r|
      = |(units (roundedRank r) : ℚ) - units r| / unitsPerOne := by
        rw [valueAt, valueAt, ← sub_div, abs_div, abs_of_pos hU]
    _ ≤ ((unitsPerOne : ℚ) / 10 ^ 10 + 2 ^ doublings (roundedRank r)) / 2 / unitsPerOne := by
        refine div_le_div_of_nonneg_right (abs_le.mpr ⟨?_, ?_⟩) hU.le <;> linarith
    _ = 1 / 2 * (1 / 10) ^ 10 + spacingAt (roundedRank r) / 2 := by
        rw [spacingAt]
        field_simp

/-- **From 2^19 on nothing moves.** There the spacing is more than a kept decimal. -/
theorem roundedRank_of_le_valueAt {r : Nat} (h : 2 ^ 19 ≤ valueAt r) : roundedRank r = r := by
  refine roundedRank_of_le_doublings ?_
  by_contra hfine
  have hunits : 2 ^ 19 * unitsPerOne ≤ units r := by
    rw [valueAt, le_div_iff₀ cast_unitsPerOne_pos] at h
    exact_mod_cast h
  have hband : units r < 2 ^ (doublings r + 53) := by
    have hsignificand : r - doublings r * bandSize < 2 ^ 53 := by
      unfold doublings bandSize
      omega
    rw [units, Nat.shiftLeft_eq, Nat.add_comm, Nat.pow_add]
    exact Nat.mul_lt_mul_of_pos_right hsignificand (Nat.two_pow_pos _)
  have hsmall : 2 ^ (doublings r + 53) ≤ 2 ^ 19 * unitsPerOne := by
    rw [unitsPerOne, Nat.one_shiftLeft, ← Nat.pow_add]
    exact Nat.pow_le_pow_right (by decide) (by omega)
  omega

/-! ### Numbers as fractions -/

/-- The value of a finite number, exactly. -/
def toRat (v : Number) : ℚ := if isNegative v then -valueAt (rank v) else valueAt (rank v)

/-- The distance from a finite number to the next one of larger magnitude. -/
def ulp (v : Number) : ℚ := spacingAt (rank v)

theorem abs_toRat (v : Number) : |toRat v| = valueAt (rank v) := by
  unfold toRat
  split
  · rw [abs_neg, abs_of_nonneg (valueAt_nonneg _)]
  · exact abs_of_nonneg (valueAt_nonneg _)

variable {v w : Number}

/-- The opposite number is the opposite fraction. -/
theorem toRat_neg (h : v.IsFinite) : toRat (-v) = -toRat v := by
  obtain ⟨hrank, hsign⟩ := rank_and_isNegative_neg (not_isNaN_of_isFinite h)
  rw [toRat, toRat, hrank, hsign]
  cases isNegative v <;> simp

/-- **Rounding keeps the sign and rounds the magnitude.** Only a result that is zero loses
its sign. -/
theorem toRat_rounded (h : v.IsFinite) : toRat (rounded v) =
    if isNegative v then -valueAt (roundedRank (rank v)) else valueAt (roundedRank (rank v)) := by
  rw [toRat, isNegative_rounded h, rank_rounded h]
  by_cases hzero : roundedRank (rank v) = 0
  · simp [hzero, valueAt_zero]
  · simp [hzero]

/-- **Rounding is monotone.** -/
theorem toRat_rounded_mono (hv : v.IsFinite) (hw : w.IsFinite) (h : toRat v ≤ toRat w) :
    toRat (rounded v) ≤ toRat (rounded w) := by
  have hvpos := valueAt_nonneg (rank v)
  have hwpos := valueAt_nonneg (rank w)
  have hrvpos := valueAt_nonneg (roundedRank (rank v))
  have hrwpos := valueAt_nonneg (roundedRank (rank w))
  rw [toRat_rounded hv, toRat_rounded hw]
  unfold toRat at h
  cases hvsign : isNegative v <;> cases hwsign : isNegative w <;>
    simp only [hvsign, hwsign, if_true, Bool.false_eq_true, if_false, neg_le_neg_iff,
      valueAt_le_iff] at h ⊢
  · exact roundedRank_mono h
  · -- A magnitude is at most the opposite of another only if both are zero.
    have hvzero : rank v = 0 := valueAt_le_zero_iff.mp (by linarith)
    have hwzero : rank w = 0 := valueAt_le_zero_iff.mp (by linarith)
    simp [hvzero, hwzero, roundedRank_zero, valueAt_zero]
  · linarith
  · exact roundedRank_mono h

/-- **Rounding is odd.** -/
theorem toRat_rounded_neg (h : v.IsFinite) : toRat (rounded (-v)) = -toRat (rounded v) := by
  obtain ⟨hrank, hsign⟩ := rank_and_isNegative_neg (not_isNaN_of_isFinite h)
  rw [toRat_rounded (isFinite_neg h), toRat_rounded h, hrank, hsign]
  cases isNegative v <;> simp

theorem rounded_of_le_abs_toRat (h : v.IsFinite) (hlarge : 2 ^ 19 ≤ |toRat v|) : rounded v = v := by
  rw [abs_toRat] at hlarge
  have hround := roundedRank_of_le_valueAt hlarge
  have hne : rank v ≠ 0 := by
    intro hzero
    rw [hzero, valueAt_zero] at hlarge
    norm_num at hlarge
  rw [rounded, if_pos h, hround, bne_iff_ne.mpr hne, Bool.and_true]
  exact ofRank_rank (not_isNaN_of_isFinite h)

/-- The last double below 2^19 lies between two kept decimals and is not the nearest to
either. -/
example : rounded 524287.99999999994 = 524287.9999999999 ∧
    (524287.9999999999 : Number) ≠ 524287.99999999994 := by decide +kernel

theorem abs_toRat_rounded_sub_le (h : v.IsFinite) :
    |toRat (rounded v) - toRat v| ≤ 1 / 2 * (1 / 10) ^ 10 + ulp (rounded v) / 2 := by
  have hmoved := abs_valueAt_roundedRank_sub_le (rank v)
  rw [toRat_rounded h, toRat, ulp, rank_rounded h]
  split
  · rwa [← neg_add', abs_neg, ← sub_eq_add_neg]
  · exact hmoved

/-- A result that is zero is the positive zero. -/
theorem rounded_eq_zero_of_toRat (h : v.IsFinite) (hzero : toRat (rounded v) = 0) : rounded v = 0 := by
  have hrank : roundedRank (rank v) = 0 := by
    rw [← rank_rounded h, ← valueAt_le_zero_iff, ← abs_toRat, hzero, abs_zero]
  rw [rounded, if_pos h, hrank, bne_self_eq_false, Bool.and_false]
  decide +kernel

/-- **Rounding is faithful.** On the finite numbers, taken exactly, it is monotone and odd;
it leaves every number of magnitude 2^19 or more as it is; its result is finite, and
differs from the number by half a kept decimal and half an ulp of the result at most;
and each of its zeros is the positive one. -/
theorem rounded_faithful (hv : v.IsFinite) (hw : w.IsFinite) :
    (toRat v ≤ toRat w → toRat (rounded v) ≤ toRat (rounded w)) ∧
      toRat (rounded (-v)) = -toRat (rounded v) ∧
      (2 ^ 19 ≤ |toRat v| → rounded v = v) ∧
      (rounded v).IsFinite ∧
      |toRat (rounded v) - toRat v| ≤ 1 / 2 * (1 / 10) ^ 10 + ulp (rounded v) / 2 ∧
      (toRat (rounded v) = 0 → rounded v = 0) :=
  ⟨toRat_rounded_mono hv hw, toRat_rounded_neg hv, rounded_of_le_abs_toRat hv,
    isFinite_rounded hv, abs_toRat_rounded_sub_le hv, rounded_eq_zero_of_toRat hv⟩

/-- A magnitude halfway between two kept decimals, the first double above 2^19, and a
number that rounds to zero from below. -/
theorem rounded_faithful_of_half :
    let half : Number := -0.00048828125
    let large : Number := 524288.00000000012
    let tiny : Number := -1e-11
    half.IsFinite ∧ large.IsFinite ∧ toRat half ≤ toRat large ∧
      toRat (rounded half) ≤ toRat (rounded large) ∧
      toRat (rounded (-half)) = -toRat (rounded half) ∧
      rounded large = large ∧ rounded tiny = 0 ∧
      |toRat (rounded half) - toRat half| ≤ 1 / 2 * (1 / 10) ^ 10 + ulp (rounded half) / 2 := by
  intro half large tiny
  have hhalf : half.IsFinite := by decide +kernel
  have hlarge : large.IsFinite := by decide +kernel
  have htiny : tiny.IsFinite := by decide +kernel
  have hle : toRat half ≤ toRat large := by decide +kernel
  have hbound : 2 ^ 19 ≤ |toRat large| := by decide +kernel
  have hzero : toRat (rounded tiny) = 0 := by decide +kernel
  obtain ⟨hmono, hodd, -, -, herror, -⟩ := rounded_faithful hhalf hlarge
  obtain ⟨-, -, hsame, -, -, -⟩ := rounded_faithful hlarge hhalf
  obtain ⟨-, -, -, -, -, hpositive⟩ := rounded_faithful htiny hhalf
  exact ⟨hhalf, hlarge, hle, hmono hle, hodd, hsame hbound, hpositive hzero, herror⟩

end Number
end Calculator
