/-
# Comparing a number with zero

A finite number is taken apart into its sign and a significand, or into its sign alone
if it is a zero; it is a zero just if its rank is 0 (`unpack_of_isFinite`). So the
comparison with zero agrees with the sign bit on every number but -0, which has its
sign bit set and is not below zero.

Key definition: `Number.sign`.
Key theorems: `Number.unpack_of_isFinite`, `Number.lt_zero_iff`, `Number.zero_le_iff`,
`Number.abs_of_lt_zero`.
-/
import Calculator.Proofs.Negation

namespace Calculator
namespace Number

open Float.Model Float.Model.UnpackedFloat

/-! ### Finite bits -/

section Bits
variable {b : BitVec Format.binary64.numBits}

theorem ofBitVec_unpackSign (b : BitVec Format.binary64.numBits) :
    Sign.ofBitVec (unpackSign b) = if 2 ^ 63 ≤ b.toNat then .negative else .positive := by
  have hb : b.toNat < 2 ^ 64 := b.isLt
  have hzero : unpackSign b = 0#1 ↔ ¬ 2 ^ 63 ≤ b.toNat := by
    rw [← BitVec.toNat_inj, toNat_unpackSign, BitVec.toNat_ofNat]
    omega
  rw [Sign.ofBitVec]
  simp only [hzero, ite_not]

/-- Bits with an exponent that is not full are a zero just if they are all clear but
the sign. -/
theorem unpack_of_lt (h : b.toNat % 2 ^ 63 < infiniteRank) :
    (b.toNat % 2 ^ 63 = 0 ∧
        UnpackedFloat.unpack .binary64 b = .zero (Sign.ofBitVec (unpackSign b))) ∨
      (b.toNat % 2 ^ 63 ≠ 0 ∧ ∃ m e hm,
        UnpackedFloat.unpack .binary64 b = .finite (Sign.ofBitVec (unpackSign b)) m e hm) := by
  have hexponent := toNat_unpackExponent b
  have hmantissa := toNat_unpackMantissa b
  -- The rank is zero just if the exponent and the fraction are.
  have hrank : b.toNat % 2 ^ 63 =
      (unpackExponent b).toNat * 2 ^ 52 + (unpackMantissa b).toNat := by omega
  have hnotFull : unpackExponent b ≠ -BitVec.ofNat Format.binary64.exponentBits 1 := by
    intro hfull
    have hvalue : (-BitVec.ofNat Format.binary64.exponentBits 1).toNat = 2047 := rfl
    rw [hfull, hvalue] at hexponent
    unfold infiniteRank at h
    omega
  rw [hrank]
  unfold UnpackedFloat.unpack
  simp only [if_neg hnotFull]
  split
  · rename_i hzero
    split
    · rename_i hzero'
      rw [hzero, hzero']
      exact .inl ⟨rfl, rfl⟩
    · rename_i hne
      have hpos : (unpackMantissa b).toNat ≠ 0 := BitVec.toNat_inj.not.mpr hne
      exact .inr ⟨by omega, _, _, Nat.pos_of_ne_zero hpos, rfl⟩
  · rename_i hne
    have hpos : (unpackExponent b).toNat ≠ 0 := BitVec.toNat_inj.not.mpr hne
    have hsignificand : 0 < (1#1 ++ unpackMantissa b).toNat := by
      rw [BitVec.toNat_append]
      exact Nat.lt_of_lt_of_le (by decide) Nat.left_le_or
    exact .inr ⟨by omega, _, _, hsignificand, rfl⟩

end Bits

/-! ### The comparison -/

variable {v : Number}

/-- The sign as a part of the number. -/
def sign (v : Number) : Sign := if isNegative v then .negative else .positive

/-- **A finite number taken apart**: a zero just if its rank is zero. -/
theorem unpack_of_isFinite (h : v.IsFinite) :
    (rank v = 0 ∧ v.toModel.unpack = .zero (sign v)) ∨
      (rank v ≠ 0 ∧ ∃ m e hm, v.toModel.unpack = .finite (sign v) m e hm) := by
  have hunpack := unpack_of_lt h
  rw [ofBitVec_unpackSign] at hunpack
  rw [sign, isNegative]
  simp only [decide_eq_true_eq]
  exact hunpack

theorem unpack_zero : (0 : Number).toModel.unpack = .zero .positive := rfl

/-- **Below zero** is what has its sign bit set and is not zero. -/
theorem lt_zero_iff (h : v.IsFinite) : v < 0 ↔ isNegative v = true ∧ rank v ≠ 0 := by
  have hlt : v < 0 ↔ v.toModel.unpack.lt (.zero .positive) = true := by
    rw [← unpack_zero]
    exact decide_eq_true_iff
  rw [hlt]
  rcases unpack_of_isFinite h with ⟨hrank, hunpack⟩ | ⟨hrank, m, e, hm, hunpack⟩
  · rw [hunpack]
    simp [hrank, UnpackedFloat.lt, UnpackedFloat.compare]
  · rw [hunpack, sign]
    cases isNegative v <;> simp [hrank, UnpackedFloat.lt, UnpackedFloat.compare]

theorem isNegative_of_lt_zero (h : v.IsFinite) (hlt : v < 0) : isNegative v = true :=
  ((lt_zero_iff h).mp hlt).1

/-- At least zero is what has its sign bit clear or is zero. -/
theorem zero_le_iff (h : v.IsFinite) : 0 ≤ v ↔ isNegative v = false ∨ rank v = 0 := by
  have hle : 0 ≤ v ↔ (UnpackedFloat.zero .positive).le v.toModel.unpack = true := by
    rw [← unpack_zero]
    exact decide_eq_true_iff
  rw [hle]
  rcases unpack_of_isFinite h with ⟨hrank, hunpack⟩ | ⟨hrank, m, e, hm, hunpack⟩
  · rw [hunpack]
    simp [hrank, UnpackedFloat.le, UnpackedFloat.compare]
  · rw [hunpack, sign]
    cases isNegative v <;> simp [hrank, UnpackedFloat.le, UnpackedFloat.compare]

theorem eq_neg_zero (hsign : isNegative v = true) (hrank : rank v = 0) : v = -0.0 := by
  have hfinite : v.IsFinite := by
    rw [IsFinite, hrank]
    decide
  have hv : ofRank (isNegative v) (rank v) = v := ofRank_rank (not_isNaN_of_isFinite hfinite)
  have hzero : ofRank true 0 = -0.0 := by decide +kernel
  rw [← hv, hsign, hrank, hzero]

/-- The sign bit tells what is below zero, unless the number is -0. -/
theorem lt_zero_iff_isNegative (h : v.IsFinite) (hne : v ≠ -0.0) :
    v < 0 ↔ isNegative v = true := by
  rw [lt_zero_iff h]
  exact and_iff_left_of_imp fun hsign hrank => hne (eq_neg_zero hsign hrank)

/-- A number that is at least zero has its sign bit clear, unless it is -0. -/
theorem isNegative_of_zero_le (h : v.IsFinite) (hle : 0 ≤ v) (hne : v ≠ -0.0) :
    isNegative v = false := by
  by_contra hsign
  rw [Bool.not_eq_false] at hsign
  have hrank : rank v = 0 := by simpa [hsign] using (zero_le_iff h).mp hle
  exact hne (eq_neg_zero hsign hrank)

/-- The magnitude of a number below zero is its opposite. -/
theorem abs_of_lt_zero (h : v.IsFinite) (hlt : v < 0) : v.abs = -v := by
  obtain ⟨hsign, hrank⟩ := (lt_zero_iff h).mp hlt
  rcases unpack_of_isFinite h with ⟨hzero, -⟩ | ⟨-, m, e, hm, hunpack⟩
  · exact absurd hzero hrank
  · rw [sign, if_pos hsign] at hunpack
    have hparts : v.toModel.unpack.abs = v.toModel.unpack.neg := by
      rw [hunpack]
      rfl
    exact congrArg (fun u => Float.ofModel (Float.Model.pack u)) hparts

end Number
end Calculator
