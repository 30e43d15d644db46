/-
# Changing the sign of a number

The bits of a number are a sign, an exponent and a fraction. Numbers that differ
in the sign only are taken apart into the same magnitude (`neg_unpack`), so the
negative of a number is the number of the same rank with the other sign
(`neg_ofRank`). An undefined number has no sign, and its negative is undefined too.

Key theorems: `neg_unpack`, `neg_ofRank`, `ofRank_rank`, `unpack_neg`.
-/
import Mathlib
import Calculator.Number.Basic

namespace Calculator
namespace Number

open Float.Model Float.Model.UnpackedFloat

/-! ### The parts of the bits -/

section Parts
variable (b : BitVec Format.binary64.numBits)

theorem toNat_unpackSign : (unpackSign b).toNat = b.toNat / 2 ^ 63 := by
  have hb : b.toNat < 2 ^ 64 := b.isLt
  have hwidth : Format.binary64.mantissaBitsWithoutImplicit + Format.binary64.exponentBits = 63 := rfl
  rw [unpackSign_def, BitVec.extractLsb'_toNat, Nat.shiftRight_eq_div_pow, hwidth]
  omega

theorem toNat_unpackExponent : (unpackExponent b).toNat = b.toNat / 2 ^ 52 % 2 ^ 11 := by
  rw [unpackExponent_def, BitVec.extractLsb'_toNat, Nat.shiftRight_eq_div_pow]

theorem toNat_unpackMantissa : (unpackMantissa b).toNat = b.toNat % 2 ^ 52 := by
  rw [unpackMantissa_def, BitVec.extractLsb'_toNat, Nat.shiftRight_zero]

end Parts

theorem ofBitVec_eq_neg {s s' : BitVec 1} (h : s'.toNat = 1 - s.toNat) :
    Sign.ofBitVec s' = -Sign.ofBitVec s := by
  have hneg : (-Sign.ofBitVec s).toBitVec.toNat = 1 - s.toNat := by decide +revert
  rw [BitVec.toNat_inj.mp (h.trans hneg.symm), Sign.ofBitVec_toBitVec]

/-- **Bits that differ in the sign only are those of opposite numbers.** -/
theorem neg_unpack {b b' : BitVec Format.binary64.numBits}
    (hsign : b'.toNat / 2 ^ 63 = 1 - b.toNat / 2 ^ 63)
    (hrank : b'.toNat % 2 ^ 63 = b.toNat % 2 ^ 63) :
    (UnpackedFloat.unpack .binary64 b).neg = UnpackedFloat.unpack .binary64 b' := by
  have hsign' : Sign.ofBitVec (unpackSign b') = -Sign.ofBitVec (unpackSign b) :=
    ofBitVec_eq_neg (by rw [toNat_unpackSign, toNat_unpackSign, hsign])
  have hexponent : unpackExponent b' = unpackExponent b := by
    rw [← BitVec.toNat_inj, toNat_unpackExponent, toNat_unpackExponent]
    omega
  have hmantissa : unpackMantissa b' = unpackMantissa b := by
    rw [← BitVec.toNat_inj, toNat_unpackMantissa, toNat_unpackMantissa]
    omega
  unfold UnpackedFloat.unpack
  simp only [hsign', hexponent, hmantissa]
  split
  · split <;> rfl
  · split
    · split <;> rfl
    · rfl

/-- Bits past those of the infinities are no number's. -/
theorem unpack_of_infiniteRank_lt {b : BitVec Format.binary64.numBits}
    (h : infiniteRank < b.toNat % signBit) : UnpackedFloat.unpack .binary64 b = .notANumber := by
  have hlt : b.toNat < 2 ^ 64 := b.isLt
  unfold infiniteRank signBit at h
  have hexponent : unpackExponent b = -1 := by
    rw [← BitVec.toNat_inj, toNat_unpackExponent]
    change _ = 2 ^ 11 - 1
    omega
  have hmantissa : unpackMantissa b ≠ 0 := by
    rw [← BitVec.toNat_inj.ne, toNat_unpackMantissa]
    change _ ≠ 0
    omega
  unfold UnpackedFloat.unpack
  exact (if_pos hexponent).trans (if_neg hmantissa)

/-! ### The numbers of a rank -/

theorem neg_unpack_ofRank (negative : Bool) (r : Nat) :
    (ofRank negative r).toModel.unpack.neg = (ofRank (!negative) r).toModel.unpack := by
  have hsign : bitsOfRank (!negative) r / 2 ^ 63 = 1 - bitsOfRank negative r / 2 ^ 63 := by
    unfold bitsOfRank infiniteRank signBit
    cases negative
    · simp
      omega
    · simp
  have hrank : bitsOfRank (!negative) r % 2 ^ 63 = bitsOfRank negative r % 2 ^ 63 :=
    (bitsOfRank_mod (!negative) r).trans (bitsOfRank_mod negative r).symm
  rw [← toNat_toBits_ofRank, ← toNat_toBits_ofRank] at hsign hrank
  exact neg_unpack hsign hrank

/-- **Changing the sign leaves the rank.** -/
theorem neg_ofRank (negative : Bool) (r : Nat) : -ofRank negative r = ofRank (!negative) r := by
  rw [← Float.toBits_inj, ← UInt64.toBitVec_inj]
  -- A double is negated by taking its bits apart and putting them together again.
  calc UnpackedFloat.pack .binary64 (UnpackedFloat.unpack .binary64 _).neg
      = UnpackedFloat.pack .binary64 (UnpackedFloat.unpack .binary64 _) :=
        congrArg _ (neg_unpack_ofRank negative r)
    _ = _ := pack_unpack_of_valid (ofRank (!negative) r).toModel.valid

theorem not_isNaN_of_isFinite {v : Number} (h : v.IsFinite) : ¬ v.IsNaN := Nat.lt_asymm h

/-- A number that is not undefined is the number of its sign and rank. -/
theorem ofRank_rank {v : Number} (h : ¬ v.IsNaN) : ofRank (isNegative v) (rank v) = v := by
  have hrank : rank v ≤ infiniteRank := Nat.not_lt.mp h
  have hbits := v.toBits.toNat_lt
  rw [← Float.toBits_inj, ← UInt64.toNat_inj, toNat_toBits_ofRank, bitsOfRank,
    Nat.min_eq_left hrank, rank, isNegative]
  unfold signBit
  by_cases hsign : 0x8000000000000000 ≤ v.toBits.toNat
  · rw [if_pos (decide_eq_true hsign)]
    omega
  · rw [if_neg (by simpa using hsign)]
    omega

theorem unpack_of_isNaN {v : Number} (h : v.IsNaN) : v.toModel.unpack = .notANumber :=
  unpack_of_infiniteRank_lt h

/-- The opposite number is taken apart into the opposite parts. -/
theorem unpack_neg (v : Number) : (-v).toModel.unpack = v.toModel.unpack.neg := by
  by_cases h : v.IsNaN
  · have hmodel : (-v).toModel = Float.Model.pack v.toModel.unpack.neg := rfl
    rw [hmodel, unpack_of_isNaN h]
    rfl
  · have hv := neg_unpack_ofRank (isNegative v) (rank v)
    rw [← neg_ofRank, ofRank_rank h] at hv
    exact hv.symm

/-- It has the same rank and the other sign. -/
theorem rank_and_isNegative_neg {v : Number} (h : ¬ v.IsNaN) :
    rank (-v) = rank v ∧ isNegative (-v) = !isNegative v := by
  have hrank : rank v ≤ infiniteRank := Nat.not_lt.mp h
  have hneg : -v = ofRank (!isNegative v) (rank v) := by
    conv => lhs; rw [← ofRank_rank h]
    exact neg_ofRank ..
  rw [hneg, rank_ofRank, isNegative_ofRank, Nat.min_eq_left hrank]
  exact ⟨rfl, rfl⟩

theorem isFinite_neg {v : Number} (h : v.IsFinite) : (-v).IsFinite := by
  rw [IsFinite, (rank_and_isNegative_neg (not_isNaN_of_isFinite h)).1]
  exact h

end Number
end Calculator
