/-
# A product with one

A memory key adds the value of the entry times 1 or times -1. The significand of 1 is
2^52, so the significand of the product is that of the value shifted up by 52 bits.
Rounding shifts it down to the exponent that a double of this size has, and a double
already has this exponent (`Number.bounds_of_unpack`): the same 52 bits are taken off
again, all of them zero. So the product is the value itself, or its opposite.

Key theorems: `Number.shiftRight_mul_two_pow`, `Number.roundWithAccuracy_of_exact`,
`Number.one_mul`, `Number.neg_one_mul`, `Number.add_neg_one_mul`.
-/
import Calculator.Proofs.Addition

namespace Calculator
namespace Number

open Float.Model Float.Model.UnpackedFloat

/-! ### Rounding what is exact -/

theorem log2_mul_two_pow {m : Nat} (hm : 0 < m) (k : Nat) : (m * 2 ^ k).log2 = m.log2 + k := by
  have hpos : 0 < 2 ^ k := Nat.two_pow_pos k
  refine (Nat.log2_eq_iff (Nat.mul_pos hm hpos).ne').mpr ⟨?_, ?_⟩
  · rw [Nat.pow_add]
    exact Nat.mul_le_mul_right _ (Nat.log2_self_le hm.ne')
  · rw [Nat.add_right_comm, Nat.pow_add]
    exact Nat.mul_lt_mul_of_pos_right Nat.lt_log2_self hpos

/-- Zeros are shifted out, and nothing is left of them. -/
theorem shiftRight_mul_two_pow : ∀ (k m : Nat),
    (⟨m * 2 ^ k, false, false⟩ : ExtendedMantissa) >>> k = ⟨m, false, false⟩
  | 0, m => by
    rw [Nat.pow_zero, Nat.mul_one]
    rfl
  | k + 1, m => by
    -- The last bit is shifted out after the others, so they are those of twice `m`.
    have ih := shiftRight_mul_two_pow k (m * 2)
    rw [Nat.mul_assoc, ← Nat.pow_succ'] at ih
    calc ExtendedMantissa.shiftRightOne ((⟨m * 2 ^ (k + 1), false, false⟩ : ExtendedMantissa) >>> k)
        = ExtendedMantissa.shiftRightOne ⟨m * 2, false, false⟩ := congrArg _ ih
      _ = _ := by simp [ExtendedMantissa.shiftRightOne]

/-- The exponent of a double is the one that its size asks for. -/
theorem targetExponent_of_unpack {b : BitVec Format.binary64.numBits} {s : Sign} {m : Nat}
    {e : Int} {hm : 0 < m} (h : UnpackedFloat.unpack .binary64 b = .finite s m e hm) :
    Format.binary64.targetExponent (totalExponent m e) = e := by
  obtain ⟨hlt, hleast, hshape⟩ := bounds_of_unpack h
  have hlog : m.log2 < 53 := (Nat.log2_lt hm.ne').mpr hlt
  rw [targetExponent_binary64, totalExponent]
  rcases hshape with hnormal | rfl
  · have hfull : 52 ≤ m.log2 := (Nat.le_log2 hm.ne').mpr hnormal
    omega
  · omega

theorem shiftToTargetExponent_of_exact {m : Nat} {e : Int} (hm : 0 < m)
    (h : Format.binary64.targetExponent (totalExponent m e) = e) (k : Nat) :
    shiftToTargetExponent .binary64 (m * 2 ^ k) (e - k) .exact = (⟨m, false, false⟩, e) := by
  have htotal : totalExponent (m * 2 ^ k) (e - k) = totalExponent m e := by
    rw [totalExponent, totalExponent, log2_mul_two_pow hm]
    omega
  have hamount : (e - (e - (k : Int))).toNat = k := by omega
  rw [shiftToTargetExponent, htotal]
  simp only [h, shiftToExponent, hamount]
  exact Prod.ext (shiftRight_mul_two_pow k m) (by simp)

/-- **What needs no rounding is not changed**, if its significand has zeros at its end. -/
theorem roundWithAccuracy_of_exact {m : Nat} {e : Int} (hm : 0 < m)
    (h : Format.binary64.targetExponent (totalExponent m e) = e) (s : Sign) (k : Nat) :
    roundWithAccuracy .binary64 s (m * 2 ^ k) (e - k) .exact = .finite s m e hm := by
  -- What has been rounded is shifted once more, here by nothing.
  have hagain := shiftToTargetExponent_of_exact hm h 0
  rw [Nat.pow_zero, Nat.mul_one, Int.natCast_zero, Int.sub_zero] at hagain
  have hrounded : (⟨m, false, false⟩ : ExtendedMantissa).roundedMantissa = m := rfl
  rw [roundWithAccuracy]
  simp only [shiftToTargetExponent_of_exact hm h k, hrounded, hagain, dif_neg hm.ne']

/-! ### The products -/

variable (v : Number)

theorem roundWithAccuracy_of_unpack {s t : Sign} {m : Nat} {e : Int} {hm : 0 < m}
    (h : v.toModel.unpack = .finite s m e hm) :
    roundWithAccuracy .binary64 t (2 ^ 52 * m) (-52 + e) .exact = .finite t m e hm := by
  rw [Nat.mul_comm, Int.add_comm]
  exact roundWithAccuracy_of_exact hm (targetExponent_of_unpack h) t 52

/-- The product with 1 or -1, taken apart. -/
theorem unpacked_unit_mul (s : Sign) :
    UnpackedFloat.mul .binary64 (.finite s (2 ^ 52) (-52) (by decide)) v.toModel.unpack =
      match s with
      | .positive => v.toModel.unpack
      | .negative => v.toModel.unpack.neg := by
  cases h : v.toModel.unpack with
  | notANumber => cases s <;> rfl
  | infinity t | zero t => cases s <;> cases t <;> rfl
  | finite t m e hm =>
    refine (roundWithAccuracy_of_unpack v h).trans ?_
    cases s <;> cases t <;> rfl

/-- **One is neutral**, for zeros, infinities and the undefined number too. -/
theorem one_mul : 1 * v = v := by
  rw [← Float.toBits_inj, ← UInt64.toBitVec_inj]
  calc UnpackedFloat.pack .binary64 (UnpackedFloat.mul .binary64 _ v.toModel.unpack)
      = UnpackedFloat.pack .binary64 v.toModel.unpack :=
        congrArg _ (unpacked_unit_mul v .positive)
    _ = _ := pack_unpack_of_valid v.toModel.valid

/-- **Minus one times a number is its opposite.** -/
theorem neg_one_mul : -1 * v = -v :=
  congrArg (fun x => Float.ofModel (Float.Model.pack x)) (unpacked_unit_mul v .negative)

/-- Adding a number times -1 is subtracting it. -/
theorem add_neg_one_mul (a : Number) : a + -1 * v = a - v := by
  rw [neg_one_mul, sub_eq_add_opposite]

end Number
end Calculator
