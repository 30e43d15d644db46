/-
# Sums that are zero

A sum of two finite numbers is rounded from the exact sum of their significands, at an
exponent that is no lower than the least one of a double. There a positive significand
stays positive: it is shifted down no further than to 53 bits, and rounding adds to it
or leaves it (`Number.inRange_roundWithAccuracy`). So only an exact sum of zero gives a
zero, which is +0 unless both numbers are -0 (`Number.add_eq_neg_zero`). A difference is
the sum with the opposite number.

Key definition: `Number.InRange`.
Key theorems: `Number.inRange_roundWithAccuracy`, `Number.pack_ne_packedZero`,
`Number.bounds_of_unpack`, `Number.add_cases`, `Number.add_eq_neg_zero`,
`Number.sub_eq_add_opposite`, `Number.sub_eq_neg_zero`.
-/
import Calculator.Proofs.Comparison

namespace Calculator
namespace Number

open Float.Model Float.Model.UnpackedFloat

/-! ### Rounding keeps what is not zero -/

/-- A finite number apart from zero that is no finer than the doubles are. It may be too
large for a double, which is then an infinity. -/
def InRange : UnpackedFloat → Prop
  | .finite _ m e _ => m < 2 ^ 53 ∧ -1074 ≤ e
  | _ => False

theorem targetExponent_binary64 (t : Int) :
    Format.binary64.targetExponent t = max (t - 53) (-1074) := rfl

theorem mantissa_shiftRight (em : ExtendedMantissa) :
    ∀ k : Nat, (em >>> k).mantissa = em.mantissa / 2 ^ k
  | 0 => by
    rw [Nat.pow_zero, Nat.div_one]
    rfl
  | k + 1 => by
    have ih := mantissa_shiftRight em k
    change (em >>> k).mantissa / 2 = _
    rw [ih, Nat.div_div_eq_div_mul, Nat.pow_succ]

theorem mantissa_ofMantissaAndAccuracy (m : Nat) (accuracy : Accuracy) :
    (ExtendedMantissa.ofMantissaAndAccuracy m accuracy).mantissa = m := by
  cases accuracy with
  | exact => rfl
  | inexact o => cases o <;> rfl

/-- Rounding to the nearest never takes the significand down to the one below. -/
theorem le_roundedMantissa (em : ExtendedMantissa) : em.mantissa ≤ em.roundedMantissa := by
  unfold ExtendedMantissa.roundedMantissa Accuracy.roundToNearestEven
  split <;> omega

/-- A positive significand is shifted to 53 bits at most, and not to zero. -/
theorem inRange_shiftToTargetExponent {m : Nat} {e : Int} (hm : 0 < m) (he : -1074 ≤ e)
    (accuracy : Accuracy) :
    0 < (shiftToTargetExponent .binary64 m e accuracy).1.mantissa ∧
      (shiftToTargetExponent .binary64 m e accuracy).1.mantissa < 2 ^ 53 ∧
      -1074 ≤ (shiftToTargetExponent .binary64 m e accuracy).2 := by
  unfold shiftToTargetExponent shiftToExponent
  simp only [mantissa_shiftRight, mantissa_ofMantissaAndAccuracy, targetExponent_binary64,
    totalExponent]
  generalize hk : (max ((m.log2 : Int) + 1 + e - 53) (-1074) - e).toNat = k
  have hshort : k ≤ m.log2 := by omega
  have hlong : m.log2 + 1 ≤ k + 53 := by omega
  refine ⟨Nat.div_pos ?_ (Nat.two_pow_pos k), ?_, by omega⟩
  · calc 2 ^ k ≤ 2 ^ m.log2 := Nat.pow_le_pow_right Nat.two_pos hshort
      _ ≤ m := Nat.log2_self_le hm.ne'
  · refine Nat.div_lt_of_lt_mul ?_
    calc m < 2 ^ (m.log2 + 1) := Nat.lt_log2_self
      _ ≤ 2 ^ (k + 53) := Nat.pow_le_pow_right Nat.two_pos hlong
      _ = 2 ^ k * 2 ^ 53 := Nat.pow_add ..

theorem inRange_roundWithAccuracy (s : Sign) {m : Nat} {e : Int} (hm : 0 < m) (he : -1074 ≤ e)
    (accuracy : Accuracy) : InRange (roundWithAccuracy .binary64 s m e accuracy) := by
  obtain ⟨hpos, -, hleast⟩ := inRange_shiftToTargetExponent hm he accuracy
  unfold roundWithAccuracy
  simp only
  -- The rounded significand may have one bit too many, so it is shifted once more.
  have hrounded := Nat.lt_of_lt_of_le hpos (le_roundedMantissa _)
  obtain ⟨hpos', hlt, hleast'⟩ := inRange_shiftToTargetExponent hrounded hleast .exact
  rw [dif_neg hpos'.ne']
  exact ⟨hlt, hleast'⟩

theorem inRange_round (s : Sign) {m : Nat} {e : Int} (hm : 0 < m) (he : -1074 ≤ e) :
    InRange (UnpackedFloat.round .binary64 s m e) := by
  unfold UnpackedFloat.round decreaseExponent
  simp only [targetExponent_binary64]
  refine inRange_roundWithAccuracy s ?_ (by omega) .exact
  rw [Nat.shiftLeft_eq]
  exact Nat.mul_pos hm (Nat.two_pow_pos _)

/-- An exact sum is rounded to zero only if it is zero, and that zero is +0. -/
theorem normalize_cases (n : Int) {e : Int} (he : -1074 ≤ e) :
    InRange (UnpackedFloat.normalize .binary64 n e .positive) ∨
      UnpackedFloat.normalize .binary64 n e .positive = .zero .positive := by
  unfold UnpackedFloat.normalize
  split
  · rename_i hlt
    have hneg : n < 0 := Int.compare_eq_lt.mp hlt
    exact .inl (inRange_round _ (by omega) he)
  · exact .inr rfl
  · rename_i hgt
    have hpos : 0 < n := Int.compare_eq_gt.mp hgt
    exact .inl (inRange_round _ (by omega) he)

/-! ### Packing keeps what is not zero -/

theorem eq_zero_of_packComponents {s s' : Sign} {exponent : BitVec Format.binary64.exponentBits}
    {fraction : BitVec Format.binary64.mantissaBitsWithoutImplicit}
    (h : packComponents .binary64 s exponent fraction = packedZero .binary64 s') :
    exponent = 0 ∧ fraction = 0 := by
  have hexponent := congrArg unpackExponent h
  have hfraction := congrArg unpackMantissa h
  rw [packedZero, unpackExponent_packComponents, unpackExponent_packComponents] at hexponent
  rw [packedZero, unpackMantissa_packComponents, unpackMantissa_packComponents] at hfraction
  exact ⟨hexponent, hfraction⟩

/-- What is in range is not packed into the bits of a zero: its exponent is not the
least one, or its fraction is not zero. -/
theorem pack_ne_packedZero {x : UnpackedFloat} (h : InRange x) (s : Sign) :
    UnpackedFloat.pack .binary64 x ≠ packedZero .binary64 s := by
  cases x with
  | notANumber | infinity | zero => exact h.elim
  | finite s' m e hm =>
    obtain ⟨hlt, hleast⟩ := h
    have hbias : Format.binary64.exponentBias = 1023 := rfl
    intro hpack
    unfold UnpackedFloat.pack at hpack
    simp only [hbias] at hpack
    split at hpack
    · have hfull := (eq_zero_of_packComponents hpack).1
      revert hfull
      decide
    · rename_i hsmall
      split at hpack
      · have hexponent := congrArg BitVec.toNat (eq_zero_of_packComponents hpack).1
        rw [BitVec.toNat_ofNat, Nat.mod_eq_of_lt (by omega)] at hexponent
        change _ = (0 : Nat) at hexponent
        omega
      · rename_i hshort
        have hfraction := congrArg BitVec.toNat (eq_zero_of_packComponents hpack).2
        have hlog : m.log2 < 53 := (Nat.log2_lt hm.ne').mpr hlt
        have hm' : m < 2 ^ 52 := by
          refine (Nat.log2_lt hm.ne').mp ?_
          change m.log2 + 1 ≠ 53 at hshort
          omega
        rw [BitVec.toNat_ofNat, Nat.mod_eq_of_lt hm'] at hfraction
        exact hm.ne' hfraction

/-! ### Sums -/

/-- A double apart from zero is in range, and its significand has 53 bits unless it has
the least exponent. -/
theorem bounds_of_unpack {b : BitVec Format.binary64.numBits} {s : Sign} {m : Nat} {e : Int}
    {hm : 0 < m} (h : UnpackedFloat.unpack .binary64 b = .finite s m e hm) :
    m < 2 ^ 53 ∧ -1074 ≤ e ∧ (2 ^ 52 ≤ m ∨ e = -1074) := by
  have hbias : Format.binary64.exponentBias = 1023 := rfl
  unfold UnpackedFloat.unpack at h
  simp only [hbias] at h
  split at h
  · split at h <;> cases h
  · split at h
    · rename_i hzero
      split at h
      · cases h
      · cases h
        have hlt := (unpackMantissa b).isLt
        rw [hzero]
        exact ⟨hlt.trans (by decide), by decide, .inr (by decide)⟩
    · rename_i hne
      cases h
      have hpos : (unpackExponent b).toNat ≠ 0 := BitVec.toNat_inj.not.mpr hne
      refine ⟨(1#1 ++ unpackMantissa b).isLt, ?_, .inl ?_⟩
      · change -1074 ≤ ((unpackExponent b).toNat : Int) - (1023 + 52)
        omega
      · rw [BitVec.toNat_append]
        exact Nat.left_le_or

/-- A finite number taken apart is a zero or in range. -/
theorem unpack_cases {v : Number} (h : v.IsFinite) :
    v.toModel.unpack = .zero (sign v) ∨ InRange v.toModel.unpack := by
  rcases unpack_of_isFinite h with ⟨-, hzero⟩ | ⟨-, m, e, hm, hfinite⟩
  · exact .inl hzero
  · rw [hfinite]
    obtain ⟨hlt, hleast, -⟩ := bounds_of_unpack hfinite
    exact .inr ⟨hlt, hleast⟩

section Unpacked

variable {x y : UnpackedFloat}

theorem zero_add_of_inRange (s : Sign) (hy : InRange y) :
    UnpackedFloat.add .binary64 (.zero s) y = y := by
  cases y with
  | notANumber | infinity | zero => exact hy.elim
  | finite => rfl

theorem add_zero_of_inRange (hx : InRange x) (s : Sign) :
    UnpackedFloat.add .binary64 x (.zero s) = x := by
  cases x with
  | notANumber | infinity | zero => exact hx.elim
  | finite => rfl

/-- The sum of two zeros is -0 only if both are. -/
theorem negative_of_add_zeros {s s' : Sign}
    (h : UnpackedFloat.pack .binary64 (UnpackedFloat.add .binary64 (.zero s) (.zero s')) =
      packedZero .binary64 .negative) : s = .negative ∧ s' = .negative := by
  cases s <;> cases s' <;> first | exact ⟨rfl, rfl⟩ | exact absurd h (by decide)

/-- Two numbers in range add up to one, or cancel to +0. -/
theorem add_cases (hx : InRange x) (hy : InRange y) :
    InRange (UnpackedFloat.add .binary64 x y) ∨
      UnpackedFloat.add .binary64 x y = .zero .positive := by
  cases x with
  | notANumber | infinity | zero => exact hx.elim
  | finite s m e hm =>
    cases y with
    | notANumber | infinity | zero => exact hy.elim
    | finite s' m' e' hm' => exact normalize_cases _ (le_min hx.2 hy.2)

/-- Subtracting is adding the opposite, for zeros and infinities too. -/
theorem unpacked_sub_eq (x y : UnpackedFloat) :
    UnpackedFloat.sub .binary64 x y = UnpackedFloat.add .binary64 x y.neg := by
  cases x with
  | notANumber => rfl
  | infinity s => cases y <;> rfl
  | zero s => cases y <;> rfl
  | finite s m e hm =>
    cases y with
    | notANumber | infinity | zero => rfl
    | finite s' m' e' hm' =>
      have hneg : ∀ n : Int, (-s').apply n = -s'.apply n := fun n => by
        cases s' with
        | negative => exact (neg_neg n).symm
        | positive => rfl
      simp only [UnpackedFloat.sub, UnpackedFloat.add, UnpackedFloat.neg, hneg, Int.sub_eq_add_neg]

end Unpacked

section Numbers

variable {a b v : Number}

theorem unpack_eq_neg_zero_iff : v.toModel.unpack = .zero .negative ↔ v = -0.0 := by
  have hbits : (-0.0 : Number).toBits.toBitVec = packedZero .binary64 .negative := by
    decide +kernel
  rw [← Float.toBits_inj, ← UInt64.toBitVec_inj, hbits]
  exact unpack_eq_zero_iff_of_valid v.toModel.valid

/-- **Only -0 and -0 add up to -0.** -/
theorem add_eq_neg_zero (ha : a.IsFinite) (hb : b.IsFinite) (h : a + b = -0.0) :
    a = -0.0 ∧ b = -0.0 := by
  have hpack : UnpackedFloat.pack .binary64
      (UnpackedFloat.add .binary64 a.toModel.unpack b.toModel.unpack) =
        packedZero .binary64 .negative := by
    have hbits : (a + b).toBits.toBitVec = (-0.0 : Number).toBits.toBitVec := by rw [h]
    exact hbits.trans (by decide +kernel)
  rcases unpack_cases ha with hzero | hrange
  · rcases unpack_cases hb with hzero' | hrange'
    · rw [hzero, hzero'] at hpack
      obtain ⟨hsign, hsign'⟩ := negative_of_add_zeros hpack
      rw [hsign] at hzero
      rw [hsign'] at hzero'
      exact ⟨unpack_eq_neg_zero_iff.mp hzero, unpack_eq_neg_zero_iff.mp hzero'⟩
    · rw [hzero, zero_add_of_inRange _ hrange'] at hpack
      exact absurd hpack (pack_ne_packedZero hrange' _)
  · rcases unpack_cases hb with hzero' | hrange'
    · rw [hzero', add_zero_of_inRange hrange] at hpack
      exact absurd hpack (pack_ne_packedZero hrange _)
    · rcases add_cases hrange hrange' with hsum | hsum
      · exact absurd hpack (pack_ne_packedZero hsum _)
      · rw [hsum] at hpack
        exact absurd hpack (by decide)

/-- A difference is a sum with the opposite number. -/
theorem sub_eq_add_opposite (a b : Number) : a - b = a + -b := by
  have hmodel : UnpackedFloat.sub .binary64 a.toModel.unpack b.toModel.unpack =
      UnpackedFloat.add .binary64 a.toModel.unpack (-b).toModel.unpack := by
    rw [unpack_neg, unpacked_sub_eq]
  exact congrArg (fun x => Float.ofModel (Float.Model.pack x)) hmodel

theorem sub_eq_neg_zero (ha : a.IsFinite) (hb : b.IsFinite) (h : a - b = -0.0) :
    a = -0.0 := by
  rw [sub_eq_add_opposite] at h
  exact (add_eq_neg_zero ha (isFinite_neg hb) h).1

end Numbers

end Number
end Calculator
