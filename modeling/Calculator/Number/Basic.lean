/-
# Numbers and their ranks

The calculator's numbers are binary64 doubles. For printing, reading and
rounding they are taken apart exactly. The sign bit aside, the bits of a double
are its *rank*: 0 for zero, 1 for the smallest positive double, and so on up to
`infiniteRank`; larger ranks are not numbers. A finite rank stands for a natural
multiple of 2^-1074, its `units`, so exact arithmetic on numbers is arithmetic
on `Nat`. Ranks come in bands of 2^52. Within a band the doubles are evenly
spaced: by one unit in the first two bands, then twice as far from each band to
the next.

Key definitions: `Number`, `Number.rank`, `Number.ofRank`, `Number.units`.
Key theorem: `Number.toNat_toBits_ofRank`.
-/

namespace Calculator

/-- A binary64 double. -/
abbrev Number := Float

namespace Number

/-- The sign bit, 2^63. -/
def signBit : Nat := 0x8000000000000000

/-- The number of ranks in a band, 2^52. -/
def bandSize : Nat := 0x10000000000000

/-- The rank of the infinities: exponent field full, fraction empty. -/
def infiniteRank : Nat := 0x7FF0000000000000

/-- The bits of `v` without the sign bit. Ranks order the magnitudes. -/
def rank (v : Number) : Nat := v.toBits.toNat % signBit

/-- Whether the sign bit is set; it is for -0. -/
def isNegative (v : Number) : Bool := decide (signBit ≤ v.toBits.toNat)

/-- Neither infinite nor undefined. -/
def IsFinite (v : Number) : Prop := rank v < infiniteRank

instance (v : Number) : Decidable v.IsFinite := inferInstanceAs (Decidable (_ < _))

/-- Not a number: the result of an undefined operation. -/
def IsNaN (v : Number) : Prop := infiniteRank < rank v

instance (v : Number) : Decidable v.IsNaN := inferInstanceAs (Decidable (_ < _))

/-- Bits whose rank is at most the infinite one are those of a double, since the
only rank with a restriction on it is that of an undefined result. -/
theorem valid_of_rank_le {b : Nat} (hb : b < 2 * signBit) (h : b % signBit ≤ infiniteRank) :
    Float.Model.Format.binary64.Valid (UInt64.ofNat b).toBitVec := by
  unfold signBit infiniteRank at *
  refine ⟨fun he hm => absurd ?_ hm⟩
  have hn : (UInt64.ofNat b).toBitVec.toNat = b := by simp; omega
  rw [← BitVec.toNat_inj] at he ⊢
  simp only [Float.Model.UnpackedFloat.unpackExponent, Float.Model.UnpackedFloat.unpackMantissa,
    BitVec.extractLsb, BitVec.toNat_cast, BitVec.extractLsb'_toNat, hn,
    Nat.shiftRight_eq_div_pow] at he ⊢
  simp at he ⊢
  omega

/-- The bits of the number with this sign and rank; ranks past the infinite one
count as infinite. -/
def bitsOfRank (negative : Bool) (r : Nat) : Nat :=
  (if negative then signBit else 0) + min r infiniteRank

theorem bitsOfRank_lt (negative : Bool) (r : Nat) : bitsOfRank negative r < 2 * signBit := by
  unfold bitsOfRank infiniteRank signBit
  split <;> omega

theorem bitsOfRank_mod (negative : Bool) (r : Nat) :
    bitsOfRank negative r % signBit = min r infiniteRank := by
  unfold bitsOfRank infiniteRank signBit
  split <;> omega

/-- The number with this sign and rank; ranks past the infinite one give the
infinity of that sign. -/
def ofRank (negative : Bool) (r : Nat) : Number :=
  Float.ofModel ⟨UInt64.ofNat (bitsOfRank negative r),
    valid_of_rank_le (bitsOfRank_lt negative r) (bitsOfRank_mod negative r ▸ Nat.min_le_right ..)⟩

@[simp] theorem toNat_toBits_ofRank (negative : Bool) (r : Nat) :
    (ofRank negative r).toBits.toNat = bitsOfRank negative r := by
  change (UInt64.ofNat (bitsOfRank negative r)).toNat = _
  have := bitsOfRank_lt negative r
  unfold signBit at this
  rw [UInt64.toNat_ofNat']
  omega

@[simp] theorem rank_ofRank (negative : Bool) (r : Nat) :
    rank (ofRank negative r) = min r infiniteRank := by
  rw [rank, toNat_toBits_ofRank, bitsOfRank_mod]

@[simp] theorem isNegative_ofRank (negative : Bool) (r : Nat) :
    isNegative (ofRank negative r) = negative := by
  rw [isNegative, toNat_toBits_ofRank, bitsOfRank]
  unfold infiniteRank signBit
  cases negative
  · exact decide_eq_false (by rw [if_neg Bool.false_ne_true]; omega)
  · exact decide_eq_true (by rw [if_pos rfl]; omega)

/-- The undefined result. -/
def nan : Number := Float.ofBits 0x7FF8000000000000

/-- The smallest positive double is 2^-1074, and each double is a multiple of it.
Nothing is to be unfolded to powers of this size, so the exponent is opaque to
unification. -/
@[irreducible] def unitExponent : Nat := 1074

/-- How many units make one: 2^1074. -/
def unitsPerOne : Nat := 1 <<< unitExponent

theorem unitsPerOne_pos : 0 < unitsPerOne := by
  rw [unitsPerOne, Nat.one_shiftLeft]
  exact Nat.two_pow_pos unitExponent

/-- How far the spacing at rank `r` has doubled: not in the first two bands,
then once per band. -/
def doublings (r : Nat) : Nat := r / bandSize - 1

/-- The magnitude of rank `r` in units of 2^-1074: a significand below 2^53,
doubled as often as the spacing. -/
def units (r : Nat) : Nat := (r - doublings r * bandSize) <<< doublings r

end Number
end Calculator
