/-
# The shortest numeral of a number

A number is written with the fewest digits that read back to it. Its magnitude
is counted exactly in units of 10^-1074, which every double is a multiple of.
On the grid of the multiples of a power of ten, the two neighbours of the
magnitude are tried by reading them back; the coarsest grid with a hit gives
the numeral. Of two hits the nearer is taken, and of two equally near the
larger. The finest grid holds the magnitude itself, so there is always a hit.

Key definitions: `Decimal.onGrid`, `Decimal.shortest`, `Number.numeral`,
`Number.text`.
Key theorem: `Decimal.rank_shortest`.
-/
import Calculator.Number.Decimal

namespace Calculator
namespace Decimal

/-- The decimal `m * 10 ^ k`, counted in units of 10^-1074. -/
def gridPoint (m k : Nat) : Decimal :=
  ⟨m * Nat.pow 10 (k - Number.unitExponent), Number.unitExponent - k⟩

/-- The magnitude of rank `r` in units of 10^-1074. -/
def exactCoefficient (r : Nat) : Nat := Number.units r * Nat.pow 5 Number.unitExponent

/-- The better neighbour of `n` among the multiples of `10 ^ k` that reads back
to rank `r`, if there is one. -/
def onGrid (r n k : Nat) : Option Decimal :=
  let step := Nat.pow 10 k
  let below := gridPoint (n / step) k
  let above := gridPoint (n / step + 1) k
  if below.rank = r ∧ (2 * (n % step) < step ∨ above.rank ≠ r) then some below
  else if above.rank = r then some above
  else none

/-- An exponent of ten that no number below `2 ^ (log2 n + 1)` exceeds by a
digit: 0.30103 is a little more than the decimal logarithm of 2. -/
def topGrid (n : Nat) : Nat := (n.log2 + 1) * 30103 / 100000

/-- The grids of the multiples of `10 ^ k`, coarsest first, for `k` up to `top`. -/
def grids (top : Nat) : List Nat := (List.range (top + 1)).reverse

/-- The first hit for the magnitude `n` of rank `r`; the finest grid always has
one, namely `n` itself. -/
def firstHit (r n : Nat) : Decimal :=
  ((grids (topGrid n)).findSome? (onGrid r n)).getD (gridPoint n 0)

/-- The shortest decimal that reads back to rank `r`. -/
def shortest (r : Nat) : Decimal := firstHit r (exactCoefficient r)

theorem rank_of_onGrid {r n k : Nat} {d : Decimal} (h : onGrid r n k = some d) : d.rank = r := by
  unfold onGrid at h
  simp only at h
  split at h
  · rename_i hbelow
    exact Option.some.inj h ▸ hbelow.1
  · obtain ⟨habove, hd⟩ := Option.ite_none_right_eq_some.mp h
    exact Option.some.inj hd ▸ habove

theorem pow_ten_eq (k : Nat) : Nat.pow 10 k = (1 <<< k) * Nat.pow 5 k := by
  rw [Nat.one_shiftLeft]
  exact Nat.mul_pow 2 5 k

theorem pow_five_pos (k : Nat) : 0 < Nat.pow 5 k := Nat.pow_pos (by decide)

/-- On the finest grid the decimal is the magnitude: its fraction and that of
the units differ by the factor `5 ^ 1074`. -/
theorem rank_gridPoint_zero (r : Nat) : (gridPoint (exactCoefficient r) 0).rank = r := by
  have hten : Nat.pow 10 Number.unitExponent =
      Number.unitsPerOne * Nat.pow 5 Number.unitExponent := pow_ten_eq _
  rw [rank, gridPoint, exactCoefficient, Nat.zero_sub, Nat.sub_zero, hten,
    show Nat.pow 10 0 = 1 from rfl, Nat.mul_one, Number.nearestRank_mul_right _ _ _ (pow_five_pos _),
    Number.nearestRank_units]

theorem rank_firstHit {r n : Nat} (h : (gridPoint n 0).rank = r) : (firstHit r n).rank = r := by
  unfold firstHit
  cases hit : (grids (topGrid n)).findSome? (onGrid r n) with
  | none => exact h
  | some d =>
    obtain ⟨k, _, hk⟩ := List.exists_of_findSome?_eq_some hit
    exact rank_of_onGrid hk

/-- **The shortest decimal reads back.** -/
theorem rank_shortest (r : Nat) : (shortest r).rank = r := rank_firstHit (rank_gridPoint_zero r)

end Decimal

namespace Number

/-- The numeral of the magnitude of `v`. -/
def numeral (v : Number) : List Char :=
  if rank v < infiniteRank then (Decimal.shortest (rank v)).numeral else ['i', 'n', 'f']

/-- How a number is written: a minus sign for a negative one, -0 included, and
its shortest numeral. -/
def text (v : Number) : String :=
  if v.IsNaN then "NaN"
  else String.ofList (if isNegative v then '-' :: numeral v else numeral v)

/-- A number of 22 digits has no exponent. -/
example : text 1e21 = "1000000000000000000000" := by decide +kernel

/-- 2^-25 lies halfway between two decimals of 17 digits; the larger is written. -/
example : text 2.98023223876953125e-8 = "0.000000029802322387695313" := by decide +kernel

end Number
end Calculator
