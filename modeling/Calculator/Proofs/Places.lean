/-
# No decimal is passed over

The search for the shortest decimal tries two points of a grid only, the
neighbours of the magnitude. Reading keeps the order, so if any point of the grid
reads back, one of the two does (`onGrid_ne_none`), and no grid with a hit is
passed over: a magnitude that some decimal reads back to is written with no more
digits after its point than this decimal has (`places_shortest_le`). So a rounded
number is written with the kept decimals at most (`length_fraction_shortest_le`).

Key theorems: `Decimal.onGrid_ne_none`, `Decimal.places_firstHit_le`,
`Decimal.places_shortest_le`, `Decimal.length_fraction_shortest_le`.
-/
import Calculator.Proofs.Idempotence
import Calculator.Proofs.Reading

namespace Calculator
namespace Decimal

open Number (unitExponent roundedRank roundedDecimal keptPlaces nearestRank)

variable {r n k m : Nat}

/-! ### The points of a grid -/

/-- On each side of `unitExponent` one of the two powers is 1. -/
theorem pow_sub_mul_pow (k : Nat) :
    Nat.pow 10 (k - unitExponent) * Nat.pow 10 unitExponent =
      Nat.pow 10 k * Nat.pow 10 (unitExponent - k) := by
  refine (Nat.pow_add 10 _ _).symm.trans (Eq.trans ?_ (Nat.pow_add 10 _ _))
  congr 1
  omega

/-- The finest grid holds every whole count. -/
theorem gridPoint_zero (n : Nat) : gridPoint n 0 = ⟨n, unitExponent⟩ := by
  rw [gridPoint, Nat.zero_sub, Nat.sub_zero, show Nat.pow 10 0 = 1 from rfl, Nat.mul_one]

/-- A point of a grid and a point of the finest grid are compared as counts. -/
theorem coefficient_gridPoint_mul (m k : Nat) :
    (gridPoint m k).coefficient * Nat.pow 10 unitExponent =
      m * Nat.pow 10 k * Nat.pow 10 (gridPoint m k).places := by
  rw [gridPoint, Nat.mul_assoc, pow_sub_mul_pow, Nat.mul_assoc]

theorem rank_gridPoint_le (h : m * Nat.pow 10 k ≤ n) :
    (gridPoint m k).rank ≤ (gridPoint n 0).rank := by
  refine Number.nearestRank_mono (Nat.pow_pos (by decide)) (Nat.pow_pos (by decide)) ?_
  rw [gridPoint_zero, coefficient_gridPoint_mul]
  exact Nat.mul_le_mul_right _ h

theorem le_rank_gridPoint (h : n ≤ m * Nat.pow 10 k) :
    (gridPoint n 0).rank ≤ (gridPoint m k).rank := by
  refine Number.nearestRank_mono (Nat.pow_pos (by decide)) (Nat.pow_pos (by decide)) ?_
  rw [gridPoint_zero, coefficient_gridPoint_mul]
  exact Nat.mul_le_mul_right _ h

theorem rank_gridPoint_mono {m' : Nat} (h : m ≤ m') :
    (gridPoint m k).rank ≤ (gridPoint m' k).rank := by
  have hpow : 0 < Nat.pow 10 (unitExponent - k) := Nat.pow_pos (by decide)
  exact Number.nearestRank_mono hpow hpow
    (Nat.mul_le_mul_right _ (Nat.mul_le_mul_right _ h))

/-- **The neighbours suffice.** If a point of the grid reads back, so does the
neighbour of the magnitude on its side. -/
theorem onGrid_ne_none (hn : (gridPoint n 0).rank = r) (hm : (gridPoint m k).rank = r) :
    onGrid r n k ≠ none := by
  have hstep : 0 < Nat.pow 10 k := Nat.pow_pos (by decide)
  -- On the side of the point, the neighbour lies between it and the magnitude.
  have hhit : (gridPoint (n / Nat.pow 10 k) k).rank = r ∨
      (gridPoint (n / Nat.pow 10 k + 1) k).rank = r := by
    rcases Nat.lt_or_ge (n / Nat.pow 10 k) m with hlt | hle
    · have hlow : (gridPoint n 0).rank ≤ (gridPoint (n / Nat.pow 10 k + 1) k).rank := by
        refine le_rank_gridPoint ?_
        rw [Nat.mul_comm]
        exact (Nat.lt_mul_div_succ n hstep).le
      exact .inr (Nat.le_antisymm (hm ▸ rank_gridPoint_mono hlt) (hn ▸ hlow))
    · have hhigh : (gridPoint (n / Nat.pow 10 k) k).rank ≤ (gridPoint n 0).rank :=
        rank_gridPoint_le (Nat.div_mul_le_self n _)
      exact .inl (Nat.le_antisymm (hn ▸ hhigh) (hm ▸ rank_gridPoint_mono hle))
  intro hnone
  unfold onGrid at hnone
  simp only at hnone
  split at hnone
  · cases hnone
  · rename_i hbelow
    split at hnone
    · cases hnone
    · rename_i habove
      rcases hhit with hhit | hhit
      · exact hbelow ⟨hhit, .inr habove⟩
      · exact habove hhit

theorem places_of_onGrid {d : Decimal} (h : onGrid r n k = some d) :
    d.places = unitExponent - k := by
  unfold onGrid at h
  simp only at h
  split at h
  · cases h
    rfl
  · obtain ⟨-, hd⟩ := Option.ite_none_right_eq_some.mp h
    cases hd
    rfl

/-! ### The search -/

theorem pairwise_grids (top : Nat) : (grids top).Pairwise (· > ·) :=
  List.pairwise_reverse.mpr List.pairwise_lt_range

theorem mem_grids {top : Nat} : k ∈ grids top ↔ k ≤ top := by
  rw [grids, List.mem_reverse, List.mem_range, Nat.lt_succ_iff]

/-- The hit is on the grid or on a coarser one. -/
theorem places_firstHit_le (hk : k ≤ topGrid n) (h : onGrid r n k ≠ none) :
    (firstHit r n).places ≤ unitExponent - k := by
  have hmem : k ∈ grids (topGrid n) := mem_grids.mpr hk
  cases hit : (grids (topGrid n)).findSome? (onGrid r n) with
  | none => exact absurd (List.findSome?_eq_none_iff.mp hit k hmem) h
  | some d =>
    obtain ⟨before, k', after, hgrids, hd, hbefore⟩ := List.findSome?_eq_some_iff.mp hit
    have hsorted := pairwise_grids (topGrid n)
    rw [hgrids] at hmem hsorted
    have hk' : k ≤ k' := by
      rcases List.mem_append.mp hmem with hk | hk
      · exact absurd (hbefore k hk) h
      · rcases List.mem_cons.mp hk with rfl | hk
        · exact Nat.le_refl _
        · have hafter := (List.pairwise_append.mp hsorted).2.1
          exact (List.rel_of_pairwise_cons hafter hk).le
    rw [firstHit, hit, Option.getD_some, places_of_onGrid hd]
    omega

/-- **The shortest decimal has the fewest places.** No decimal that reads back has
fewer, as far as its grid is one of those that are tried. -/
theorem places_shortest_le {d : Decimal} (hplaces : d.places ≤ unitExponent)
    (htop : unitExponent - d.places ≤ topGrid (exactCoefficient d.rank)) :
    (shortest d.rank).places ≤ d.places := by
  have hpoint : gridPoint d.coefficient (unitExponent - d.places) = d := by
    have hpower : unitExponent - d.places - unitExponent = 0 := by omega
    rw [gridPoint, hpower, Nat.sub_sub_self hplaces, show Nat.pow 10 0 = 1 from rfl, Nat.mul_one]
  have hhit : onGrid d.rank (exactCoefficient d.rank) (unitExponent - d.places) ≠ none :=
    onGrid_ne_none (rank_gridPoint_zero d.rank) (congrArg rank hpoint)
  have hle := places_firstHit_le htop hhit
  rwa [Nat.sub_sub_self hplaces] at hle

/-! ### Rounded magnitudes -/

theorem topGrid_mono {n' : Nat} (h : n ≤ n') : topGrid n ≤ topGrid n' := by
  have hlog := Number.log2_mono h
  unfold topGrid
  omega

/-- The grid of the kept decimals is tried for every magnitude from the smallest
one of that grid on. -/
theorem le_topGrid (h : nearestRank 1 (Nat.pow 10 keptPlaces) ≤ r) :
    unitExponent - keptPlaces ≤ topGrid (exactCoefficient r) := by
  have hleast : unitExponent - keptPlaces ≤
      topGrid (exactCoefficient (nearestRank 1 (Nat.pow 10 keptPlaces))) := by
    decide +kernel
  exact hleast.trans (topGrid_mono (Nat.mul_le_mul_right _ (Number.units_mono h)))

/-- **A rounded magnitude is written with the kept decimals at most.** -/
theorem length_fraction_shortest_le (h : roundedRank r = r) :
    (shortest r).fraction.length ≤ keptPlaces := by
  have hpow : 0 < Nat.pow 10 keptPlaces := Nat.pow_pos (by decide)
  obtain ⟨c, hc⟩ : ∃ c, roundedDecimal r = ⟨c, keptPlaces⟩ := ⟨_, rfl⟩
  rw [roundedRank, hc] at h
  rcases Nat.eq_zero_or_pos c with rfl | hpos
  · have hzero : (⟨0, keptPlaces⟩ : Decimal).rank = 0 := by decide +kernel
    rw [← h, hzero]
    decide +kernel
  · have hleast : nearestRank 1 (Nat.pow 10 keptPlaces) ≤ r := by
      rw [← h]
      exact Number.nearestRank_mono hpow hpow (Nat.mul_le_mul_right _ hpos)
    have hexponent : keptPlaces ≤ unitExponent :=
      (show keptPlaces ≤ 33 by decide).trans Number.lt_unitExponent.le
    have hplaces := places_shortest_le (d := ⟨c, keptPlaces⟩) hexponent
      (by rw [h]; exact le_topGrid hleast)
    rw [h] at hplaces
    exact (fractionDigits_length_le _ _).trans hplaces

end Decimal
end Calculator
