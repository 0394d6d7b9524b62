import Mathlib.Data.List.Basic

/-!
# Bands of one height, one under the other

`bands height n` are the places of `n` bands from 0 downwards. Where a height `total` is divided
among the `n` bands, they lie inside it in their order, disjoint (`bands_pairwise`,
`disjoint_bands`, `bands_inside`), cover what is above their end (`exists_band_iff`), and leave less
than `n` of it (`bands_unused`).
-/

set_option autoImplicit false

namespace WaylandTest.Lib

/-- The row is in the band at `y`. -/
def InBand (height y row : Int) : Prop := y ≤ row ∧ row < y + height

/-- The places of `n` bands from 0 downwards. -/
def bands (height : Int) (n : Nat) : List Int := (List.range n).map fun k : Nat => k * height

variable {height total y row : Int} {n k : Nat}

theorem bands_succ : bands height (n + 1) = 0 :: (bands height n).map (· + height) := by
  simp [bands, List.range_succ_eq_map, Int.add_mul]

theorem bands_getElem? (h : (bands height n)[k]? = some y) : y = k * height := by
  simp only [bands, List.getElem?_map, Option.map_eq_some_iff, List.getElem?_eq_some_iff,
    List.getElem_range] at h
  obtain ⟨_, ⟨-, rfl⟩, rfl⟩ := h
  rfl

theorem mem_bands : y ∈ bands height n ↔ ∃ k : Nat, k < n ∧ y = k * height := by
  simp [bands, eq_comm]

/-- A band ends at or before the place of a later one. -/
theorem band_end_le (hh : 0 ≤ height) (hkn : k < n) : (k : Int) * height + height ≤ n * height := by
  have hle : ((k : Int) + 1) * height ≤ n * height :=
    Int.mul_le_mul_of_nonneg_right (by omega) hh
  rw [Int.add_mul, Int.one_mul] at hle
  exact hle

theorem bands_pairwise (hh : 0 ≤ height) (n : Nat) :
    (bands height n).Pairwise fun y y' => y + height ≤ y' := by
  apply List.pairwise_map.mpr
  exact List.pairwise_lt_range.imp fun hjk => band_end_le hh hjk

theorem disjoint_bands {y' : Int} (h : y + height ≤ y') (row : Int) :
    ¬ (InBand height y row ∧ InBand height y' row) := by
  unfold InBand
  omega

/-- The bands cover what is above the end of the last one. -/
theorem exists_band_iff (hh : 0 ≤ height) (n : Nat) :
    (∃ y ∈ bands height n, InBand height y row) ↔ 0 ≤ row ∧ row < n * height := by
  constructor
  · rintro ⟨y, hy, hrow⟩
    obtain ⟨k, hk, rfl⟩ := mem_bands.mp hy
    have hfirst : 0 ≤ (k : Int) * height := Int.mul_nonneg (Int.natCast_nonneg k) hh
    exact ⟨Int.le_trans hfirst hrow.1, Int.lt_of_lt_of_le hrow.2 (band_end_le hh hk)⟩
  · intro ⟨hfirst, hlast⟩
    have hpos : 0 < height := by
      refine (Int.le_iff_lt_or_eq.mp hh).resolve_right fun hzero => ?_
      rw [← hzero, Int.mul_zero] at hlast
      omega
    -- The band of a row is the one its quotient numbers.
    have hk : 0 ≤ row / height ∧ row / height < n :=
      ⟨Int.ediv_nonneg hfirst hh, (Int.ediv_lt_iff_lt_mul hpos).mpr hlast⟩
    have hcast : ((row / height).toNat : Int) = row / height := Int.toNat_of_nonneg hk.1
    have hdiv := Int.mul_ediv_add_emod row height
    have hmod := Int.emod_nonneg row (Int.ne_of_gt hpos)
    have hmod' := Int.emod_lt_of_pos row hpos
    rw [Int.mul_comm] at hdiv
    have hmem : row / height * height ∈ bands height n :=
      mem_bands.mpr ⟨(row / height).toNat, by omega, by rw [hcast]⟩
    exact ⟨row / height * height, hmem, by omega, by omega⟩

/-- The bands a height is divided into lie inside it. -/
theorem bands_inside (ht : 0 ≤ total) (hy : y ∈ bands (total / n) n) :
    0 ≤ y ∧ y + total / n ≤ total := by
  obtain ⟨k, hk, rfl⟩ := mem_bands.mp hy
  have hh : 0 ≤ total / n := Int.ediv_nonneg ht (Int.natCast_nonneg n)
  have hall : (n : Int) * (total / n) ≤ total := Int.mul_ediv_self_le (by omega)
  exact ⟨Int.mul_nonneg (Int.natCast_nonneg k) hh, Int.le_trans (band_end_le hh hk) hall⟩

/-- What the bands leave of the height they divide. -/
theorem bands_unused (hn : 0 < n) : 0 ≤ total - n * (total / n) ∧ total - n * (total / n) < n := by
  have hdiv := Int.mul_ediv_add_emod total n
  have hmod := Int.emod_nonneg total (b := (n : Int)) (by omega)
  have hmod' := Int.emod_lt_of_pos total (b := (n : Int)) (by omega)
  omega

end WaylandTest.Lib
