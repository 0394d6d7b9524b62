import Mathlib.Data.List.Basic

/-!
# A block of memory, read and written by offset

A block is a list of cells. An offset is an integer, since an offset computed by a program may be
negative, and a read or a write outside the block has no result.

`Changed g m m'` says what a stretch of code did to a block, cell by cell: each cell `v` at offset
`i` became `g i v`. Such statements compose (`Changed.trans`), so a loop that writes one cell at a
time is described by composing its writes.
-/

set_option autoImplicit false

namespace WaylandTest.Lib

/-- A block of cells, at the offsets from 0. -/
abbrev Memory (α : Type) := List α

namespace Memory

variable {α : Type} {m m' m'' : Memory α} {i : Int} {v : α} {g g' : Int → α → α}

/-- The cell at an offset, if there is one. -/
def read (m : Memory α) (i : Int) : Option α := if 0 ≤ i then m[i.toNat]? else none

/-- The block with another value at an offset, if that offset is in the block. -/
def write (m : Memory α) (i : Int) (v : α) : Option (Memory α) :=
  if 0 ≤ i ∧ i < m.length then some (m.set i.toNat v) else none

theorem read_isSome : (m.read i).isSome ↔ 0 ≤ i ∧ i < m.length := by
  unfold read
  by_cases hi : 0 ≤ i
  · rw [if_pos hi, isSome_getElem?]
    show i.toNat < m.length ↔ 0 ≤ i ∧ i < m.length
    omega
  · simp [hi]

theorem read_some_range (h : m.read i = some v) : 0 ≤ i ∧ i < m.length :=
  read_isSome.mp (Option.isSome_of_eq_some h)

theorem exists_read (h : 0 ≤ i) (hl : i < m.length) : ∃ v, m.read i = some v :=
  Option.isSome_iff_exists.mp (read_isSome.mpr ⟨h, hl⟩)

/-- Blocks that are read alike are equal. -/
theorem ext_read (h : ∀ i, m.read i = m'.read i) : m = m' := by
  refine List.ext_getElem? fun n => ?_
  have hn := h n
  unfold read at hn
  rw [if_pos (Int.natCast_nonneg n), if_pos (Int.natCast_nonneg n), Int.toNat_natCast] at hn
  exact hn

theorem read_replicate {n : Nat} (h : 0 ≤ i) (hn : i < n) :
    read (List.replicate n v) i = some v := by
  unfold read
  rw [if_pos h, List.getElem?_replicate_of_lt (by omega)]

/-- The block of `n` cells that `f` gives by offset. -/
def tabulate (n : Nat) (f : Int → α) : Memory α := (List.range n).map fun i : Nat => f i

theorem length_tabulate (n : Nat) (f : Int → α) : (tabulate n f).length = n := by
  unfold tabulate
  rw [List.length_map, List.length_range]

theorem read_tabulate (n : Nat) (f : Int → α) (i : Int) :
    (tabulate n f).read i = if 0 ≤ i ∧ i < n then some (f i) else none := by
  unfold read tabulate
  by_cases hi : 0 ≤ i
  · rw [if_pos hi, List.getElem?_map]
    by_cases hn : i < n
    · have hlt : i.toNat < n := by omega
      have hcast : (i.toNat : Int) = i := Int.toNat_of_nonneg hi
      rw [if_pos ⟨hi, hn⟩, List.getElem?_range hlt, Option.map_some, hcast]
    · have hout : (List.range n)[i.toNat]? = none := by
        rw [List.getElem?_eq_none_iff, List.length_range]
        omega
      rw [if_neg (fun h => hn h.2), hout, Option.map_none]
  · rw [if_neg hi, if_neg (fun h => hi h.1)]

theorem exists_write (h : 0 ≤ i) (hl : i < m.length) (v : α) : ∃ m', m.write i v = some m' :=
  ⟨_, if_pos ⟨h, hl⟩⟩

/-- What a write leaves to be read. -/
theorem read_write (h : m.write i v = some m') (j : Int) :
    m'.read j = if j = i then some v else m.read j := by
  unfold write at h
  split at h
  · next hi =>
    obtain rfl := Option.some.inj h
    unfold read
    by_cases hj : 0 ≤ j
    · rw [if_pos hj, if_pos hj, List.getElem?_set]
      by_cases heq : j = i
      · have hlt : i.toNat < m.length := by omega
        simp [heq, hlt]
      · have hne : i.toNat ≠ j.toNat := by omega
        simp [heq, hne]
    · have heq : j ≠ i := by omega
      simp [hj, heq]
  · cases h

/-- Each cell `v` of `m` at offset `i` is `g i v` in `m'`. -/
def Changed (g : Int → α → α) (m m' : Memory α) : Prop := ∀ i, m'.read i = (m.read i).map (g i)

theorem Changed.refl (m : Memory α) : Changed (fun _ v => v) m m := fun _ => by simp

theorem Changed.trans (h : Changed g m m') (h' : Changed g' m' m'') :
    Changed (fun i v => g' i (g i v)) m m'' := fun i => by
  rw [h' i, h i, Option.map_map]
  rfl

/-- Only what the change does to the cells of the block matters. -/
theorem Changed.congr (h : Changed g m m') (hg : ∀ i v, m.read i = some v → g i v = g' i v) :
    Changed g' m m' := fun i => by
  rw [h i]
  cases hv : m.read i with
  | none => rfl
  | some v => rw [Option.map_some, Option.map_some, hg i v hv]

/-- A change keeps the block's extent. -/
theorem Changed.range (h : Changed g m m') :
    (0 ≤ i ∧ i < m'.length) ↔ (0 ≤ i ∧ i < m.length) := by
  rw [← read_isSome, ← read_isSome, h i, Option.isSome_map]

theorem Changed.length (h : Changed g m m') : m'.length = m.length := by
  have hle := h.range (i := m.length)
  have hge := h.range (i := m'.length)
  omega

/-- A write changes one cell. -/
theorem changed_write (h : m.write i v = some m') :
    Changed (fun j old => if j = i then v else old) m m' := fun j => by
  rw [read_write h]
  by_cases hj : j = i
  · have hi : 0 ≤ i ∧ i < m.length := by
      unfold write at h
      split at h
      · assumption
      · cases h
    obtain ⟨old, hold⟩ := exists_read hi.1 hi.2
    rw [if_pos hj, hj, hold]
    simp
  · simp [hj]

end Memory

end WaylandTest.Lib
