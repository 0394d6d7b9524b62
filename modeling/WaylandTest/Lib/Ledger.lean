import Mathlib.Data.List.Nodup

/-!
# A ledger of objects

Objects are numbered as they are created. `Ledger live gone next` says that the objects `live`
exist and the objects `gone` were deleted, that no object is in the two lists twice, and that the
next object will be a new one. So nothing is deleted twice, and what exists was not deleted.
-/

set_option autoImplicit false

namespace WaylandTest.Lib

/-- The objects that exist, those deleted, and the next number. The objects deleted come first, as
they are logged in that order; of the others only which they are matters (`Ledger.perm`). -/
structure Ledger (live gone : List Nat) (next : Nat) : Prop where
  nodup : (gone ++ live).Nodup
  numbered : ∀ a ∈ gone ++ live, a < next

namespace Ledger

variable {live live' gone ds : List Nat} {next : Nat}

/-- At the start there are no objects, and the first one gets the number `0`. -/
theorem start : Ledger [] [] 0 := ⟨List.nodup_nil, fun _ h => nomatch h⟩

/-- In which order the objects are kept does not matter. The lists of a program are often reordered,
or several lists that are kept together. -/
theorem perm (h : Ledger live gone next) (hp : live.Perm live') : Ledger live' gone next := by
  have hall : (gone ++ live).Perm (gone ++ live') := hp.append_left gone
  exact ⟨hall.nodup_iff.mp h.nodup, fun a ha => h.numbered a (hall.mem_iff.mpr ha)⟩

/-- The next object is created. Its number is new, as all numbers given out are below it. -/
theorem create (h : Ledger live gone next) : Ledger (next :: live) gone (next + 1) := by
  have hfresh : next ∉ gone ++ live := fun hmem => Nat.lt_irrefl _ (h.numbered next hmem)
  have hall : (next :: (gone ++ live)).Perm (gone ++ next :: live) := List.perm_middle.symm
  refine ⟨hall.nodup_iff.mp (List.nodup_cons.mpr ⟨hfresh, h.nodup⟩), fun a ha => ?_⟩
  rcases List.mem_cons.mp (hall.mem_iff.mpr ha) with rfl | ha
  · exact Nat.lt_succ_self _
  · exact Nat.lt_succ_of_lt (h.numbered a ha)

/-- Some of the objects that exist are deleted: they move from one list to the other, and are
deleted once since they were kept once. -/
theorem delete (h : Ledger (ds ++ live) gone next) : Ledger live (gone ++ ds) next := by
  have hsame : gone ++ (ds ++ live) = gone ++ ds ++ live := (List.append_assoc _ _ _).symm
  exact ⟨hsame ▸ h.nodup, hsame ▸ h.numbered⟩

/-- No object is kept twice. -/
theorem live_nodup (h : Ledger live gone next) : live.Nodup := (List.nodup_append.mp h.nodup).2.1

/-- No object is deleted twice. -/
theorem gone_nodup (h : Ledger live gone next) : gone.Nodup := (List.nodup_append.mp h.nodup).1

/-- What exists was not deleted, so whoever holds it does not hold a dangling pointer. -/
theorem not_gone (h : Ledger live gone next) {a : Nat} (ha : a ∈ live) : a ∉ gone :=
  fun hg => (List.nodup_append.mp h.nodup).2.2 a hg a ha rfl

end Ledger

/-- No object is lost: all that were created exist or were deleted. A `Ledger` allows that an object
is in neither list; here the two lists make up all numbers given out. -/
def Complete (live gone : List Nat) (next : Nat) : Prop := (gone ++ live).Perm (List.range next)

namespace Complete

variable {live live' gone ds : List Nat} {next : Nat}

/-- At the start there is nothing to lose. -/
theorem start : Complete [] [] 0 := .refl _

/-- In which order the objects are kept does not matter. -/
theorem perm (h : Complete live gone next) (hp : live.Perm live') : Complete live' gone next :=
  (hp.symm.append_left gone).trans h

/-- A new object is kept. -/
theorem create (h : Complete live gone next) : Complete (next :: live) gone (next + 1) := by
  have hlast : ([next] ++ List.range next).Perm (List.range (next + 1)) := by
    rw [List.range_succ]
    exact List.perm_append_comm
  exact (List.perm_middle.trans (h.cons next)).trans hlast

/-- An object that is deleted is written down as such. Dropping it from the first list alone would
lose it. -/
theorem delete (h : Complete (ds ++ live) gone next) : Complete live (gone ++ ds) next := by
  unfold Complete at h ⊢
  rwa [List.append_assoc]

end Complete

end WaylandTest.Lib
