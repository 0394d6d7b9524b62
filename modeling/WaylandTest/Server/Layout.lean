import Mathlib.Data.List.Forall2
import WaylandTest.Lib.Bands
import WaylandTest.Server.Compositor

/-!
# The layout tiles the display

`relayoutSurfaces` divides the height of the display by the number of shell surfaces, and gives each
its band, in the order of the list. `relayoutSurfaces_tiles` says so of every list: the bands are
`Lib/Bands.lean`'s, and nothing else of any surface changes.

The count and the placement are two loops over one list. `map_mY_placed` relates the running `y` of
the second to the number of shell surfaces it has passed.
-/

set_option autoImplicit false

namespace WaylandTest

open Lib

/-- The two surfaces are the same, but for the height of a shell surface. -/
def Surface.SamePlaced (s t : Surface) : Prop :=
  t = if s.isShellSurface then s.setY t.mY else s

/-- The surfaces stand one under the other in the rows from 0 to `displayHeight`, all of one
height, and leave less than one row for each of them. -/
structure Tiled (displayHeight : Int) (ss : List Surface) : Prop where
  place : ∀ (k : Nat) (s : Surface), ss[k]? = some s → s.mY = k * (displayHeight / ss.length)
  ordered : ss.Pairwise fun s t => s.mY + displayHeight / ss.length ≤ t.mY
  disjoint : ss.Pairwise fun s t => ∀ row,
    ¬ (InBand (displayHeight / ss.length) s.mY row ∧ InBand (displayHeight / ss.length) t.mY row)
  inside : ∀ s ∈ ss, 0 ≤ s.mY ∧ s.mY + displayHeight / ss.length ≤ displayHeight
  covered : ∀ row, (∃ s ∈ ss, InBand (displayHeight / ss.length) s.mY row) ↔
    0 ≤ row ∧ row < ss.length * (displayHeight / ss.length)
  unused : displayHeight - ss.length * (displayHeight / ss.length) < ss.length

/-- Surfaces in the bands of the display tile it. -/
theorem tiled_of_bands {displayHeight : Int} {ss : List Surface} (hheight : 0 ≤ displayHeight)
    (hpos : 0 < ss.length)
    (h : ss.map Surface.mY = bands (displayHeight / ss.length) ss.length) :
    Tiled displayHeight ss := by
  have hband : 0 ≤ displayHeight / ss.length :=
    Int.ediv_nonneg hheight (Int.natCast_nonneg ss.length)
  have hordered := bands_pairwise hband ss.length
  rw [← h, List.pairwise_map] at hordered
  refine ⟨fun k s hs => ?_, hordered, hordered.imp disjoint_bands, fun s hs => ?_, fun row => ?_,
    (bands_unused hpos).2⟩
  · apply bands_getElem? (n := ss.length)
    simp [← h, hs]
  · apply bands_inside hheight (n := ss.length)
    rw [← h]
    exact List.mem_map_of_mem hs
  · rw [← exists_band_iff hband ss.length, ← h]
    simp

namespace Compositor

variable {c : Compositor} {ss ss' : List Surface}

@[simp] theorem isShellSurface_setY (s : Surface) (y : Int) :
    (s.setY y).isShellSurface = s.isShellSurface := rfl

theorem samePlaced_placed (height y : Int) (ss : List Surface) :
    List.Forall₂ Surface.SamePlaced ss (placed height y ss) := by
  induction ss generalizing y with
  | nil => exact .nil
  | cons s ss ih =>
    by_cases hs : s.isShellSurface = true
    · simp only [placed, hs, if_true]
      exact .cons (by simp [Surface.SamePlaced, hs, Surface.setY]) (ih _)
    · simp only [placed, hs, Bool.false_eq_true, if_false]
      exact .cons (by simp [Surface.SamePlaced, hs]) (ih _)

/-- **The running height** of the placement, at the shell surfaces: the bands, from `y` on. -/
theorem map_mY_placed (height y : Int) (ss : List Surface) :
    ((placed height y ss).filter Surface.isShellSurface).map Surface.mY =
      (bands height (ss.countP Surface.isShellSurface)).map (y + ·) := by
  induction ss generalizing y with
  | nil => rfl
  | cons s ss ih =>
    by_cases hs : s.isShellSurface = true
    · have hplaced : (s.setY y).mY = y := rfl
      simp only [placed, hs, if_true, List.filter_cons_of_pos, isShellSurface_setY, List.map_cons,
        hplaced, ih, List.countP_cons_of_pos, bands_succ, List.map_map, Int.add_zero]
      congr 1
      refine List.map_congr_left fun z _ => ?_
      show y + height + z = y + (z + height)
      omega
    · simp only [placed, hs, Bool.false_eq_true, if_false, not_false_eq_true,
        List.filter_cons_of_neg, ih, List.countP_cons_of_neg]

/-- The placement reads the heights of no shell surface. -/
theorem placed_samePlaced (height y : Int) (h : List.Forall₂ Surface.SamePlaced ss ss') :
    placed height y ss' = placed height y ss := by
  induction h generalizing y with
  | nil => rfl
  | @cons s t ss ss' hst _ ih =>
    by_cases hs : s.isShellSurface = true
    · rw [Surface.SamePlaced, if_pos hs] at hst
      have ht : t.isShellSurface = true := by rw [hst, isShellSurface_setY, hs]
      simp only [placed, hs, ht, if_true, ih]
      rw [hst]
      rfl
    · rw [Surface.SamePlaced, if_neg hs] at hst
      simp only [placed, hst, hs, Bool.false_eq_true, if_false, ih]

theorem countP_samePlaced (h : List.Forall₂ Surface.SamePlaced ss ss') :
    ss'.countP Surface.isShellSurface = ss.countP Surface.isShellSurface := by
  induction h with
  | nil => rfl
  | @cons s t ss ss' hst _ ih =>
    have ht : t.isShellSurface = s.isShellSurface := by
      rw [Surface.SamePlaced] at hst
      rw [hst]
      split <;> simp
    simp only [List.countP_cons, ih, ht]

/-- With no shell surface, surfaces that are the same but for their placement are the same. -/
theorem eq_of_samePlaced (h : List.Forall₂ Surface.SamePlaced ss ss')
    (hnone : ss.countP Surface.isShellSurface = 0) : ss' = ss := by
  induction h with
  | nil => rfl
  | @cons s t ss ss' hst _ ih =>
    by_cases hs : s.isShellSurface = true
    · simp [hs] at hnone
    · rw [Surface.SamePlaced, if_neg hs] at hst
      rw [List.countP_cons_of_neg hs] at hnone
      rw [hst, ih hnone]

theorem relaid_samePlaced (displayHeight : Int) (h : List.Forall₂ Surface.SamePlaced ss ss') :
    relaid displayHeight ss' = relaid displayHeight ss := by
  unfold relaid
  rw [countP_samePlaced h]
  split
  · next hnone => exact eq_of_samePlaced h hnone
  · exact placed_samePlaced _ _ h

theorem placed_map {f : Surface → Surface} (hshell : ∀ s, (f s).isShellSurface = s.isShellSurface)
    (hplace : ∀ s y, f (s.setY y) = (f s).setY y) (height y : Int) (ss : List Surface) :
    placed height y (ss.map f) = (placed height y ss).map f := by
  induction ss generalizing y with
  | nil => rfl
  | cons s ss ih =>
    by_cases hs : s.isShellSurface = true
    · simp only [List.map_cons, placed, hshell, hs, if_true, ih, hplace]
    · simp only [List.map_cons, placed, hshell, hs, Bool.false_eq_true, if_false, ih]

/-- What changes neither the roles nor the heights of surfaces, the layout passes by. -/
theorem relaid_map {f : Surface → Surface} (hshell : ∀ s, (f s).isShellSurface = s.isShellSurface)
    (hplace : ∀ s y, f (s.setY y) = (f s).setY y) (displayHeight : Int) (ss : List Surface) :
    relaid displayHeight (ss.map f) = (relaid displayHeight ss).map f := by
  have hcount : (ss.map f).countP Surface.isShellSurface = ss.countP Surface.isShellSurface := by
    rw [List.countP_map]
    exact List.countP_congr fun s _ => by simp [hshell]
  unfold relaid
  rw [hcount]
  split
  · rfl
  · exact placed_map hshell hplace _ _ ss

theorem samePlaced_relaid (displayHeight : Int) (ss : List Surface) :
    List.Forall₂ Surface.SamePlaced ss (relaid displayHeight ss) := by
  unfold relaid
  split
  · refine List.forall₂_same.mpr fun s _ => ?_
    unfold Surface.SamePlaced
    split <;> rfl
  · exact samePlaced_placed _ _ _

/-- The layout of a layout is the layout. -/
theorem relaid_relaid (displayHeight : Int) (ss : List Surface) :
    relaid displayHeight (relaid displayHeight ss) = relaid displayHeight ss :=
  relaid_samePlaced _ (samePlaced_relaid _ _)

theorem tiled_relaid {displayHeight : Int} (hheight : 0 ≤ displayHeight)
    (hpos : 0 < ss.countP Surface.isShellSurface) :
    Tiled displayHeight ((relaid displayHeight ss).filter Surface.isShellSurface) := by
  have hlen : ((relaid displayHeight ss).filter Surface.isShellSurface).length =
      ss.countP Surface.isShellSurface := by
    rw [← List.countP_eq_length_filter, countP_samePlaced (samePlaced_relaid _ _)]
  refine tiled_of_bands hheight (by rw [hlen]; exact hpos) ?_
  rw [hlen, relaid, if_neg (Nat.ne_of_gt hpos), map_mY_placed,
    Int.tdiv_eq_ediv_of_nonneg hheight]
  simp

/-- The layout does not divide by zero: it is the same whatever that would do. -/
theorem relayoutSurfacesBy_eq {div : Int → Int → Exec Call Fault Int}
    (hdiv : ∀ a b, b ≠ 0 → div a b = pure (a.tdiv b)) (c : Compositor) :
    c.relayoutSurfacesBy div = c.relayoutSurfaces := by
  unfold relayoutSurfacesBy relayoutSurfaces
  congr 1
  funext count
  split
  · rfl
  · next hcount => rw [hdiv _ _ hcount]

end Compositor

open Compositor

/-- **The layout tiles.** In any list, however shell surfaces and others are mixed, the shell
surfaces come to tile the display in the order of the list, and nothing but their heights changes.
Without a shell surface nothing changes. The layout never divides by zero, and the heights before it
do not matter. -/
theorem relayoutSurfaces_tiles (c : Compositor) (ss : List Surface)
    (hheight : 0 ≤ c.mDisplayHeight) (hlist : c.mSurfacesList = ss.map some) :
    (0 < ss.countP Surface.isShellSurface → ∃ ts : List Surface,
      c.relayoutSurfaces = ⟨[], .ok { c with mSurfacesList := ts.map some }⟩ ∧
        List.Forall₂ Surface.SamePlaced ss ts ∧
        (ts.filter Surface.isShellSurface).length = ss.countP Surface.isShellSurface ∧
        Tiled c.mDisplayHeight (ts.filter Surface.isShellSurface)) ∧
      (ss.countP Surface.isShellSurface = 0 → c.relayoutSurfaces = ⟨[], .ok c⟩) ∧
      (∀ div : Int → Int → Exec Call Fault Int, (∀ a b, b ≠ 0 → div a b = pure (a.tdiv b)) →
        c.relayoutSurfacesBy div = c.relayoutSurfaces) ∧
      ∀ ss' : List Surface, List.Forall₂ Surface.SamePlaced ss ss' →
        ({ c with mSurfacesList := ss'.map some } : Compositor).relayoutSurfaces =
          c.relayoutSurfaces := by
  refine ⟨fun hpos => ?_, fun hnone => ?_, fun div hdiv => relayoutSurfacesBy_eq hdiv c,
    fun ss' h => ?_⟩
  · have hplaced := samePlaced_relaid c.mDisplayHeight ss
    refine ⟨_, relayoutSurfaces_eq hlist, hplaced, ?_, tiled_relaid hheight hpos⟩
    rw [← List.countP_eq_length_filter, countP_samePlaced hplaced]
  · rw [relayoutSurfaces_eq hlist, relaid, if_pos hnone, ← hlist]
  · rw [relayoutSurfaces_eq rfl, relayoutSurfaces_eq hlist, relaid_samePlaced _ h]

/-- Two shell surfaces at some heights, and between them a surface that is none. -/
def threeSurfaces : List Surface :=
  [{ Surface.construct 0 1 2 none with mShellSurface := some ⟨3, 4⟩, mY := 7 },
    Surface.construct 5 6 2 none,
    { Surface.construct 8 9 2 none with mShellSurface := some ⟨10, 11⟩ }]

def threeSurfacesScreen : Compositor where
  mSurfacesList := threeSurfaces.map some
  mDisplayWidth := 1
  mDisplayHeight := 5
  mDisplayBuffer := []

theorem relayoutSurfaces_tiles_three :
    ∃ ts : List Surface,
      threeSurfacesScreen.relayoutSurfaces =
          ⟨[], .ok { threeSurfacesScreen with mSurfacesList := ts.map some }⟩ ∧
        List.Forall₂ Surface.SamePlaced threeSurfaces ts ∧
        (ts.filter Surface.isShellSurface).length = 2 ∧
        Tiled 5 (ts.filter Surface.isShellSurface) :=
  (relayoutSurfaces_tiles threeSurfacesScreen threeSurfaces (by decide) rfl).1 (by decide)

end WaylandTest
