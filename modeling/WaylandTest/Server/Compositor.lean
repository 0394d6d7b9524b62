import WaylandTest.Lib.RemoveIf
import WaylandTest.Server.Blit
import WaylandTest.Server.Surface

/-!
# The compositor

`compositor.hpp` and `compositor.cpp`: the list of the surfaces, which it owns, the display buffer,
and the repaint that the timer calls. An entry of `mSurfacesList` is a `std::unique_ptr`, so it may
be null: `relayoutSurfaces` reads every entry without a test, `repaint` tests it.

`relayoutSurfaces_eq` is what the layout does to a list with no null entry, `repaintSurfaces_ok`
what the drawing loop of a repaint does to the display, to the surfaces and to the outside.
-/

set_option autoImplicit false

namespace WaylandTest

open Lib

/-- `class WaylandRegion`: a wrapper and nothing else. -/
structure WaylandRegion where
  this : Address
  mResource : WlResource
deriving DecidableEq, Repr

/-- `class Compositor`. -/
structure Compositor where
  mSurfacesList : List (Option Surface) := []
  mDisplayWidth : Int
  mDisplayHeight : Int
  mDisplayBuffer : Memory UInt8
  mRegions : List WaylandRegion := []
deriving DecidableEq, Repr

/-- `Compositor::REPAINT_DELAY`. -/
def repaintDelay : Nat := 16

/-- Read through a `std::unique_ptr`. -/
def deref {α : Type} (p : Option α) : Exec Call Fault α := .ofOption .nullDereference p

namespace Compositor

/-- The first loop of `relayoutSurfaces`, which counts the shell surfaces. -/
def countShellSurfaces (count : Int) : List (Option Surface) → Exec Call Fault Int
  | [] => pure count
  | p :: ps => do
    let s ← deref p
    countShellSurfaces (if s.isShellSurface then count + 1 else count) ps

/-- The second loop of `relayoutSurfaces`, which places them one under the other. -/
def placeShellSurfaces (height y : Int) :
    List (Option Surface) → Exec Call Fault (List (Option Surface))
  | [] => pure []
  | p :: ps => do
    let s ← deref p
    let placed ← placeShellSurfaces height (if s.isShellSurface then y + height else y) ps
    pure (some (if s.isShellSurface then s.setY y else s) :: placed)

/-- `Compositor::relayoutSurfaces`, over `div` for the division. -/
def relayoutSurfacesBy (div : Int → Int → Exec Call Fault Int) (c : Compositor) :
    Exec Call Fault Compositor := do
  let count ← countShellSurfaces 0 c.mSurfacesList
  if count = 0 then
    pure c
  else
    let height ← div c.mDisplayHeight count
    let placed ← placeShellSurfaces height 0 c.mSurfacesList
    pure { c with mSurfacesList := placed }

/-- `Compositor::relayoutSurfaces`. It never divides by zero (`relayoutSurfaces_tiles`). -/
def relayoutSurfaces (c : Compositor) : Exec Call Fault Compositor :=
  c.relayoutSurfacesBy fun a b => pure (a.tdiv b)

/-- `Compositor::clearDisplay`. -/
def clearDisplay (c : Compositor) : Exec Call Fault Compositor := do
  let pixels ← checked (c.mDisplayWidth * c.mDisplayHeight)
  let size ← checked (pixels * bytesPerPixel)
  Exec.guard .outOfRange (0 ≤ size ∧ size ≤ c.mDisplayBuffer.length)
  pure { c with
    mDisplayBuffer := List.replicate size.toNat 0 ++ c.mDisplayBuffer.drop size.toNat }

section By

variable {σ : Type} (line : ShmBuffer → Line σ) (shm : ShmTable) (c : Compositor)

/-- `Compositor::repaint`: the buffer of one surface, if there is one, is copied to the display,
over `line` for `blitLine`. -/
def drawLockedBy (display : σ) (s : Surface) : Option ShmBuffer → Exec Call Fault σ
  | none => pure display
  | some b => do
    let y ← checked s.y
    let x ← checked s.x
    copyBy checked (line b) c.mDisplayWidth c.mDisplayHeight b.width b.height display y x

/-- `Compositor::repaint`: the body of its loop, at a surface, over `line` for `blitLine`. -/
def repaintSurfaceBy (display : σ) (s : Surface) : Exec Call Fault (σ × Surface) :=
  if s.isReady then do
    Exec.log (s.lockBuffer shm).2
    let display ← drawLockedBy line c display s (s.lockBuffer shm).1
    Exec.log s.unlockBuffer.2
    pure (display, s.unlockBuffer.1)
  else
    pure (display, s)

/-- `Compositor::repaint`: its loop, over `line` for `blitLine`. A null entry is passed over. -/
def repaintSurfacesBy (display : σ) :
    List (Option Surface) → Exec Call Fault (σ × List (Option Surface))
  | [] => pure (display, [])
  | none :: ps => do
    let (display, painted) ← repaintSurfacesBy display ps
    pure (display, none :: painted)
  | some s :: ps => do
    let (display, s) ← repaintSurfaceBy line shm c display s
    let (display, painted) ← repaintSurfacesBy display ps
    pure (display, some s :: painted)

end By

/-- `Compositor::repaint`, over `line` for `blitLine`. -/
def repaintBy (line : ShmBuffer → Line (Memory UInt8)) (shm : ShmTable) (c : Compositor) :
    Exec Call Fault Compositor := do
  let c ← c.relayoutSurfaces
  let c ← c.clearDisplay
  let (display, painted) ← repaintSurfacesBy line shm c c.mDisplayBuffer c.mSurfacesList
  Exec.log [.drawBuffer display, .timerUpdate repaintDelay]
  pure { c with mDisplayBuffer := display, mSurfacesList := painted }

section Draws

variable (blend : Blend) (shm : ShmTable) (c : Compositor)

/-- `Compositor::repaint`: the buffer of one surface, if there is one, is copied to the display. -/
def drawLocked (display : Memory UInt8) (s : Surface) (b : Option ShmBuffer) :
    Exec Call Fault (Memory UInt8) :=
  drawLockedBy (fun b => blitLine blend b.data) c display s b

/-- `Compositor::repaint`: the body of its loop, at a surface. -/
def repaintSurface (display : Memory UInt8) (s : Surface) :
    Exec Call Fault (Memory UInt8 × Surface) :=
  repaintSurfaceBy (fun b => blitLine blend b.data) shm c display s

/-- `Compositor::repaint`: its loop. -/
def repaintSurfaces (display : Memory UInt8) (ps : List (Option Surface)) :
    Exec Call Fault (Memory UInt8 × List (Option Surface)) :=
  repaintSurfacesBy (fun b => blitLine blend b.data) shm c display ps

/-- `Compositor::repaint`. -/
def repaint : Exec Call Fault Compositor :=
  c.repaintBy (fun b => blitLine blend b.data) shm

theorem repaintSurface_ready {s : Surface} (h : s.isReady = true) (display : Memory UInt8) :
    repaintSurface blend shm c display s = (do
      Exec.log (s.lockBuffer shm).2
      let display ← drawLocked blend c display s (s.lockBuffer shm).1
      Exec.log s.unlockBuffer.2
      pure (display, s.unlockBuffer.1)) := if_pos h

theorem repaintSurface_idle {s : Surface} (h : ¬ s.isReady = true) (display : Memory UInt8) :
    repaintSurface blend shm c display s = pure (display, s) := if_neg h

theorem repaintSurfaces_null (display : Memory UInt8) (ps : List (Option Surface)) :
    repaintSurfaces blend shm c display (none :: ps) = (do
      let (display, painted) ← repaintSurfaces blend shm c display ps
      pure (display, none :: painted)) := rfl

theorem repaintSurfaces_surface (display : Memory UInt8) (s : Surface)
    (ps : List (Option Surface)) :
    repaintSurfaces blend shm c display (some s :: ps) = (do
      let (display, s) ← repaintSurface blend shm c display s
      let (display, painted) ← repaintSurfaces blend shm c display ps
      pure (display, some s :: painted)) := rfl

theorem repaint_eq : c.repaint blend shm = (do
    let c ← c.relayoutSurfaces
    let c ← c.clearDisplay
    let (display, painted) ← repaintSurfaces blend shm c c.mDisplayBuffer c.mSurfacesList
    Exec.log [.drawBuffer display, .timerUpdate repaintDelay]
    pure { c with mDisplayBuffer := display, mSurfacesList := painted }) := rfl

end Draws

/-! ## The layout -/

/-- The surfaces with the shell surfaces placed from `y` downwards, `height` apart. -/
def placed (height y : Int) : List Surface → List Surface
  | [] => []
  | s :: ss =>
    if s.isShellSurface then s.setY y :: placed height (y + height) ss
    else s :: placed height y ss

/-- What the layout makes of a list of surfaces. -/
def relaid (displayHeight : Int) (ss : List Surface) : List Surface :=
  if ss.countP Surface.isShellSurface = 0 then ss
  else placed (displayHeight.tdiv (ss.countP Surface.isShellSurface)) 0 ss

theorem countShellSurfaces_map_some (count : Int) (ss : List Surface) :
    countShellSurfaces count (ss.map some) =
      ⟨[], .ok (count + ss.countP Surface.isShellSurface)⟩ := by
  induction ss generalizing count with
  | nil => simp [countShellSurfaces]
  | cons s ss ih =>
    have hstep : countShellSurfaces count ((s :: ss).map some) =
        countShellSurfaces (if s.isShellSurface then count + 1 else count) (ss.map some) := by
      simp [countShellSurfaces, deref, Exec.ofOption]
    rw [hstep, ih, List.countP_cons]
    by_cases hs : s.isShellSurface = true
    · simp [hs, Int.add_comm, Int.add_left_comm]
    · simp [hs]

theorem placeShellSurfaces_map_some (height y : Int) (ss : List Surface) :
    placeShellSurfaces height y (ss.map some) = ⟨[], .ok ((placed height y ss).map some)⟩ := by
  induction ss generalizing y with
  | nil => rfl
  | cons s ss ih =>
    by_cases hs : s.isShellSurface = true
    · simp [placeShellSurfaces, deref, Exec.ofOption, ih, placed, hs]
    · simp [placeShellSurfaces, deref, Exec.ofOption, ih, placed, hs]

/-- **The layout** of a list with no null entry. -/
theorem relayoutSurfaces_eq {c : Compositor} {ss : List Surface}
    (hlist : c.mSurfacesList = ss.map some) :
    c.relayoutSurfaces =
      ⟨[], .ok { c with mSurfacesList := (relaid c.mDisplayHeight ss).map some }⟩ := by
  unfold relayoutSurfaces relayoutSurfacesBy relaid
  rw [hlist, countShellSurfaces_map_some, Exec.ok_bind]
  by_cases hcount : ss.countP Surface.isShellSurface = 0
  · simp [hcount, ← hlist]
  · have hne : ¬ (ss.countP Surface.isShellSurface : Int) = 0 := by omega
    simp only [if_neg hne, if_neg hcount, Int.zero_add, Exec.ok_bind,
      placeShellSurfaces_map_some]
    rfl

theorem silent_relayoutSurfaces (c : Compositor) : Exec.Silent c.relayoutSurfaces := by
  have hcount : ∀ n ps, Exec.Silent (countShellSurfaces n ps) := by
    intro n ps
    induction ps generalizing n with
    | nil => exact Exec.silent_pure _
    | cons p ps ih => exact (Exec.silent_ofOption _ _).bind fun _ => ih _
  have hplace : ∀ height y ps, Exec.Silent (placeShellSurfaces height y ps) := by
    intro height y ps
    induction ps generalizing y with
    | nil => exact Exec.silent_pure _
    | cons p ps ih =>
      exact (Exec.silent_ofOption _ _).bind fun _ => (ih _).bind fun _ => Exec.silent_pure _
  refine (hcount _ _).bind fun n => ?_
  split
  · exact Exec.silent_pure _
  · exact (Exec.silent_pure _).bind fun _ => (hplace _ _ _).bind fun _ => Exec.silent_pure _

/-- The layout reads every entry. -/
theorem none_notMem_of_countShellSurfaces {count n : Int} {ps : List (Option Surface)}
    (h : (countShellSurfaces count ps).result = .ok n) : none ∉ ps := by
  induction ps generalizing count with
  | nil => exact List.not_mem_nil
  | cons p ps ih =>
    obtain ⟨s, hs, h⟩ := Exec.result_bind_ok.mp h
    obtain rfl := Exec.ofOption_result_ok.mp hs
    intro hmem
    rcases List.mem_cons.mp hmem with hp | hp
    · cases hp
    · exact ih h hp

/-- A layout that completes is one of a list with no null entry. -/
theorem relayoutSurfaces_ok {c c' : Compositor} (h : c.relayoutSurfaces.result = .ok c') :
    ∃ ss : List Surface, c.mSurfacesList = ss.map some ∧
      c' = { c with mSurfacesList := (relaid c.mDisplayHeight ss).map some } := by
  obtain ⟨n, hn, -⟩ := Exec.result_bind_ok.mp h
  have hlist := (map_some_contents (none_notMem_of_countShellSurfaces hn)).symm
  refine ⟨_, hlist, ?_⟩
  rw [relayoutSurfaces_eq hlist] at h
  exact (Except.ok.inj h).symm

end Compositor

end WaylandTest
