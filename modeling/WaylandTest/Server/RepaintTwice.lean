import WaylandTest.Server.EachSurface
import WaylandTest.Server.Layout
import WaylandTest.Server.RepaintOverflow
import WaylandTest.Server.UnusedByte

/-!
# A repaint repeated

A repaint lays the surfaces out, clears the display, draws them and answers their callbacks.
`repaint_idempotent` says that a second one, with no request in between, finds nothing to do but to
hand over the same frame: the layout is one already, the cleared display is the same, what is drawn
reads no callback, and no callback is left to be answered.

The proof takes the first repaint apart (`repaint_cases`) and puts the second one together from
the same parts (`repaint_of`), surface by surface.
-/

set_option autoImplicit false

namespace WaylandTest

open Lib Exec

/-- The callback that a surface holds in its front state, if it is ready. -/
def Surface.heldCallback (s : Surface) : Option WlResource :=
  if s.isReady then s.mFront.callbackDone else none

namespace Surface

variable {shm : ShmTable} {s : Surface}

/-- A repaint changes no more than the callback of the front state. -/
theorem exists_repainted (shm : ShmTable) (s : Surface) :
    ∃ cb, (s.repainted shm).1 = { s with mFront := { s.mFront with callbackDone := cb } } := by
  unfold repainted
  split
  · cases hf : s.mFront.buffer with
    | none =>
      rw [unlockBuffer_idle hf]
      exact ⟨s.mFront.callbackDone, rfl⟩
    | some b =>
      rw [unlockBuffer_shown hf]
      exact ⟨none, rfl⟩
  · exact ⟨s.mFront.callbackDone, rfl⟩

@[simp] theorem isShellSurface_repainted :
    (s.repainted shm).1.isShellSurface = s.isShellSurface := by
  obtain ⟨cb, h⟩ := s.exists_repainted shm
  rw [h]
  rfl

theorem repainted_setY (y : Int) : ((s.setY y).repainted shm).1 = (s.repainted shm).1.setY y := by
  unfold repainted isReady unlockBuffer setY
  simp only
  split
  · cases s.mFront.buffer <;> rfl
  · rfl

theorem wireEvents_repainted (hs : s.Consistent) :
    wireEvents (s.repainted shm).2 = s.heldCallback.toList.map .done := by
  unfold heldCallback isReady
  rw [hs.frontReady]
  cases hf : s.mFront.buffer with
  | none =>
    rw [repainted_idle hs hf]
    rfl
  | some f =>
    rw [(repainted_shown shm hs hf).2]
    rfl

/-- A surface that was repainted holds no callback that is to be answered, and stays as it is. -/
theorem repainted_again (hs : s.Consistent) :
    ((s.repainted shm).1.repainted shm).1 = (s.repainted shm).1 ∧
      (s.repainted shm).1.heldCallback = none := by
  unfold heldCallback isReady
  cases hf : s.mFront.buffer with
  | none =>
    have hr : s.mFront.isReady = false := by rw [hs.frontReady, hf]; rfl
    rw [repainted_idle hs hf]
    simp [repainted_idle hs hf, hr]
  | some f =>
    have hone := (repainted_shown shm hs hf).1
    have htwo : (s.repainted shm).1.Consistent := hs.repainted
    rw [hone] at htwo ⊢
    exact ⟨(repainted_shown shm htwo hf).1, by simp⟩

end Surface

namespace Compositor

variable {blend : Blend} {shm : ShmTable} {c c' : Compositor} {display display' : Memory UInt8}
  {s : Surface} {cs : List Call}

/-! ## The drawing loop again -/

/-- The other way round of `repaintSurface_ok`. -/
theorem repaintSurface_of
    (h : (drawLocked blend c display s (s.lockBuffer shm).1).result = .ok display') :
    repaintSurface blend shm c display s =
      ⟨(s.repainted shm).2, .ok (display', (s.repainted shm).1)⟩ := by
  unfold Surface.repainted
  by_cases hr : s.isReady = true
  · rw [repaintSurface_ready blend shm c hr, if_pos hr, (silent_drawLocked s _).eq_ok h]
    simp [log]
  · rw [Surface.lockBuffer_not_ready shm hr] at h
    cases h
    rw [repaintSurface_idle blend shm c hr, if_neg hr]
    rfl

/-- What is drawn of a surface reads none of what a repaint changes of it. -/
theorem drawLocked_repainted (hw : c'.mDisplayWidth = c.mDisplayWidth)
    (hh : c'.mDisplayHeight = c.mDisplayHeight) (s : Surface) :
    drawLocked blend c' display (s.repainted shm).1 ((s.repainted shm).1.lockBuffer shm).1 =
      drawLocked blend c display s (s.lockBuffer shm).1 := by
  obtain ⟨cb, hcb⟩ := s.exists_repainted shm
  have hlock : ((s.repainted shm).1.lockBuffer shm).1 = (s.lockBuffer shm).1 := by
    rw [hcb]
    rfl
  rw [hlock]
  cases (s.lockBuffer shm).1 with
  | none => rfl
  | some b =>
    unfold drawLocked drawLockedBy
    rw [hw, hh, hcb]
    rfl

/-- **The loop of a repaint**, over the surfaces it has left: the display comes out as before, and
the surfaces stay. -/
theorem repaintSurfaces_again (hw : c'.mDisplayWidth = c.mDisplayWidth)
    (hh : c'.mDisplayHeight = c.mDisplayHeight) {ss : List Surface}
    (hss : ∀ s ∈ ss, s.Consistent) {painted : List (Option Surface)}
    (h : repaintSurfaces blend shm c display (ss.map some) = ⟨cs, .ok (display', painted)⟩) :
    (repaintSurfaces blend shm c' display ((ss.map fun s => (s.repainted shm).1).map some)).result =
      .ok (display', (ss.map fun s => (s.repainted shm).1).map some) := by
  induction ss generalizing display cs painted with
  | nil =>
    cases h
    rfl
  | cons s ss ih =>
    obtain ⟨_, ⟨d, s'⟩, _, hone, hmore, rfl⟩ := Exec.bind_eq_ok.mp h
    obtain ⟨_, ⟨d', painted'⟩, _, hrest, hret, rfl⟩ := Exec.bind_eq_ok.mp hmore
    cases hret
    obtain ⟨-, -, hdraw⟩ := repaintSurface_ok hone
    rw [← drawLocked_repainted hw hh s] at hdraw
    have hagain := repaintSurface_of hdraw
    rw [(s.repainted_again (hss s List.mem_cons_self)).1] at hagain
    have htail := ih (fun t ht => hss t (List.mem_cons_of_mem s ht)) hrest
    simp only [List.map_cons, repaintSurfaces_surface, hagain, ok_bind]
    rw [result_bind_of_ok htail]
    rfl

/-- What a loop over surfaces sends to the clients. -/
theorem wireEvents_repaintedCalls {ss : List Surface} (hss : ∀ s ∈ ss, s.Consistent) :
    wireEvents (repaintedCalls shm (ss.map some)) =
      (ss.filterMap Surface.heldCallback).map .done := by
  induction ss with
  | nil => rfl
  | cons s ss ih =>
    have hcalls : repaintedCalls shm ((s :: ss).map some) =
        (s.repainted shm).2 ++ repaintedCalls shm (ss.map some) := rfl
    rw [hcalls, wireEvents_append, Surface.wireEvents_repainted (hss s List.mem_cons_self),
      ih fun t ht => hss t (List.mem_cons_of_mem s ht)]
    cases hheld : s.heldCallback with
    | none => simp [hheld]
    | some cb => simp [hheld]

/-! ## The whole repaint again -/

/-- The other way round of `repaint_cases`, where the list is one that the layout leaves. -/
theorem repaint_of {cleared : Compositor} {bytes : Memory UInt8} {painted : List (Option Surface)}
    (hlaid : c.relayoutSurfaces.result = .ok c)
    (hcleared : c.clearDisplay.result = .ok cleared)
    (hloop : (repaintSurfaces blend shm cleared cleared.mDisplayBuffer c.mSurfacesList).result =
      .ok (bytes, painted)) :
    c.repaint blend shm =
      ⟨repaintedCalls shm c.mSurfacesList ++ [.drawBuffer bytes, .timerUpdate repaintDelay],
        .ok { c with mSurfacesList := painted, mDisplayBuffer := bytes }⟩ := by
  have hall : repaintSurfaces blend shm cleared cleared.mDisplayBuffer c.mSurfacesList =
      ⟨repaintedCalls shm c.mSurfacesList, .ok (bytes, painted)⟩ := by
    cases hx : repaintSurfaces blend shm cleared cleared.mDisplayBuffer c.mSurfacesList with
    | mk ds r =>
      rw [hx] at hloop
      cases hloop
      rw [(repaintSurfaces_surfaces hx).1]
  obtain rfl := clearDisplay_cases hcleared
  rw [repaint_eq, (silent_relayoutSurfaces c).eq_ok hlaid, ok_bind,
    (silent_clearDisplay c).eq_ok hcleared,
    ok_bind, hall]
  simp [log]

/-- The display buffer has just the bytes of the display. -/
def Allocated (c : Compositor) : Prop :=
  c.mDisplayBuffer.length = (c.mDisplayWidth * c.mDisplayHeight * bytesPerPixel).toNat

theorem Allocated.of_extent (hc : c.Allocated) (h : c'.extent = c.extent) : c'.Allocated := by
  simp only [extent, Prod.mk.injEq] at h
  obtain ⟨hw, hh, hb⟩ := h
  unfold Allocated
  rw [hb, hw, hh]
  exact hc

/-- A clearing that completes leaves zeros, and completes at every display of the same extent. -/
theorem Allocated.clearDisplay (hc : c.Allocated) {cleared : Compositor}
    (h : c.clearDisplay.result = .ok cleared) (hext : c'.extent = c.extent) :
    c'.clearDisplay.result =
      .ok { c' with mDisplayBuffer := List.replicate c.mDisplayBuffer.length 0 } := by
  have halike : Alike (fun _ _ => True) c.clearDisplay c'.clearDisplay := by
    simp only [extent, Prod.mk.injEq] at hext
    obtain ⟨hw, hh, hb⟩ := hext
    unfold Compositor.clearDisplay
    rw [hw, hh, hb]
    refine Alike.bind_same fun pixels => Alike.bind_same fun size => ?_
    exact Alike.bind_same fun _ => alike_pure trivial
  obtain ⟨d, hd, -⟩ := halike.ok h
  have hc' := hc.of_extent hext
  unfold Allocated at hc hc'
  rw [hd, clearDisplay_cases hd, ← hc', List.drop_length, List.append_nil]
  simp only [extent, Prod.mk.injEq] at hext
  rw [hext.2.2]

/-- The surfaces as a repaint leaves them. -/
def repaintedSurfaces (shm : ShmTable) (displayHeight : Int) (ss : List Surface) : List Surface :=
  (relaid displayHeight ss).map fun s => (s.repainted shm).1

theorem relaid_repaintedSurfaces (displayHeight : Int) (ss : List Surface) :
    relaid displayHeight (repaintedSurfaces shm displayHeight ss) =
      repaintedSurfaces shm displayHeight ss := by
  unfold repaintedSurfaces
  rw [relaid_map (fun _ => Surface.isShellSurface_repainted) fun _ => Surface.repainted_setY,
    relaid_relaid]

theorem heldCallbacks_relaid (displayHeight : Int) (ss : List Surface) :
    (relaid displayHeight ss).filterMap Surface.heldCallback =
      ss.filterMap Surface.heldCallback := by
  have hmap := map_relaid (f := Surface.heldCallback) (fun _ _ => rfl) displayHeight ss
  simpa using congrArg (List.filterMap id) hmap

/-- **A repaint repeated**, of a compositor whose surfaces are consistent. -/
theorem repaint_again (hc : c.Allocated) (hss : ∀ s ∈ contents c.mSurfacesList, s.Consistent)
    (h : c.repaint blend shm = ⟨cs, .ok c'⟩) :
    ∃ bytes ds, frames cs = [bytes] ∧
      wireEvents cs = ((contents c.mSurfacesList).filterMap Surface.heldCallback).map .done ∧
      c'.repaint blend shm = ⟨ds, .ok c'⟩ ∧ frames ds = [bytes] ∧ wireEvents ds = [] := by
  have hext := extent_repaint h
  obtain ⟨ss, cleared, bytes, _, painted, hlist, hcleared, hloop, rfl, rfl⟩ := repaint_cases h
  rw [hlist, contents_map_some] at hss ⊢
  have hlaid := forall_relaid (I := Surface.Consistent)
    (fun z y hz => ⟨hz.frontReady, hz.backReady, hz.filled⟩) hss c.mDisplayHeight
  have hagain : ∀ s ∈ repaintedSurfaces shm c.mDisplayHeight ss,
      s.Consistent ∧ s.heldCallback = none := by
    intro s hs
    obtain ⟨t, ht, rfl⟩ := List.mem_map.mp hs
    exact ⟨(hlaid t ht).repainted, (Surface.repainted_again (hlaid t ht)).2⟩
  have hpainted : ((relaid c.mDisplayHeight ss).map some).map
      (Option.map fun s => (s.repainted shm).1) =
        (repaintedSurfaces shm c.mDisplayHeight ss).map some := by
    simp [repaintedSurfaces, Function.comp_def]
  rw [hpainted] at hext ⊢
  have hc' : ({ c with mSurfacesList := (relaid c.mDisplayHeight ss).map some } :
      Compositor).Allocated := hc
  -- Both repaints clear the display to the same zeros.
  have hone := hc'.clearDisplay hcleared rfl
  rw [hcleared] at hone
  cases hone
  refine ⟨bytes, _, ?_, ?_, repaint_of ?_ (hc'.clearDisplay hcleared hext)
    (repaintSurfaces_again (by rfl) (by rfl) hlaid hloop), ?_, ?_⟩
  · rw [frames_append, frames_repaintedCalls]
    rfl
  · rw [wireEvents_append, wireEvents_repaintedCalls hlaid, heldCallbacks_relaid]
    simp [wireEvents, Call.event?]
  · rw [relayoutSurfaces_eq rfl, relaid_repaintedSurfaces]
  · rw [frames_append, frames_repaintedCalls]
    rfl
  · rw [wireEvents_append, wireEvents_repaintedCalls fun s hs => (hagain s hs).1,
      List.filterMap_eq_nil_iff.mpr fun s hs => (hagain s hs).2]
    rfl

end Compositor

theorem Server.reaches_allocated {blend : Blend} {width height : Int} {as : List ServeAction}
    {cs : List Call} {s : Server} (h : (requestMachine blend width height).Reaches as cs s) :
    s.mCompositor.Allocated :=
  h.invariant (P := fun s => s.mCompositor.Allocated) List.length_replicate
    fun _ _ _ _ hs hstep => hs.of_extent (extent_serve hstep)

/-- **Repaint is idempotent.** In every state that clients, the timer and the pointer lead to, a
repaint that completes sends `done` for the callbacks that the ready surfaces hold in their front
states, in the order of the list, and nothing else. A second one completes, hands over the same
frame, sends no event, and leaves the server as it is. -/
theorem repaint_idempotent (blend : Blend) (width height : Int) (as : List ServeAction)
    (before : List Call) (s : Server)
    (hreach : (requestMachine blend width height).Reaches as before s) (cs : List Call) (t : Server)
    (h : s.repaint blend = ⟨cs, .ok t⟩) :
    ∃ bytes ds, frames cs = [bytes] ∧
      wireEvents cs = (s.surfaces.filterMap Surface.heldCallback).map .done ∧
      t.repaint blend = ⟨ds, .ok t⟩ ∧ frames ds = [bytes] ∧ wireEvents ds = [] := by
  obtain ⟨_, c, _, hrepaint, hret, rfl⟩ := Exec.bind_eq_ok.mp h
  cases hret
  rw [List.append_nil]
  obtain ⟨bytes, ds, hframe, hevents, hagain, hframe₂, hevents₂⟩ :=
    Compositor.repaint_again (Server.reaches_allocated hreach) (Server.reaches_consistent hreach)
      hrepaint
  refine ⟨bytes, ds, hframe, hevents, ?_, hframe₂, hevents₂⟩
  exact Exec.bind_eq_ok.mpr ⟨ds, c, [], hagain, rfl, (List.append_nil ds).symm⟩

/-- A client shows a shell surface, and a second frame of it for which it wants to be called
back. -/
def shownTwice : List ServeAction :=
  [.connect, .request (.bind 0 .compositor), .request (.bind 0 .shell),
    .request (.createBuffer 0 (some ⟨1, 1, 4, .argb8888, [1, 2, 3, 255]⟩)),
    .request (.createBuffer 0 (some ⟨1, 1, 4, .argb8888, [4, 5, 6, 255]⟩)),
    .request (.createSurface 0), .request (.getShellSurface 1 4),
    .request (.surfaceAttach 4 (some 2) 0 0), .request (.surfaceCommit 4), .repaint,
    .request (.surfaceAttach 4 (some 3) 0 0), .request (.surfaceFrame 4),
    .request (.surfaceCommit 4)]

theorem repaint_idempotent_shownTwice :
    ∃ before s cs t bytes ds, (requestMachine integerBlend 1 1).Reaches shownTwice before s ∧
      s.repaint integerBlend = ⟨cs, .ok t⟩ ∧ frames cs = [bytes] ∧ wireEvents cs = [.done 6] ∧
      t.repaint integerBlend = ⟨ds, .ok t⟩ ∧ frames ds = [bytes] ∧ wireEvents ds = [] := by
  obtain ⟨bytes, ds, h⟩ := repaint_idempotent integerBlend 1 1 shownTwice _ _ rfl _ _ rfl
  exact ⟨_, _, _, _, bytes, ds, rfl, rfl, h⟩

end WaylandTest
