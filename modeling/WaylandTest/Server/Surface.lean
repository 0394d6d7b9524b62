import WaylandTest.Wayland
import WaylandTest.Lib.Machine

/-!
# A surface

`surface.hpp`: two `SurfaceState` objects, of which one is shown (`mFront`) and one collects
requests (`mBack`), a counter of filled buffers, and the offset the layout gives the surface. Each
method is a function to the new object and the calls it makes.

`Surface.Consistent` is what the two states, the ready flags and the counter have in common between
requests. Everything a commit does on a consistent surface is in three lemmas: it does nothing
(`surfaceCommit_idle`), it fills the front for the first time (`surfaceCommit_first`), or it
replaces the front (`surfaceCommit_next`).
-/

set_option autoImplicit false

namespace WaylandTest

open Lib

/-- `class SurfaceState`, with the initial values of its constructor. -/
structure SurfaceState where
  buffer : Option WlResource := none
  x : Int := 0
  y : Int := 0
  callbackDone : Option WlResource := none
  isReady : Bool := false
deriving DecidableEq, Repr

/-- `class ShellSurface`: a wrapper and nothing else. -/
structure ShellSurface where
  this : Address
  mResource : WlResource
deriving DecidableEq, Repr

/-- The one class that is a `DestroyListener<Surface>`. -/
inductive DestroyListener
  | compositor
deriving DecidableEq, Repr

/-- `class Surface`, with the `mResource` of its base `WaylandResource`. -/
structure Surface where
  this : Address
  mResource : WlResource
  mFront : SurfaceState := {}
  mBack : SurfaceState := {}
  mBuffersFilled : UInt32 := 0
  mClient : WlClient
  mX : Int := 0
  mY : Int := 0
  mShellSurface : Option ShellSurface := none
  mDestroyListener : Option DestroyListener := none
deriving DecidableEq, Repr

/-- `Surface::MAX_BUFFERS`. -/
def maxBuffers : UInt32 := 2

/-- Send `done` on the callback a state holds, if it holds one, and forget it. The three places
that answer a callback all do this. -/
def SurfaceState.sendDone (st : SurfaceState) : SurfaceState × List Call :=
  ({ st with callbackDone := none }, st.callbackDone.toList.map .callbackSendDone)

namespace Surface

/-- The constructor, once the factory has given the object its resource. -/
def construct (this : Address) (resource : WlResource) (client : WlClient)
    (listener : Option DestroyListener) : Surface :=
  { this := this, mResource := resource, mClient := client, mDestroyListener := listener }

/-- `Surface::isReady`. -/
def isReady (s : Surface) : Bool := s.mFront.isReady

/-- `Surface::lockBuffer`. -/
def lockBuffer (shm : ShmTable) (s : Surface) : Option ShmBuffer × List Call :=
  if s.mFront.isReady then
    (shm.get s.mFront.buffer,
      [.shmBufferGet s.mFront.buffer, .shmBufferBeginAccess s.mFront.buffer])
  else
    (none, [])

/-- `Surface::unlockBuffer`. -/
def unlockBuffer (s : Surface) : Surface × List Call :=
  match s.mFront.buffer with
  | none => (s, [])
  | some b =>
    ({ s with mFront := s.mFront.sendDone.1 },
      .shmBufferGet (some b) :: .shmBufferEndAccess (some b) :: s.mFront.sendDone.2)

/-- What `Compositor::repaint` does to one surface, drawing apart: a ready surface is locked and
unlocked. -/
def repainted (shm : ShmTable) (s : Surface) : Surface × List Call :=
  if s.isReady then
    (s.unlockBuffer.1, (s.lockBuffer shm).2 ++ s.unlockBuffer.2)
  else
    (s, [])

/-- `Surface::x`: the sum is an `int`. That it fits one is checked where a repaint takes it
(`Compositor.drawLocked`). -/
def x (s : Surface) : Int := s.mX + s.mBack.x

/-- `Surface::y`. -/
def y (s : Surface) : Int := s.mY + s.mBack.y

/-- `Surface::setX`. -/
def setX (s : Surface) (x : Int) : Surface := { s with mX := x }

/-- `Surface::setY`. -/
def setY (s : Surface) (y : Int) : Surface := { s with mY := y }

/-- `Surface::isShellSurface`. -/
def isShellSurface (s : Surface) : Bool := s.mShellSurface.isSome

/-- `Surface::swapBuffers`. -/
def swapBuffers (s : Surface) : Surface := { s with mFront := s.mBack, mBack := s.mFront }

/-- `Surface::surfaceCommit` up to the swap: the back state is ready and counted, and its callback
is answered at once while fewer than `MAX_BUFFERS` are filled. -/
def fillBack (s : Surface) : Surface × List Call :=
  let back := { s.mBack with isReady := true }
  let filled := s.mBuffersFilled + 1
  if filled < maxBuffers then
    ({ s with mBack := back.sendDone.1, mBuffersFilled := filled }, back.sendDone.2)
  else
    ({ s with mBack := back, mBuffersFilled := filled }, [])

/-- `Surface::surfaceCommit` after the swap: a state that was shown until now gives its buffer
back, answers its callback and is no longer counted. -/
def releaseBack (s : Surface) : Surface × List Call :=
  match s.mBack.buffer with
  | none => (s, [])
  | some b =>
    let (back, calls) := { s.mBack with buffer := none }.sendDone
    ({ s with mBack := { back with isReady := false }, mBuffersFilled := s.mBuffersFilled - 1 },
      .queueRelease b :: calls)

/-- `Surface::surfaceCommit`. -/
def surfaceCommit (s : Surface) : Surface × List Call :=
  match s.mBack.buffer with
  | none => (s, [])
  | some _ =>
    let (filled, calls) := s.fillBack
    let (released, calls') := filled.swapBuffers.releaseBack
    (released, calls ++ calls')

/-- `Surface::surfaceAttach`: a buffer that is no shm buffer is refused. -/
def surfaceAttach (shm : ShmTable) (s : Surface) (buffer : Option WlResource) (x y : Int) :
    Surface × List Call :=
  match shm.get buffer with
  | none => (s, [.shmBufferGet buffer])
  | some _ =>
    ({ s with mBack := { s.mBack with x := x, y := y, buffer := buffer } },
      [.shmBufferGet buffer])

/-- `Surface::surfaceFrame`; `callback` is what `wl_resource_create` returned. -/
def surfaceFrame (s : Surface) (callback : Option WlResource) : Surface :=
  { s with mBack := { s.mBack with callbackDone := callback } }

end Surface

/-- What can be done to a surface: the requests of its client, the two halves of a repaint, and the
positioning by layout and pointer. -/
inductive SurfaceOp
  | attach (buffer : Option WlResource) (x y : Int)
  | frame (callback : Option WlResource)
  | commit
  | lockBuffer
  | unlockBuffer
  | setX (x : Int)
  | setY (y : Int)
deriving DecidableEq, Repr

/-- One operation on a surface. -/
def Surface.perform (shm : ShmTable) (s : Surface) : SurfaceOp → Surface × List Call
  | .attach b x y => s.surfaceAttach shm b x y
  | .frame cb => (s.surfaceFrame cb, [])
  | .commit => s.surfaceCommit
  | .lockBuffer => (s, (s.lockBuffer shm).2)
  | .unlockBuffer => s.unlockBuffer
  | .setX x => (s.setX x, [])
  | .setY y => (s.setY y, [])

/-- A surface by itself, from its construction. -/
def surfaceMachine (shm : ShmTable) (s : Surface) : Machine Call Fault Surface SurfaceOp where
  init := s
  step s op := Exec.done (s.perform shm op)

/-- A table in which every handle is a buffer of one pixel, for runs on fixed inputs. -/
def onePixel : ShmTable := fun _ => some ⟨1, 1, 4, .argb8888, [1, 2, 3, 4]⟩

/-! ## What each operation does -/

@[simp] theorem SurfaceState.releases_sendDone (st : SurfaceState) :
    releases st.sendDone.2 = [] := by
  unfold SurfaceState.sendDone
  cases st.callbackDone <;> rfl

@[simp] theorem SurfaceState.wireEvents_sendDone (st : SurfaceState) :
    wireEvents st.sendDone.2 = st.callbackDone.toList.map .done := by
  unfold SurfaceState.sendDone
  cases st.callbackDone <;> rfl

namespace Surface

variable {shm : ShmTable} {s : Surface}

@[simp] theorem releases_lockBuffer : releases (s.lockBuffer shm).2 = [] := by
  unfold lockBuffer
  split <;> rfl

@[simp] theorem releases_unlockBuffer : releases s.unlockBuffer.2 = [] := by
  unfold unlockBuffer
  cases s.mFront.buffer with
  | none => rfl
  | some b => exact s.mFront.releases_sendDone

theorem unlockBuffer_shown {f : WlResource} (hf : s.mFront.buffer = some f) :
    s.unlockBuffer =
      ({ s with mFront := s.mFront.sendDone.1 },
        .shmBufferGet (some f) :: .shmBufferEndAccess (some f) :: s.mFront.sendDone.2) := by
  unfold unlockBuffer
  rw [hf]

theorem unlockBuffer_idle (hf : s.mFront.buffer = none) : s.unlockBuffer = (s, []) := by
  unfold unlockBuffer
  rw [hf]

@[simp] theorem unlockBuffer_mFront_buffer : s.unlockBuffer.1.mFront.buffer = s.mFront.buffer := by
  unfold unlockBuffer
  cases hf : s.mFront.buffer with
  | none => exact hf
  | some b => exact hf

@[simp] theorem unlockBuffer_mBack : s.unlockBuffer.1.mBack = s.mBack := by
  unfold unlockBuffer
  cases s.mFront.buffer <;> rfl

theorem surfaceAttach_calls {b : Option WlResource} {x y : Int} :
    (s.surfaceAttach shm b x y).2 = [.shmBufferGet b] := by
  unfold surfaceAttach
  cases shm.get b <;> rfl

@[simp] theorem surfaceAttach_mFront {b : Option WlResource} {x y : Int} :
    (s.surfaceAttach shm b x y).1.mFront = s.mFront := by
  unfold surfaceAttach
  cases shm.get b <;> rfl

@[simp] theorem releases_surfaceAttach {b : Option WlResource} {x y : Int} :
    releases (s.surfaceAttach shm b x y).2 = [] := by
  rw [surfaceAttach_calls]
  rfl

@[simp] theorem fillBack_mFront : s.fillBack.1.mFront = s.mFront := by
  unfold fillBack
  simp only
  split <;> rfl

@[simp] theorem fillBack_mBack_buffer : s.fillBack.1.mBack.buffer = s.mBack.buffer := by
  unfold fillBack
  simp only
  split <;> rfl

@[simp] theorem releaseBack_mFront : s.releaseBack.1.mFront = s.mFront := by
  unfold releaseBack
  split <;> rfl

@[simp] theorem wireEvents_lockBuffer : wireEvents (s.lockBuffer shm).2 = [] := by
  unfold lockBuffer
  split <;> rfl

/-- What the counter, the flags and the two states have in common between requests. -/
structure Consistent (s : Surface) : Prop where
  frontReady : s.mFront.isReady = s.mFront.buffer.isSome
  backReady : s.mBack.isReady = false
  filled : s.mBuffersFilled = if s.mFront.buffer.isSome then 1 else 0

theorem consistent_construct (this : Address) (r : WlResource) (c : WlClient)
    (l : Option DestroyListener) : (construct this r c l).Consistent := ⟨rfl, rfl, rfl⟩

/-- A commit with no buffer attached does nothing. -/
theorem surfaceCommit_idle (hb : s.mBack.buffer = none) : s.surfaceCommit = (s, []) := by
  unfold surfaceCommit
  rw [hb]

/-- The first effective commit: the callback is answered at once, and the old front, which never
was shown, becomes the back as it is. -/
theorem surfaceCommit_first (hs : s.Consistent) {b : WlResource} (hb : s.mBack.buffer = some b)
    (hf : s.mFront.buffer = none) :
    s.surfaceCommit =
      ({ s with
          mFront := { s.mBack with isReady := true, callbackDone := none }
          mBack := s.mFront
          mBuffersFilled := 1 },
        s.mBack.callbackDone.toList.map .callbackSendDone) := by
  have hfill : s.mBuffersFilled = 0 := by rw [hs.filled, hf]; rfl
  have hlt : (0 : UInt32) + 1 < maxBuffers := by decide
  unfold surfaceCommit fillBack releaseBack swapBuffers SurfaceState.sendDone
  simp only [hb, hf, hfill, if_pos hlt, List.append_nil]
  rfl

/-- A later effective commit: the buffer shown until now is released, its callback is answered if
no repaint did, and the callback of the new state waits. -/
theorem surfaceCommit_next (hs : s.Consistent) {b f : WlResource} (hb : s.mBack.buffer = some b)
    (hf : s.mFront.buffer = some f) :
    s.surfaceCommit =
      ({ s with
          mFront := { s.mBack with isReady := true }
          mBack := { s.mFront with buffer := none, callbackDone := none, isReady := false }
          mBuffersFilled := 1 },
        .queueRelease f :: s.mFront.callbackDone.toList.map .callbackSendDone) := by
  have hfill : s.mBuffersFilled = 1 := by rw [hs.filled, hf]; rfl
  have hnlt : ¬ (1 : UInt32) + 1 < maxBuffers := by decide
  unfold surfaceCommit fillBack releaseBack swapBuffers SurfaceState.sendDone
  simp only [hb, hf, hfill, if_neg hnlt, List.nil_append]
  rfl

/-- A repaint of a surface that shows no buffer does nothing. -/
theorem repainted_idle (hs : s.Consistent) (hf : s.mFront.buffer = none) :
    s.repainted shm = (s, []) := by
  have hr : s.mFront.isReady = false := by rw [hs.frontReady, hf]; rfl
  simp only [repainted, isReady, hr, Bool.false_eq_true, if_false]

/-- A repaint of a surface that shows a buffer answers the callback of the front state. -/
theorem repainted_shown (shm : ShmTable) (hs : s.Consistent) {f : WlResource}
    (hf : s.mFront.buffer = some f) :
    (s.repainted shm).1 = { s with mFront := { s.mFront with callbackDone := none } } ∧
      wireEvents (s.repainted shm).2 = s.mFront.callbackDone.toList.map .done := by
  have hr : s.mFront.isReady = true := by rw [hs.frontReady, hf]; rfl
  have he : s.repainted shm = (s.unlockBuffer.1, (s.lockBuffer shm).2 ++ s.unlockBuffer.2) := by
    simp only [repainted, isReady, hr, if_true]
  rw [he, unlockBuffer_shown hf, wireEvents_append, wireEvents_lockBuffer, List.nil_append]
  exact ⟨rfl, s.mFront.wireEvents_sendDone⟩

theorem Consistent.surfaceAttach (shm : ShmTable) (hs : s.Consistent) (b : Option WlResource)
    (x y : Int) :
    (s.surfaceAttach shm b x y).1.Consistent := by
  unfold Surface.surfaceAttach
  cases shm.get b with
  | none => exact hs
  | some _ => exact ⟨hs.frontReady, hs.backReady, hs.filled⟩

theorem Consistent.surfaceFrame (hs : s.Consistent) (cb : Option WlResource) :
    (s.surfaceFrame cb).Consistent := ⟨hs.frontReady, hs.backReady, hs.filled⟩

theorem Consistent.unlockBuffer (hs : s.Consistent) : s.unlockBuffer.1.Consistent := by
  unfold Surface.unlockBuffer
  cases hf : s.mFront.buffer with
  | none => exact hs
  | some b => exact ⟨hs.frontReady, hs.backReady, hs.filled⟩

theorem Consistent.repainted (hs : s.Consistent) : (s.repainted shm).1.Consistent := by
  unfold Surface.repainted
  split
  · exact hs.unlockBuffer
  · exact hs

theorem Consistent.surfaceCommit (hs : s.Consistent) : s.surfaceCommit.1.Consistent := by
  cases hb : s.mBack.buffer with
  | none =>
    rw [surfaceCommit_idle hb]
    exact hs
  | some b =>
    cases hf : s.mFront.buffer with
    | none =>
      rw [surfaceCommit_first hs hb hf]
      refine ⟨?_, ?_, ?_⟩
      · simp only [hb, Option.isSome_some]
      · simp only [hs.frontReady, hf, Option.isSome_none]
      · simp only [hb, Option.isSome_some, if_true]
    | some f =>
      rw [surfaceCommit_next hs hb hf]
      refine ⟨?_, rfl, ?_⟩
      · simp only [hb, Option.isSome_some]
      · simp only [hb, Option.isSome_some, if_true]

/-- Every operation keeps a surface consistent. -/
theorem Consistent.perform (shm : ShmTable) (hs : s.Consistent) (op : SurfaceOp) :
    (s.perform shm op).1.Consistent := by
  cases op with
  | attach b x y => exact hs.surfaceAttach shm b x y
  | frame cb => exact hs.surfaceFrame cb
  | commit => exact hs.surfaceCommit
  | lockBuffer => exact hs
  | unlockBuffer => exact hs.unlockBuffer
  | setX x => exact ⟨hs.frontReady, hs.backReady, hs.filled⟩
  | setY y => exact ⟨hs.frontReady, hs.backReady, hs.filled⟩

end Surface

end WaylandTest
