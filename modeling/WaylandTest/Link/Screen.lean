import WaylandTest.Server.Crashes
import WaylandTest.Server.Layers
import WaylandTest.Link.Pictures

/-!
# From the client's memory to the screen

The client of `client/waylandsurface.hpp` over its buffers, and a compositor that repaints with the
client's surface alone in its list: what the client draws, byte by byte, and what the backend is
handed. A frame that the compositor puts together shows one frame of the client and no other, also
if the client is in the middle of drawing the next one (`screen_shows_whole_frames`).

The client sets all four bytes of a pixel to its `color`, and the fourth is taken for an alpha, so
what is on the screen is `color` over black at an opacity of `color`.
-/

set_option autoImplicit false

namespace WaylandTest

open Lib Client

namespace Client

/-- `createShmBuffer`, over the bytes of its mapping: the size of the surface, rows of four bytes a
pixel, and a format whose fourth byte stands for nothing. -/
def createShmBuffer (bytes : List UInt8) : ShmBuffer where
  width := mWidth
  height := mHeight
  stride := mWidth * 4
  format := .xrgb8888
  data := bytes

/-- The buffers a client made, under their handles. The mapping of a new file is zero. -/
def bufferTable (handles : List WlResource) : ShmTable := fun b =>
  if b ∈ handles then some (createShmBuffer (List.replicate shmSize 0)) else none

/-- What `createShmBuffer` makes is what the copy needs: the rows are next to each other and the
mapping holds all of them. It is short of what a signed offset can reach. -/
theorem packed_createShmBuffer {bytes : List UInt8} (h : bytes.length = drawnBytes) :
    (createShmBuffer bytes).Packed ∧ (createShmBuffer bytes).data.length < 2 ^ 31 := by
  have hcast : (drawnBytes : Int) = mWidth * 4 * mHeight := by decide
  have hwidth : 0 < mWidth := by decide
  have hheight : 0 < mHeight := by decide
  refine ⟨⟨hwidth, hheight, Int.mul_comm _ _, ?_⟩, ?_⟩
  · show (bytes.length : Int) = _
    rw [h]
    exact hcast
  · show bytes.length < 2 ^ 31
    rw [h]
    decide

end Client

/-! ## The surface stays where it is -/

/-- The surface is at the origin, and so is every buffer it was given. -/
structure Surface.AtOrigin (s : Surface) : Prop where
  placed : s.mX = 0 ∧ s.mY = 0
  back : s.mBack.x = 0 ∧ s.mBack.y = 0
  front : s.mFront.x = 0 ∧ s.mFront.y = 0
  shell : s.mShellSurface = none

/-- The surface is drawn where it is placed, and its buffers are attached without an offset. -/
theorem Surface.AtOrigin.x_eq {s : Surface} (h : s.AtOrigin) : s.x = 0 := by
  simp [Surface.x, h.placed.1, h.back.1]

theorem Surface.AtOrigin.y_eq {s : Surface} (h : s.AtOrigin) : s.y = 0 := by
  simp [Surface.y, h.placed.2, h.back.2]

namespace Link

variable {shm : ShmTable} {u : Setup shm} {l : Link}

/-- The surface is at the origin, and each attach in flight leaves it there. -/
structure AtOrigin (l : Link) : Prop where
  surface : l.surface.AtOrigin
  requests : ∀ b x y, .attach b x y ∈ l.requests → x = 0 ∧ y = 0

/-- A new surface is at the origin. -/
theorem atOrigin_start (u : Setup shm) : (start u).AtOrigin where
  surface := ⟨⟨rfl, rfl⟩, ⟨rfl, rfl⟩, ⟨rfl, rfl⟩, rfl⟩
  requests _ _ _ h := nomatch h

/-- The client's own attach is at `0, 0`. -/
theorem AtOrigin.redraw (h : l.AtOrigin) (ho : Owned u l) (b : WlResource) :
    (l.redraw b).1.AtOrigin := by
  by_cases hr : l.Ready b
  · rw [redraw_ready (ho.handles ▸ u.nodup) hr]
    refine ⟨h.surface, fun c x y hmem => ?_⟩
    rcases List.mem_append.mp hmem with hmem | hmem
    · exact h.requests c x y hmem
    · simp only [frameRequests, List.mem_cons, Request.attach.injEq, reduceCtorEq, List.not_mem_nil,
        or_false] at hmem
      exact hmem.2
  · rw [redraw_not_ready hr]
    exact h

/-- An attach that arrives was sent by a redraw; a commit swaps two states that are at the
origin. -/
theorem AtOrigin.deliverRequest (h : l.AtOrigin) (ho : Owned u l) :
    (l.deliverRequest shm).AtOrigin := by
  have hs := h.surface
  cases hr : l.requests with
  | nil =>
    rw [deliverRequest_nil hr]
    exact h
  | cons r rs =>
    have hrest : ∀ b x y, .attach b x y ∈ rs → x = 0 ∧ y = 0 :=
      fun b x y hmem => h.requests b x y (hr ▸ List.mem_cons_of_mem r hmem)
    rw [deliverRequest_cons hr]
    refine ⟨?_, hrest⟩
    cases r with
    | attach b x y =>
      have hmem : .attach b x y ∈ l.requests := hr ▸ List.mem_cons_self
      rw [serve_attach (u.isShm b (ho.attached _ hmem b rfl))]
      exact ⟨hs.placed, h.requests b x y hmem, hs.front, hs.shell⟩
    | damage x y w h' => exact hs
    | frame cb => exact ⟨hs.placed, hs.back, hs.front, hs.shell⟩
    | commit =>
      have hcons := ho.consistent
      show (l.surface.surfaceCommit).1.AtOrigin
      cases hb : l.surface.mBack.buffer with
      | none =>
        rw [Surface.surfaceCommit_idle hb]
        exact hs
      | some b =>
        cases hf : l.surface.mFront.buffer with
        | none =>
          rw [Surface.surfaceCommit_first hcons hb hf]
          exact ⟨hs.placed, hs.front, hs.back, hs.shell⟩
        | some f =>
          rw [Surface.surfaceCommit_next hcons hb hf]
          exact ⟨hs.placed, hs.front, hs.back, hs.shell⟩

/-- An event says nothing of places. -/
theorem AtOrigin.deliverEvent (h : l.AtOrigin) : l.deliverEvent.AtOrigin := by
  cases he : l.events with
  | nil =>
    rw [deliverEvent_nil he]
    exact h
  | cons e es =>
    cases e with
    | done cb =>
      rw [deliverEvent_done he]
      exact ⟨h.surface, h.requests⟩
    | release c =>
      rw [deliverEvent_release he]
      exact ⟨h.surface, h.requests⟩

/-- A repaint answers a callback and moves nothing. That a layout moves shell surfaces is no matter
here: the client has none. -/
theorem AtOrigin.repaint (h : l.AtOrigin) (ho : Owned u l) : (l.repaint shm).AtOrigin := by
  have hs := h.surface
  refine ⟨?_, h.requests⟩
  show (l.surface.repainted shm).1.AtOrigin
  cases hf : l.surface.mFront.buffer with
  | none =>
    rw [Surface.repainted_idle ho.consistent hf]
    exact hs
  | some f =>
    rw [(Surface.repainted_shown shm ho.consistent hf).1]
    exact ⟨hs.placed, hs.back, hs.front, hs.shell⟩

/-- Every action keeps the surface where it is. -/
theorem AtOrigin.act (h : l.AtOrigin) (ho : Owned u l) (a : LinkAction) :
    (l.act shm a).1.AtOrigin := by
  cases a with
  | redraw b => exact h.redraw ho b
  | deliverRequest => exact h.deliverRequest ho
  | deliverEvent => exact h.deliverEvent
  | repaint => exact h.repaint ho

/-- So it is there in every run, by induction over the actions. -/
theorem reaches_atOrigin {as : List LinkAction} {ms : List Mark}
    (h : (linkMachine u).Reaches as ms l) : l.AtOrigin := by
  have hboth : Owned u l ∧ l.AtOrigin := by
    refine h.invariant (P := fun l => Owned u l ∧ l.AtOrigin)
      ⟨owned_start u, atOrigin_start u⟩ ?_
    intro l a ms l' hl hstep
    cases hstep
    exact ⟨hl.1.act a, hl.2.act hl.1 a⟩
  exact hboth.2

end Link

/-! ## The frame on the screen -/

namespace Shared

variable {handles : List WlResource} {u : Setup (bufferTable handles)} {m n : Nat} {s : Shared}
  {c : Compositor} {x y k : Int}

/-- What the compositor locks: nothing before the first frame, and then a buffer that is whole. -/
theorem Painted.lockBuffer_eq (h : Painted u m n s) :
    (s.link.surface.lockBuffer (s.table (bufferTable handles))).1 =
      if n = 0 then none else some (createShmBuffer (picture n)) := by
  have hshown := h.shown
  unfold Surface.lockBuffer
  rw [h.owned.consistent.frontReady]
  cases hf : s.link.surface.mFront.buffer with
  | none =>
    rw [hf] at hshown
    by_cases hn : n = 0
    · simp [hn]
    · simp [hn] at hshown
  | some b =>
    rw [hf] at hshown
    have hmem : b ∈ handles := by
      have hshm := u.isShm b (h.ours b (by simp [hf]))
      by_contra hnot
      simp [bufferTable, hnot] at hshm
    by_cases hn : n = 0
    · simp [hn] at hshown
    · simp only [hn, if_false, Option.map_some, Option.some.injEq] at hshown
      simp [ShmTable.get, table, bufferTable, hmem, hn, hshown, createShmBuffer]

/-- The buffers that the server sees are all of the kind that the client makes, whatever is drawn
into them. -/
theorem packed_table (h : ∀ b, (s.memory b).length = drawnBytes) (r : WlResource) (b : ShmBuffer)
    (hb : s.table (bufferTable handles) r = some b) : b.Packed ∧ b.data.length < 2 ^ 31 := by
  unfold table bufferTable at hb
  by_cases hmem : r ∈ handles
  · simp only [hmem, if_true, Option.map_some, Option.some.injEq] at hb
    subst hb
    exact packed_createShmBuffer (h r)
  · simp [hmem] at hb

/-- A surface at the origin can be drawn on every display: the copy cuts it at the right and the
lower edge, its first pixel is inside, and none of the `int` expressions overflows. -/
theorem Painted.drawable (h : Painted u m n s) (ho : s.link.AtOrigin) (hc : c.Sized) :
    Compositor.Drawable (s.table (bufferTable handles)) c.mDisplayWidth c.mDisplayHeight
      s.link.surface := by
  intro b hb
  rw [h.lockBuffer_eq] at hb
  by_cases hn : n = 0
  · simp [hn] at hb
  · simp only [hn, if_false, Option.some.injEq] at hb
    subst hb
    have hw := hc.width
    have hsmall := hc.small
    have hrows : min (0 + mHeight) c.mDisplayHeight * c.mDisplayWidth ≤
        c.mDisplayHeight * c.mDisplayWidth :=
      Int.mul_le_mul_of_nonneg_right (Int.min_le_right _ _) (Int.le_of_lt hw)
    have hpixels : (min (0 + mHeight) c.mDisplayHeight - 0) * mWidth ≤ mHeight * mWidth :=
      Int.mul_le_mul_of_nonneg_right (by omega) (by decide)
    have hbuffer : mHeight * mWidth < 2 ^ 29 := by decide
    rw [Int.mul_assoc, Int.mul_comm c.mDisplayWidth] at hsmall
    rw [ho.surface.y_eq, ho.surface.x_eq]
    refine ⟨⟨by omega, by omega, by omega, fun _ => ⟨?_, ?_⟩⟩, ?_⟩
    · show min (0 + mHeight) c.mDisplayHeight * c.mDisplayWidth + max 0 0 < 2 ^ 29
      omega
    · show (min (0 + mHeight) c.mDisplayHeight - 0) * mWidth + max 0 (-0) < 2 ^ 29
      omega
    · have hleft : -mWidth < 0 := by decide
      exact .inr (.inr (.inr ⟨Int.le_refl 0, hleft, hw⟩))

/-- A byte of the surface over the display, with its pixel's alpha. The `memset` sets all four bytes
of a pixel, so the two are the same: `color`. -/
theorem Painted.layer (h : Painted u m n s) (ho : s.link.AtOrigin) (hx : 0 ≤ x) (hy : 0 ≤ y)
    (hk : 0 ≤ k ∧ k < 3) :
    s.link.surface.layer (s.table (bufferTable handles)) x y k =
      if 0 < n ∧ x < mWidth ∧ y < mHeight then ⟨UInt8.ofNat n, UInt8.ofNat n⟩ else ⟨0, 0⟩ := by
  have hcast : (drawnBytes : Int) = mHeight * (4 * mWidth) := by decide
  unfold Surface.layer
  rw [h.lockBuffer_eq, ho.surface.x_eq, ho.surface.y_eq]
  by_cases hn : n = 0
  · simp [hn]
  · simp only [hn, if_false]
    have hcovers : (createShmBuffer (picture n)).Covers 0 0 x y ↔ x < mWidth ∧ y < mHeight := by
      unfold ShmBuffer.Covers
      show (0 ≤ x - 0 ∧ x - 0 < mWidth) ∧ 0 ≤ y - 0 ∧ y - 0 < mHeight ↔ _
      omega
    by_cases hin : x < mWidth ∧ y < mHeight
    · have hrow : y * (4 * mWidth) + 4 * mWidth ≤ mHeight * (4 * mWidth) := by
        have hle := Int.mul_le_mul_of_nonneg_right (c := 4 * mWidth) (Int.add_one_le_of_lt hin.2)
          (by decide)
        rwa [Int.add_mul, Int.one_mul] at hle
      have hfirst : 0 ≤ y * (4 * mWidth) := Int.mul_nonneg hy (by decide)
      -- all four bytes of a pixel are the same
      have hread : ∀ j, 0 ≤ j ∧ j < 4 →
          (createShmBuffer (picture n)).byte (x - 0) (y - 0) j = UInt8.ofNat n := by
        intro j hj
        unfold ShmBuffer.byte
        show (Memory.read (picture n) ((y - 0) * (mWidth * 4) + 4 * (x - 0) + j)).getD 0 = _
        rw [Int.sub_zero, Int.sub_zero, Int.mul_comm mWidth]
        have hpixel : Memory.read (picture n) (y * (4 * mWidth) + 4 * x + j) =
            some (UInt8.ofNat n) := Memory.read_replicate (by omega) (by rw [hcast]; omega)
        rw [hpixel, Option.getD_some]
      rw [if_pos (hcovers.mpr hin), if_pos ⟨by omega, hin⟩, hread k (by omega),
        hread 3 (by omega)]
    · rw [if_neg fun hc => hin (hcovers.mp hc), if_neg fun hc => hin hc.2]

end Shared

open Compositor

/-- **What is on the screen.** In every state of a client that draws in place, a compositor whose
list is its surface alone, on a display of any size, repaints without a fault. The frame it hands to
the backend shows the last frame whose commit arrived and nothing else: in the client's rectangle
each byte is the `color` of that frame over black at an opacity of `color`, around it and before the
first frame all is black. The surface is left as the connection has it after a repaint. -/
theorem screen_shows_whole_frames {handles : List WlResource} (u : Setup (bufferTable handles))
    {as : List SharedAction} {ms : List Mark} {s : Shared} (hs : (sharedMachine u).Reaches as ms s)
    {c : Compositor} (hc : c.Sized) (hlist : c.mSurfacesList = [some s.link.surface]) :
    ∃ n cs c', n + s.link.requests.count .commit = drawn ms ∧
      c.repaint floatBlend (s.table (bufferTable handles)) = ⟨cs, .ok c'⟩ ∧
      .drawBuffer c'.mDisplayBuffer ∈ cs ∧
      c'.mSurfacesList = [some (s.act (bufferTable handles) .repaint).1.link.surface] ∧
      ∀ x y k, 0 ≤ x ∧ x < c.mDisplayWidth → 0 ≤ y ∧ y < c.mDisplayHeight → 0 ≤ k ∧ k < 3 →
        Memory.read c'.mDisplayBuffer (4 * (y * c.mDisplayWidth + x) + k) =
          some (if 0 < n ∧ x < mWidth ∧ y < mHeight then
            floatBlend 0 (UInt8.ofNat n) (UInt8.ofNat n) else 0) := by
  have horigin : s.link.AtOrigin := by
    obtain ⟨as', hl⟩ := Shared.reaches_link u hs
    exact Link.reaches_atOrigin hl
  obtain ⟨n, hp⟩ := Shared.reaches_painted u hs
  have hrelaid : relaid c.mDisplayHeight [s.link.surface] = [s.link.surface] := by
    simp [relaid, Surface.isShellSurface, horigin.surface.shell]
  have hret : (c.repaint floatBlend (s.table (bufferTable handles))).Returns := by
    rw [repaint_returns hc (Shared.packed_table hp.mapped), hlist]
    have hcontents : contents [some s.link.surface] = [s.link.surface] := rfl
    refine ⟨by simp, ?_⟩
    rw [hcontents, hrelaid, List.forall_mem_singleton]
    exact hp.drawable horigin hc
  obtain ⟨c', hc'⟩ := hret
  have hrepaint : c.repaint floatBlend (s.table (bufferTable handles)) =
      ⟨(c.repaint floatBlend (s.table (bufferTable handles))).calls, .ok c'⟩ := by
    rw [← hc']
  have hone : c.mSurfacesList = [s.link.surface].map some := hlist
  have hstride : ∀ z ∈ [s.link.surface], ∀ b,
      (z.lockBuffer (s.table (bufferTable handles))).1 = some b → b.stride = 4 * b.width := by
    intro z _ b hb
    obtain ⟨r, hr, -⟩ := Surface.lockBuffer_shm hb
    exact (Shared.packed_table hp.mapped r b hr).1.stride
  refine ⟨n, _, c', ?_, hrepaint, ?_, ?_, fun x y k hx hy hk => ?_⟩
  · rw [hp.owned.stream.count_commit]
    exact hp.count
  · obtain ⟨ss, cleared, bytes, ds, painted, -, -, -, hcalls, rfl⟩ := repaint_cases hrepaint
    rw [hcalls]
    simp
  · obtain ⟨ss, cleared, bytes, ds, painted, hlist', -, -, -, rfl⟩ := repaint_cases hrepaint
    obtain rfl := map_some_inj (hone.symm.trans hlist')
    rw [hrelaid]
    rfl
  · rw [repaint_layers floatBlend_keeps hc hone hstride hrepaint hx hy hk, hrelaid,
      List.map_singleton, hp.layer horigin hx.1 hy.1 hk]
    split
    · rfl
    · exact congrArg some (floatBlend_keeps 0 0)

/-- Two buffers, and the surface of their client. -/
def mappedBuffers : Setup (bufferTable [5, 7]) where
  handles := [5, 7]
  nodup := by decide
  isShm b hb := by rw [bufferTable, if_pos hb, Option.isSome_some]
  firstCallback := 8
  this := 0
  resource := 1
  client := 2
  listener := none

/-- The first frame was drawn, and its four requests have arrived. -/
def firstShown : Shared where
  link :=
    Nat.iterate (Link.deliverRequest (bufferTable [5, 7])) 4
      ((Link.start mappedBuffers).redraw 5).1
  color := 1
  memory := Function.update (fun _ => List.replicate shmSize 0) 5 (List.replicate drawnBytes 1)

/-- The first frame is shown, and the client is in the middle of its second drawing. -/
def drawingSecond : Shared := (firstShown.beginRedraw 7).store

/-- The client draws its first frame into one buffer, and into the other while that is shown. -/
def twoDrawings : List SharedAction :=
  Shared.redrawActions 5 ++
    [.deliverRequest, .deliverRequest, .deliverRequest, .deliverRequest, .beginRedraw 7, .store]

theorem reaches_drawingSecond : (sharedMachine mappedBuffers).Reaches twoDrawings
    (.draw 5 :: (frameRequests 5 8).map .send) drawingSecond := by
  have hready : (Shared.start mappedBuffers).link.Ready 5 := by decide
  have hfirst := Shared.runFrom_redraw (u := mappedBuffers) (s := Shared.start mappedBuffers) rfl
    hready ((Shared.painted_start mappedBuffers).mapped 5)
  exact Machine.runFrom_append.mpr ⟨_, _, _, hfirst, rfl, rfl⟩

/-- A display of one pixel with the client's surface. -/
def drawingScreen : Compositor where
  mSurfacesList := [some drawingSecond.link.surface]
  mDisplayWidth := 1
  mDisplayHeight := 1
  mDisplayBuffer := [0, 0, 0, 0]

/-- The screen has the first frame, of the second nothing. -/
theorem screen_shows_whole_frames_drawingSecond :
    ∃ cs c', drawingScreen.repaint floatBlend (drawingSecond.table (bufferTable [5, 7])) =
        ⟨cs, .ok c'⟩ ∧
      .drawBuffer c'.mDisplayBuffer ∈ cs ∧
      c'.mSurfacesList = [some (drawingSecond.act (bufferTable [5, 7]) .repaint).1.link.surface] ∧
      ∀ k, 0 ≤ k ∧ k < 3 → Memory.read c'.mDisplayBuffer k = some (floatBlend 0 1 1) := by
  obtain ⟨n, cs, c', hn, hrepaint, hcall, hlist, hread⟩ := screen_shows_whole_frames mappedBuffers
    reaches_drawingSecond (c := drawingScreen) ⟨by decide, by decide, by decide, rfl⟩ rfl
  obtain rfl : n = 1 := hn
  refine ⟨cs, c', hrepaint, hcall, hlist, fun k hk => ?_⟩
  have hbyte := hread 0 0 k (by decide) (by decide) hk
  rw [if_pos (by decide)] at hbyte
  simpa [drawingScreen] using hbyte

end WaylandTest
