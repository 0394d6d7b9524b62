import WaylandTest.Server.SameShape
import WaylandTest.Server.Strides

/-!
# The unused byte of a pixel

A pixel of an XRGB8888 buffer has a byte that means nothing. The copy takes it for an alpha, as it
does not ask for the format. `unused_byte_hidden_iff` says of a list of surfaces when no such byte
shows in what a repaint draws, whatever all buffers hold: when no pixel of the display is drawn from
one.
-/

set_option autoImplicit false

namespace WaylandTest

open Lib Exec

/-! ## Worlds -/

/-- The offset is the one of the fourth byte of a pixel. -/
def ShmBuffer.UnusedAt (b : ShmBuffer) (i : Int) : Prop :=
  ∃ x y, (0 ≤ x ∧ x < b.width) ∧ (0 ≤ y ∧ y < b.height) ∧ i = y * b.stride + 4 * x + 3

/-- The two buffers are equal but for unused bytes, which only XRGB8888 has. -/
structure ShmBuffer.SameUsed (b b' : ShmBuffer) : Prop where
  shape : b.SameShape b'
  bytes : ∀ i, Memory.read b.data i = Memory.read b'.data i ∨ b.format = .xrgb8888 ∧ b.UnusedAt i

/-- The two tables are equal but for unused bytes. -/
def ShmTable.SameUsed (shm shm' : ShmTable) : Prop :=
  ∀ r, Option.Rel ShmBuffer.SameUsed (shm r) (shm' r)

/-- The frames that the calls hand to the backend. -/
def frames (cs : List Call) : List (List UInt8) :=
  cs.filterMap fun
    | .drawBuffer bytes => some bytes
    | _ => none

@[simp] theorem frames_append (cs ds : List Call) : frames (cs ++ ds) = frames cs ++ frames ds :=
  List.filterMap_append

/-- The offset of the first byte that the copy reads for the display pixel `(x, y)`, its rows next
to each other. -/
def ShmBuffer.pixelAt (b : ShmBuffer) (posY posX x y : Int) : Int :=
  (y - posY) * (4 * b.width) + 4 * (x - posX)

/-- A pixel of the display is drawn from bytes of an XRGB8888 buffer among which is an unused
one. -/
structure Surface.ShowsUnused (shm : ShmTable) (displayWidth displayHeight : Int) (s : Surface)
    (b : ShmBuffer) (x y k : Int) : Prop where
  locked : (s.lockBuffer shm).1 = some b
  format : b.format = .xrgb8888
  column : 0 ≤ x ∧ x < displayWidth
  row : 0 ≤ y ∧ y < displayHeight
  covers : b.Covers s.y s.x x y
  byte : 0 ≤ k ∧ k < 4
  unused : b.UnusedAt (b.pixelAt s.y s.x x y + k)

/-- In a packed buffer each pixel that is drawn has its unused byte, so a surface shows one exactly
if its XRGB8888 buffer is over a pixel of the display. -/
theorem Surface.showsUnused_iff {shm : ShmTable} {displayWidth displayHeight : Int} {s : Surface}
    {b : ShmBuffer} (hb : b.Packed) :
    (∃ x y k, s.ShowsUnused shm displayWidth displayHeight b x y k) ↔
      (s.lockBuffer shm).1 = some b ∧ b.format = .xrgb8888 ∧ ∃ x y, (0 ≤ x ∧ x < displayWidth) ∧
        (0 ≤ y ∧ y < displayHeight) ∧ b.Covers s.y s.x x y := by
  constructor
  · rintro ⟨x, y, k, h⟩
    exact ⟨h.locked, h.format, x, y, h.column, h.row, h.covers⟩
  · rintro ⟨hlock, hformat, x, y, hx, hy, hcovers⟩
    refine ⟨x, y, 3, hlock, hformat, hx, hy, hcovers, by decide, ?_⟩
    refine ⟨x - s.x, y - s.y, hcovers.1, hcovers.2, ?_⟩
    unfold ShmBuffer.pixelAt
    rw [hb.stride]

/-- Which pixels show an unused byte is a matter of the shape. -/
theorem Surface.ShowsUnused.of_sameShape {shm shm' : ShmTable} {displayWidth displayHeight : Int}
    {s : Surface} {b : ShmBuffer} {x y k : Int}
    (h : s.ShowsUnused shm' displayWidth displayHeight b x y k) (hshape : shm.SameShape shm') :
    ∃ b', s.ShowsUnused shm displayWidth displayHeight b' x y k := by
  rcases Compositor.lockBuffer_cases hshape s with ⟨-, hlock⟩ | ⟨b', b'', hlock, hlock', hb⟩
  · rw [h.locked] at hlock
    cases hlock
  · obtain rfl := Option.some.inj (hlock'.symm.trans h.locked)
    refine ⟨b', hlock, hb.format.trans h.format, h.column, h.row, ?_, h.byte, ?_⟩
    · have hcovers := h.covers
      unfold ShmBuffer.Covers at hcovers ⊢
      rw [hb.width, hb.height]
      exact hcovers
    · have hunused := h.unused
      unfold ShmBuffer.UnusedAt ShmBuffer.pixelAt at hunused ⊢
      rw [hb.width, hb.height, hb.stride]
      exact hunused

namespace Compositor

variable {blend : Blend} {shm shm' : ShmTable} {c c' : Compositor} {display display' : Memory UInt8}
  {cs : List Call} {s : Surface}

/-! ## Buffers as the copy takes them -/

/-- The table with the rows of each buffer next to each other. -/
def pitchedTable (shm : ShmTable) : ShmTable := fun r => (shm r).map ShmBuffer.pitched

theorem lockBuffer_pitchedTable (s : Surface) :
    s.lockBuffer (pitchedTable shm) =
      ((s.lockBuffer shm).1.map ShmBuffer.pitched, (s.lockBuffer shm).2) := by
  unfold Surface.lockBuffer ShmTable.get pitchedTable
  split
  · cases s.mFront.buffer with
    | none => rfl
    | some r => rfl
  · rfl

theorem stride_pitchedTable {b : ShmBuffer}
    (h : (s.lockBuffer (pitchedTable shm)).1 = some b) : b.stride = 4 * b.width := by
  rw [lockBuffer_pitchedTable] at h
  obtain ⟨b', -, rfl⟩ := Option.map_eq_some_iff.mp h
  rfl

theorem repaintSurface_pitchedTable (display : Memory UInt8) (s : Surface) :
    repaintSurface blend (pitchedTable shm) c display s = repaintSurface blend shm c display s := by
  unfold repaintSurface repaintSurfaceBy
  rw [lockBuffer_pitchedTable]
  cases (s.lockBuffer shm).1 with
  | none => rfl
  | some b => rfl

theorem repaintSurfaces_pitchedTable (display : Memory UInt8) (ps : List (Option Surface)) :
    repaintSurfaces blend (pitchedTable shm) c display ps =
      repaintSurfaces blend shm c display ps := by
  induction ps generalizing display with
  | nil => rfl
  | cons p ps ih =>
    cases p with
    | none => rw [repaintSurfaces_null, repaintSurfaces_null, ih]
    | some s =>
      rw [repaintSurfaces_surface, repaintSurfaces_surface, repaintSurface_pitchedTable]
      simp only [ih]

/-- A repaint does not read the strides. -/
theorem repaint_pitchedTable (c : Compositor) :
    c.repaint blend (pitchedTable shm) = c.repaint blend shm := by
  simp only [repaint_eq, repaintSurfaces_pitchedTable]

theorem frames_repaintedCalls (ps : List (Option Surface)) :
    frames (repaintedCalls shm ps) = [] := by
  refine List.filterMap_eq_nil_iff.mpr fun call hcall => ?_
  cases call with
  | drawBuffer bytes => exact absurd hcall drawBuffer_notMem_repaintedCalls
  | _ => rfl

/-- **The frame of a repaint**: the painter's composition of the buffers, their rows next to each
other. -/
theorem repaint_frame (hc : c.Sized) {ss : List Surface} (hlist : c.mSurfacesList = ss.map some)
    (h : c.repaint blend shm = ⟨cs, .ok c'⟩) :
    ∃ bytes, frames cs = [bytes] ∧
      Memory.Changed (fun j old => composition blend (pitchedTable shm) (j / 4 % c.mDisplayWidth)
          (j / 4 / c.mDisplayWidth) (j % 4) old ((relaid c.mDisplayHeight ss).map some))
        (List.replicate c.mDisplayBuffer.length 0) bytes := by
  rw [← repaint_pitchedTable] at h
  obtain ⟨ss', cleared, bytes, _, _, hlist', hcleared, hloop, rfl, -⟩ := repaint_cases h
  obtain rfl := map_some_inj (hlist.symm.trans hlist')
  refine ⟨bytes, ?_, repaint_changed hc (fun _ _ _ hb => stride_pitchedTable hb) hcleared hloop⟩
  rw [frames_append, frames_repaintedCalls]
  rfl

/-! ## What one surface draws -/

theorem drawnOver_none {x y k : Int} {old : UInt8} (h : (s.lockBuffer shm).1 = none) :
    s.drawnOver blend (pitchedTable shm) x y k old = old := by
  unfold Surface.drawnOver
  rw [lockBuffer_pitchedTable, h]
  rfl

theorem drawnOver_some {b : ShmBuffer} {x y k : Int} {old : UInt8}
    (h : (s.lockBuffer shm).1 = some b) :
    s.drawnOver blend (pitchedTable shm) x y k old =
      if b.Covers s.y s.x x y ∧ k ≠ 3 then
        blend old ((Memory.read b.data (b.pixelAt s.y s.x x y + k)).getD 0)
          ((Memory.read b.data (b.pixelAt s.y s.x x y + 3)).getD 0)
      else old := by
  unfold Surface.drawnOver
  rw [lockBuffer_pitchedTable, h]
  rfl

/-- **A surface that shows no unused byte at a pixel** draws the same in both worlds there. -/
theorem drawnOver_sameUsed (h : shm.SameUsed shm') {x y k : Int}
    (hx : 0 ≤ x ∧ x < c.mDisplayWidth) (hy : 0 ≤ y ∧ y < c.mDisplayHeight) (hk : 0 ≤ k ∧ k < 4)
    (hidden : ∀ b k, ¬ s.ShowsUnused shm c.mDisplayWidth c.mDisplayHeight b x y k) (old : UInt8) :
    s.drawnOver blend (pitchedTable shm) x y k old =
      s.drawnOver blend (pitchedTable shm') x y k old := by
  rcases lockBuffer_cases h s with ⟨hlock, hlock'⟩ | ⟨b, b', hlock, hlock', hb⟩
  · rw [drawnOver_none hlock, drawnOver_none hlock']
  · have hcovers : b'.Covers s.y s.x x y ↔ b.Covers s.y s.x x y := by
      unfold ShmBuffer.Covers
      rw [hb.shape.width, hb.shape.height]
    have hpixel : b'.pixelAt s.y s.x x y = b.pixelAt s.y s.x x y := by
      unfold ShmBuffer.pixelAt
      rw [hb.shape.width]
    rw [drawnOver_some hlock, drawnOver_some hlock', hpixel]
    simp only [hcovers]
    by_cases hcov : b.Covers s.y s.x x y
    · have hread : ∀ j, 0 ≤ j ∧ j < 4 → Memory.read b.data (b.pixelAt s.y s.x x y + j) =
          Memory.read b'.data (b.pixelAt s.y s.x x y + j) := fun j hj =>
        (hb.bytes _).resolve_right fun hdiff =>
          hidden b j ⟨hlock, hdiff.1, hx, hy, hcov, hj, hdiff.2⟩
      rw [hread k hk, hread 3 (by decide)]
    · rw [if_neg fun h => hcov h.1, if_neg fun h => hcov h.1]

/-! ## Two worlds that a pixel tells apart -/

theorem pixelAt_emod (b : ShmBuffer) (posY posX x y : Int) : b.pixelAt posY posX x y % 4 = 0 := by
  unfold ShmBuffer.pixelAt
  rw [Int.mul_left_comm]
  omega

/-- A buffer of the same shape, with the bytes that `f` gives by offset. -/
def filled (b : ShmBuffer) (f : Int → UInt8) : ShmBuffer :=
  { b with data := Memory.tabulate b.data.length f }

theorem length_filled (b : ShmBuffer) (f : Int → UInt8) :
    (filled b f).data.length = b.data.length :=
  Memory.length_tabulate _ _

/-- The table with all bytes zero but those of one pixel, the one at the offset `q` of the buffer
`r`: they are 255, and the byte at `i` is `v`. -/
def lit (shm : ShmTable) (r : WlResource) (q i : Int) (v : UInt8) : ShmTable := fun r' =>
  (shm r').map fun b => filled b fun j =>
    if r' = r ∧ q ≤ j ∧ j < q + 4 then (if j = i then v else 255) else 0

variable {r : WlResource} {q i : Int} {v w : UInt8}

theorem sameShape_lit : shm.SameShape (lit shm r q i v) := by
  intro r'
  unfold lit
  cases shm r' with
  | none => exact .none
  | some b => exact .some ⟨rfl, rfl, rfl, rfl, (length_filled b _).symm⟩

/-- Where the byte at `i` is an unused one, its value is all that is left to differ. -/
theorem sameUsed_lit {b : ShmBuffer} (hb : shm r = some b) (hformat : b.format = .xrgb8888)
    (hunused : b.UnusedAt i) : (lit shm r q i v).SameUsed (lit shm r q i w) := by
  intro r'
  unfold lit
  cases hr : shm r' with
  | none => exact .none
  | some b' =>
    refine .some ⟨⟨rfl, rfl, rfl, rfl, (length_filled b' _).trans (length_filled b' _).symm⟩,
      fun j => ?_⟩
    by_cases hj : r' = r ∧ j = i
    · obtain ⟨rfl, rfl⟩ := hj
      rw [hb] at hr
      cases hr
      exact .inr ⟨hformat, hunused⟩
    · refine .inl ?_
      simp only [filled, Memory.read_tabulate]
      by_cases hr' : r' = r
      · simp only [hr', true_and, if_neg fun h => hj ⟨hr', h⟩]
      · simp only [hr', false_and, if_false]

/-- A pixel of such a table is transparent, or it is the one. -/
theorem read_lit {t : Surface} {b : ShmBuffer} (h : (t.lockBuffer (lit shm r q i v)).1 = some b)
    {p : Int} (hp : p % 4 = 0) (hq : q % 4 = 0) :
    (Memory.read b.data (p + 3)).getD 0 = 0 ∨
      ∀ j, 0 ≤ j ∧ j < 4 → Memory.read b.data (p + j) = some (if q + j = i then v else 255) := by
  obtain ⟨r', hr', -⟩ := Surface.lockBuffer_shm h
  obtain ⟨b', -, rfl⟩ := Option.map_eq_some_iff.mp hr'
  simp only [filled, Memory.read_tabulate]
  by_cases hin : 0 ≤ p + 3 ∧ p + 3 < b'.data.length
  · by_cases hlit : r' = r ∧ q ≤ p + 3 ∧ p + 3 < q + 4
    · refine .inr fun j hj => ?_
      have hpq : p = q := by omega
      rw [if_pos (by omega), if_pos ⟨hlit.1, by omega⟩, hpq]
    · refine .inl ?_
      rw [if_pos hin, if_neg hlit]
      rfl
  · refine .inl ?_
    rw [if_neg hin]
    rfl

/-- The byte of a pixel that tells worlds apart in which its byte `k` differs. -/
def shownByte (k : Int) : Int := if k = 3 then 0 else k

theorem shownByte_cases {k : Int} (hk : 0 ≤ k ∧ k < 4) :
    (0 ≤ shownByte k ∧ shownByte k < 4) ∧ shownByte k ≠ 3 := by
  unfold shownByte
  split
  · omega
  · omega

section Blends

variable (covers : ∀ bg fg, blend bg fg 255 = fg) (keeps : ∀ bg fg, blend bg fg 0 = bg)

include covers keeps

/-- No surface changes a byte that has the value of the one byte that differs. -/
theorem drawnOver_lit {x y k : Int} (hk : 0 ≤ k ∧ k < 4) (hq : q % 4 = 0) (hv : v = 0 ∨ v = 255)
    (t : Surface) :
    t.drawnOver blend (pitchedTable (lit shm r q (q + k) v)) x y (shownByte k) v = v := by
  cases hlock : (t.lockBuffer (lit shm r q (q + k) v)).1 with
  | none => exact drawnOver_none hlock
  | some b =>
    rw [drawnOver_some hlock]
    split
    · rcases read_lit hlock (pixelAt_emod b t.y t.x x y) hq with hclear | hone
      · rw [hclear, keeps]
      · rw [hone _ (shownByte_cases hk).1, hone 3 (by decide), Option.getD_some, Option.getD_some]
        unfold shownByte
        by_cases hk3 : k = 3
        · rw [if_pos hk3, if_neg (by omega), if_pos (by omega)]
          rcases hv with rfl | rfl
          · exact keeps _ _
          · exact covers _ _
        · rw [if_neg hk3, if_pos rfl, if_neg (by omega), covers]
    · rfl

omit keeps

/-- The surface that shows the one pixel makes the byte 255. -/
theorem drawnOver_lit_shown {b : ShmBuffer} {x y k : Int} (hk : 0 ≤ k ∧ k < 4)
    (hlock : ∀ shm' : ShmTable, (s.lockBuffer shm').1 = shm' r) (hr : shm r = some b)
    (hcovers : b.Covers s.y s.x x y) (hread : b.pixelAt s.y s.x x y + 3 < b.data.length)
    (old : UInt8) :
    s.drawnOver blend (pitchedTable (lit shm r (b.pixelAt s.y s.x x y) i 255)) x y (shownByte k)
      old = 255 := by
  obtain ⟨p, hp⟩ : ∃ p, p = b.pixelAt s.y s.x x y := ⟨_, rfl⟩
  have hnonneg : 0 ≤ p := by
    have hrow : 0 ≤ (y - s.y) * (4 * b.width) :=
      Int.mul_nonneg hcovers.2.1 (by have hcolumn := hcovers.1; omega)
    have hcolumn := hcovers.1.1
    rw [hp]
    unfold ShmBuffer.pixelAt
    omega
  rw [← hp] at hread ⊢
  have hlit : (s.lockBuffer (lit shm r p i 255)).1 = some (filled b fun j =>
      if r = r ∧ p ≤ j ∧ j < p + 4 then (if j = i then 255 else 255) else 0) := by
    rw [hlock, lit, hr]
    rfl
  have hbyte : ∀ j, 0 ≤ j ∧ j < 4 → (Memory.read (filled b fun j =>
      if r = r ∧ p ≤ j ∧ j < p + 4 then (if j = i then 255 else 255) else 0).data (p + j)).getD 0 =
        255 := by
    intro j hj
    unfold filled
    rw [Memory.read_tabulate, if_pos (by omega), if_pos ⟨rfl, by omega, by omega⟩, ite_self,
      Option.getD_some]
  obtain ⟨hshown, hne⟩ := shownByte_cases hk
  rw [drawnOver_some hlit, if_pos ⟨hcovers, hne⟩]
  show blend old ((Memory.read _ (b.pixelAt s.y s.x x y + shownByte k)).getD 0)
    ((Memory.read _ (b.pixelAt s.y s.x x y + 3)).getD 0) = 255
  rw [← hp, hbyte _ hshown, hbyte 3 (by decide), covers]

end Blends

/-! ## What is read -/

/-- A copy that completes read the four bytes of each pixel it drew. -/
theorem copy_reads {displayWidth displayHeight posY posX x y : Int} {b : ShmBuffer}
    (hw : 0 < displayWidth) (hlen : (display.length : Int) + 1 < 2 ^ 31)
    (h : (copyShmBufferToDisplay checked blend displayWidth displayHeight display b posY
      posX).result = .ok display')
    (hx : 0 ≤ x ∧ x < displayWidth) (hy : 0 ≤ y ∧ y < displayHeight)
    (hcovers : b.Covers posY posX x y) : b.pixelAt posY posX x y + 3 < b.data.length := by
  obtain ⟨⟨hleft, hright⟩, htop, hbottom⟩ := hcovers
  have hpitched : (copyShmBufferToDisplay checked blend displayWidth displayHeight display b.pitched
      posY posX).result = .ok display' := h
  obtain ⟨-, s, hs, hstop, -⟩ := copyShmBufferToDisplay_rows rfl hw (fun _ => hlen) hpitched
  change ¬ s.y < min (posY + b.height) displayHeight at hstop
  have hlast : 0 < min b.width (displayWidth - posX) - max 0 (-posX) →
      s.offsetSrc - 4 * b.width + 4 * (min b.width (displayWidth - posX) - max 0 (-posX)) ≤
        b.data.length := hs.readable (by omega)
  have hsrc : s.offsetSrc = 4 * ((s.y - posY) * b.width + max 0 (-posX)) := hs.offsetSrc
  have hend := hlast (by omega)
  have hrow : (y - posY + 1) * b.width ≤ (s.y - posY) * b.width :=
    Int.mul_le_mul_of_nonneg_right (by omega) (by omega)
  rw [Int.add_mul, Int.one_mul] at hrow
  unfold ShmBuffer.pixelAt
  rw [Int.mul_left_comm]
  omega

/-- A loop that completes drew each of its surfaces. -/
theorem drawLocked_of_repaintSurfaces (hc : c.Sized) {ps painted : List (Option Surface)}
    (hsize : display.length = c.mDisplayBuffer.length)
    (hstride : ∀ s, some s ∈ ps → ∀ b, (s.lockBuffer shm).1 = some b → b.stride = 4 * b.width)
    (h : repaintSurfaces blend shm c display ps = ⟨cs, .ok (display', painted)⟩)
    (hs : some s ∈ ps) :
    ∃ d d', d.length = c.mDisplayBuffer.length ∧
      (drawLocked blend c d s (s.lockBuffer shm).1).result = .ok d' := by
  induction ps generalizing display cs painted with
  | nil => cases hs
  | cons p ps ih =>
    have htail := fun s hs => hstride s (List.mem_cons_of_mem p hs)
    cases p with
    | none =>
      obtain ⟨_, ⟨d, painted'⟩, _, hrest, hret, rfl⟩ := Exec.bind_eq_ok.mp h
      cases hret
      cases hs with
      | tail _ hs => exact ih hsize htail hrest hs
    | some s' =>
      obtain ⟨_, ⟨d, s''⟩, _, hone, hmore, rfl⟩ := Exec.bind_eq_ok.mp h
      obtain ⟨_, ⟨d', painted'⟩, _, hrest, hret, rfl⟩ := Exec.bind_eq_ok.mp hmore
      cases hret
      obtain ⟨-, -, hdraw⟩ := repaintSurface_ok hone
      have hfirst := drawLocked_ok hc hsize (hstride s' List.mem_cons_self) hdraw
      cases hs with
      | head => exact ⟨display, d, hsize, hdraw⟩
      | tail _ hs => exact ih (hfirst.length.trans hsize) htail hrest hs

/-! ## Two worlds -/

/-- **Worlds that differ in unused bytes**, none of which a pixel of the display is drawn from. -/
theorem frames_sameUsed (hc : c.Sized) {ss : List Surface} (hlist : c.mSurfacesList = ss.map some)
    (hused : shm.SameUsed shm')
    (hidden : ∀ s ∈ relaid c.mDisplayHeight ss, ∀ b x y k,
      ¬ s.ShowsUnused shm c.mDisplayWidth c.mDisplayHeight b x y k)
    {cs' : List Call} {d d' : Compositor} (h : c.repaint blend shm = ⟨cs, .ok d⟩)
    (h' : c.repaint blend shm' = ⟨cs', .ok d'⟩) : frames cs = frames cs' := by
  obtain ⟨bytes, hframe, hchanged⟩ := repaint_frame hc hlist h
  obtain ⟨bytes', hframe', hchanged'⟩ := repaint_frame hc hlist h'
  rw [hframe, hframe']
  congr 1
  refine Memory.ext_read fun j => ?_
  rw [hchanged j, hchanged' j]
  cases hold : Memory.read (List.replicate c.mDisplayBuffer.length (0 : UInt8)) j with
  | none => rfl
  | some old =>
    have hj := Memory.read_some_range hold
    have hbuf := hc.buffer
    have hw := hc.width
    rw [List.length_replicate, hbuf, Int.mul_assoc, Int.mul_comm c.mDisplayWidth] at hj
    have hx : 0 ≤ j / 4 % c.mDisplayWidth ∧ j / 4 % c.mDisplayWidth < c.mDisplayWidth :=
      ⟨Int.emod_nonneg _ (by omega), Int.emod_lt_of_pos _ hw⟩
    have hy : 0 ≤ j / 4 / c.mDisplayWidth ∧ j / 4 / c.mDisplayWidth < c.mDisplayHeight := by
      refine ⟨Int.ediv_nonneg (by omega) (by omega), ?_⟩
      rw [Int.ediv_lt_iff_lt_mul hw]
      omega
    rw [Option.map_some, Option.map_some, Option.some.injEq]
    refine List.foldl_ext _ _ old fun old p hp => ?_
    obtain ⟨s, hs, rfl⟩ := List.mem_map.mp hp
    exact drawnOver_sameUsed hused hx hy ⟨by omega, by omega⟩ (fun b k => hidden s hs b _ _ k) old

/-- A repaint that completes read the four bytes of each pixel it drew. -/
theorem repaint_reads (hc : c.Sized) {ss : List Surface} (hlist : c.mSurfacesList = ss.map some)
    (h : c.repaint blend shm = ⟨cs, .ok c'⟩) (hs : s ∈ relaid c.mDisplayHeight ss) {b : ShmBuffer}
    (hlock : (s.lockBuffer shm).1 = some b) {x y : Int} (hx : 0 ≤ x ∧ x < c.mDisplayWidth)
    (hy : 0 ≤ y ∧ y < c.mDisplayHeight) (hcovers : b.Covers s.y s.x x y) :
    b.pixelAt s.y s.x x y + 3 < b.data.length := by
  rw [← repaint_pitchedTable] at h
  obtain ⟨ss', cleared, bytes, _, _, hlist', hcleared, hloop, -, -⟩ := repaint_cases h
  obtain rfl := map_some_inj (hlist.symm.trans hlist')
  have hlaid := hc.setSurfaces ((relaid c.mDisplayHeight ss).map some)
  obtain rfl := clearDisplay_ok hlaid hcleared
  obtain ⟨d, d', hd, hdraw⟩ := drawLocked_of_repaintSurfaces hlaid.cleared rfl
    (fun _ _ _ hb => stride_pitchedTable hb) hloop (List.mem_map_of_mem hs)
  rw [lockBuffer_pitchedTable, hlock] at hdraw
  obtain ⟨_, hposY, hdraw⟩ := Exec.result_bind_ok.mp hdraw
  obtain ⟨rfl, -⟩ := checked_result.mp hposY
  obtain ⟨_, hposX, hcopy⟩ := Exec.result_bind_ok.mp hdraw
  obtain ⟨rfl, -⟩ := checked_result.mp hposX
  have hlen := display_length hc.small ((congrArg Int.ofNat hd).trans hlaid.cleared.buffer)
  exact copy_reads hc.width hlen hcopy hx hy hcovers

section Blends

variable (covers : ∀ bg fg, blend bg fg 255 = fg) (keeps : ∀ bg fg, blend bg fg 0 = bg)

include covers keeps

/-- A byte that has the value of the one that differs keeps it, whatever else is drawn. -/
theorem composition_lit {x y k : Int} (hk : 0 ≤ k ∧ k < 4) (hq : q % 4 = 0) (hv : v = 0 ∨ v = 255)
    (ps : List (Option Surface)) :
    composition blend (pitchedTable (lit shm r q (q + k) v)) x y (shownByte k) v ps = v := by
  refine List.foldl_fixed' (fun p => ?_) ps
  cases p with
  | none => rfl
  | some t => exact drawnOver_lit covers keeps hk hq hv t

/-- With the surface that shows the pixel, it is 255 where the one byte is. -/
theorem composition_lit_shown {b : ShmBuffer} {x y k : Int} (hk : 0 ≤ k ∧ k < 4)
    (hlock : ∀ shm' : ShmTable, (s.lockBuffer shm').1 = shm' r) (hr : shm r = some b)
    (hcovers : b.Covers s.y s.x x y) (hread : b.pixelAt s.y s.x x y + 3 < b.data.length)
    {ps : List (Option Surface)} (hs : some s ∈ ps) (old : UInt8) :
    composition blend (pitchedTable
        (lit shm r (b.pixelAt s.y s.x x y) (b.pixelAt s.y s.x x y + k) 255)) x y (shownByte k) old
      ps = 255 := by
  obtain ⟨below, above, rfl⟩ := List.append_of_mem hs
  unfold composition
  rw [List.foldl_append, List.foldl_cons, Option.elim_some,
    drawnOver_lit_shown covers hk hlock hr hcovers hread]
  exact composition_lit covers keeps hk (pixelAt_emod b s.y s.x x y) (.inr rfl) above

/-- **Worlds that differ in the unused byte** of a pixel that is drawn. -/
theorem frames_lit (hc : c.Sized) {ss : List Surface} (hlist : c.mSurfacesList = ss.map some)
    (h : c.repaint blend shm = ⟨cs, .ok c'⟩) (hs : s ∈ relaid c.mDisplayHeight ss) {b : ShmBuffer}
    {x y k : Int} (hshows : s.ShowsUnused shm c.mDisplayWidth c.mDisplayHeight b x y k) :
    ∃ shm₁ shm₂, shm.SameShape shm₁ ∧ shm₁.SameUsed shm₂ ∧ ∃ cs₁ c₁ cs₂ c₂,
      c.repaint blend shm₁ = ⟨cs₁, .ok c₁⟩ ∧ c.repaint blend shm₂ = ⟨cs₂, .ok c₂⟩ ∧
        frames cs₁ ≠ frames cs₂ := by
  obtain ⟨hlocked, hformat, hx, hy, hcovers, hk, hunused⟩ := hshows
  obtain ⟨r, hr, hlock⟩ := Surface.lockBuffer_shm hlocked
  have hread := repaint_reads hc hlist h hs hlocked hx hy hcovers
  have hreturns : ∀ v, ∃ ds d, c.repaint blend
      (lit shm r (b.pixelAt s.y s.x x y) (b.pixelAt s.y s.x x y + k) v) = ⟨ds, .ok d⟩ := by
    intro v
    obtain ⟨d, hd, -⟩ := (repaint_alike blend sameShape_lit c).ok (congrArg Exec.result h)
    exact ⟨_, d, by rw [← hd]⟩
  obtain ⟨ds, d, hdark⟩ := hreturns 0
  obtain ⟨es, e, hbright⟩ := hreturns 255
  refine ⟨_, _, sameShape_lit, sameUsed_lit hr hformat hunused, ds, d, es, e, hdark, hbright, ?_⟩
  obtain ⟨bytes, hframe, hchanged⟩ := repaint_frame hc hlist hdark
  obtain ⟨bytes', hframe', hchanged'⟩ := repaint_frame hc hlist hbright
  rw [hframe, hframe']
  intro hsame
  cases hsame
  have hone := hc.byte (f := fun x y k old => composition blend _ x y k old _) hchanged hx hy
    (shownByte_cases hk).1
  have htwo := hc.byte (f := fun x y k old => composition blend _ x y k old _) hchanged' hx hy
    (shownByte_cases hk).1
  rw [hone, composition_lit covers keeps hk (pixelAt_emod b s.y s.x x y) (.inl rfl),
    composition_lit_shown covers keeps hk hlock hr hcovers hread (List.mem_map_of_mem hs)] at htwo
  cases htwo

end Blends

end Compositor

open Compositor

/-- **When the unused byte does not show.** Let the blend keep to its two ends, and let a repaint of
the list complete. Any two worlds that are equal but for unused bytes of XRGB8888 buffers get the
same frame, whatever else the buffers hold, if and only if no pixel of the display is drawn from
four bytes among which is one of these. -/
theorem unused_byte_hidden_iff (blend : Blend) (covers : ∀ bg fg, blend bg fg 255 = fg)
    (keeps : ∀ bg fg, blend bg fg 0 = bg) (shm : ShmTable) (c c' : Compositor) (cs : List Call)
    (ss : List Surface) (hc : c.Sized) (hlist : c.mSurfacesList = ss.map some)
    (h : c.repaint blend shm = ⟨cs, .ok c'⟩) :
    (∀ shm₁ shm₂, shm.SameShape shm₁ → shm₁.SameUsed shm₂ → ∀ cs₁ c₁ cs₂ c₂,
        c.repaint blend shm₁ = ⟨cs₁, .ok c₁⟩ → c.repaint blend shm₂ = ⟨cs₂, .ok c₂⟩ →
        frames cs₁ = frames cs₂) ↔
      ∀ s ∈ relaid c.mDisplayHeight ss, ∀ b x y k,
        ¬ s.ShowsUnused shm c.mDisplayWidth c.mDisplayHeight b x y k := by
  constructor
  · intro hall s hs b x y k hshows
    obtain ⟨shm₁, shm₂, hshape, hused, cs₁, c₁, cs₂, c₂, h₁, h₂, hne⟩ :=
      frames_lit covers keeps hc hlist h hs hshows
    exact hne (hall shm₁ shm₂ hshape hused cs₁ c₁ cs₂ c₂ h₁ h₂)
  · intro hidden shm₁ shm₂ hshape hused cs₁ c₁ cs₂ c₂ h₁ h₂
    refine frames_sameUsed hc hlist hused (fun s hs b x y k hshows => ?_) h₁ h₂
    obtain ⟨b', hb'⟩ := hshows.of_sameShape hshape
    exact hidden s hs b' x y k hb'

/-- A surface that shows one pixel. -/
def onePixelSurface : Surface :=
  { Surface.construct 0 1 2 none with mFront := { buffer := some 7, isReady := true } }

def onePixelScreen : Compositor where
  mSurfacesList := [some onePixelSurface]
  mDisplayWidth := 1
  mDisplayHeight := 1
  mDisplayBuffer := [9, 9, 9, 9]

/-- Its buffer, with the unused byte `v`. -/
def onePixelTable (v : UInt8) : ShmTable := fun _ => some ⟨1, 1, 4, .xrgb8888, [1, 2, 3, v]⟩

theorem unused_byte_hidden_iff_onePixel :
    (∀ shm₁ shm₂, (onePixelTable 255).SameShape shm₁ → shm₁.SameUsed shm₂ → ∀ cs₁ c₁ cs₂ c₂,
        onePixelScreen.repaint integerBlend shm₁ = ⟨cs₁, .ok c₁⟩ →
        onePixelScreen.repaint integerBlend shm₂ = ⟨cs₂, .ok c₂⟩ → frames cs₁ = frames cs₂) ↔
      ∀ s ∈ relaid 1 [onePixelSurface], ∀ b x y k,
        ¬ s.ShowsUnused (onePixelTable 255) 1 1 b x y k :=
  unused_byte_hidden_iff integerBlend integerBlend_covers integerBlend_keeps (onePixelTable 255)
    onePixelScreen _ _ [onePixelSurface] ⟨by decide, by decide, by decide, rfl⟩ rfl rfl

theorem sameUsed_onePixelTable : (onePixelTable 255).SameUsed (onePixelTable 0) := by
  refine fun _ => .some ⟨⟨rfl, rfl, rfl, rfl, rfl⟩, fun i => ?_⟩
  have hwrite : Memory.write [1, 2, 3, 255] 3 0 = some [1, 2, 3, (0 : UInt8)] := rfl
  by_cases hi : i = 3
  · exact .inr ⟨rfl, 0, 0, by decide, by decide, hi⟩
  · refine .inl ?_
    show Memory.read [1, 2, 3, 255] i = Memory.read [1, 2, 3, 0] i
    rw [Memory.read_write hwrite, if_neg hi]

/-- With 255 in that byte the pixel is opaque, with 0 it is not drawn. -/
theorem unused_byte_shown :
    ¬ ∀ blend : Blend, (∀ bg fg, blend bg fg 255 = fg) → (∀ bg fg, blend bg fg 0 = bg) →
      ∀ (c : Compositor) (shm₁ shm₂ : ShmTable), c.Sized → shm₁.SameUsed shm₂ →
      ∀ cs₁ c₁ cs₂ c₂, c.repaint blend shm₁ = ⟨cs₁, .ok c₁⟩ → c.repaint blend shm₂ = ⟨cs₂, .ok c₂⟩ →
        frames cs₁ = frames cs₂ := by
  intro h
  have hsame := h integerBlend integerBlend_covers integerBlend_keeps onePixelScreen _ _
    ⟨by decide, by decide, by decide, rfl⟩ sameUsed_onePixelTable _ _ _ _ rfl rfl
  exact absurd hsame (by decide)

end WaylandTest
