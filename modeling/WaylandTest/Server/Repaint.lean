import WaylandTest.Server.Compositor

/-!
# What a repaint draws

The painter's composition says it pixel by pixel: a pixel of the display starts as zero bytes, and
every surface over it, in the order of the list, blends its own pixel into it. `repaint_draws` says
that a repaint which completes hands exactly that to the backend.

The proof follows the drawing loop. One surface changes the display as `copyShmBufferToDisplay_ok`
says; the changes of the list compose.
-/

set_option autoImplicit false

namespace WaylandTest

open Lib

/-- Byte `k` of the display pixel `(x, y)` once the surface is drawn over `old`: blended if the
surface is ready and its buffer is over the pixel. -/
def Surface.drawnOver (blend : Blend) (shm : ShmTable) (x y k : Int) (s : Surface) (old : UInt8) :
    UInt8 :=
  match (s.lockBuffer shm).1 with
  | none => old
  | some b => b.painted blend s.y s.x x y k old

/-- A locked buffer is the one behind a handle, which the surface locks in any table. -/
theorem Surface.lockBuffer_shm {shm : ShmTable} {s : Surface} {b : ShmBuffer}
    (h : (s.lockBuffer shm).1 = some b) :
    ∃ r, shm r = some b ∧ ∀ shm' : ShmTable, (s.lockBuffer shm').1 = shm' r := by
  unfold Surface.lockBuffer at h
  split at h
  · next hready =>
    obtain ⟨r, hbuffer, hr⟩ := Option.bind_eq_some_iff.mp h
    refine ⟨r, hr, fun shm' => ?_⟩
    unfold Surface.lockBuffer
    rw [if_pos hready, hbuffer]
    rfl
  · cases h

/-- A surface that is not ready locks no buffer. -/
theorem Surface.lockBuffer_not_ready (shm : ShmTable) {s : Surface} (h : ¬ s.isReady = true) :
    (s.lockBuffer shm).1 = none := by
  unfold Surface.lockBuffer
  rw [if_neg (show ¬ s.mFront.isReady = true from h)]

/-- The painter's composition: the surfaces drawn one over the other, the first one over `old`. -/
def composition (blend : Blend) (shm : ShmTable) (x y k : Int) (old : UInt8)
    (ps : List (Option Surface)) : UInt8 :=
  ps.foldl (fun old p => p.elim old fun s => s.drawnOver blend shm x y k old) old

/-- The fourth byte of a pixel is never drawn. -/
theorem composition_fourth (blend : Blend) (shm : ShmTable) (x y : Int) (old : UInt8)
    (ps : List (Option Surface)) : composition blend shm x y 3 old ps = old := by
  unfold composition
  induction ps generalizing old with
  | nil => rfl
  | cons p ps ih =>
    have hp : (p.elim old fun s => s.drawnOver blend shm x y 3 old) = old := by
      cases p with
      | none => rfl
      | some s =>
        show s.drawnOver blend shm x y 3 old = old
        unfold Surface.drawnOver
        split
        · rfl
        · exact if_neg fun h => h.2 rfl
    rw [List.foldl_cons, hp]
    exact ih old

namespace Compositor

/-- The display has pixels, their bytes are numbered by an `int`, and the display buffer has just
them. -/
structure Sized (c : Compositor) : Prop where
  width : 0 < c.mDisplayWidth
  height : 0 < c.mDisplayHeight
  small : 4 * c.mDisplayWidth * c.mDisplayHeight < 2 ^ 31
  buffer : c.mDisplayBuffer.length = 4 * c.mDisplayWidth * c.mDisplayHeight

variable {blend : Blend} {shm : ShmTable} {c : Compositor} {display display' : Memory UInt8}
  {s s' : Surface}

theorem Sized.setSurfaces {c : Compositor} (hc : c.Sized) (ps : List (Option Surface)) :
    Sized { c with mSurfacesList := ps } := ⟨hc.width, hc.height, hc.small, hc.buffer⟩

theorem Sized.cleared {c : Compositor} (hc : c.Sized) :
    Sized { c with mDisplayBuffer := List.replicate c.mDisplayBuffer.length 0 } := by
  refine ⟨hc.width, hc.height, hc.small, ?_⟩
  rw [← hc.buffer]
  exact congrArg Int.ofNat List.length_replicate

/-- A byte of a frame that is drawn pixel by pixel over a cleared display. -/
theorem Sized.byte {c : Compositor} (hc : c.Sized) {f : Int → Int → Int → UInt8 → UInt8}
    {bytes : Memory UInt8}
    (h : Memory.Changed (fun j => f (j / 4 % c.mDisplayWidth) (j / 4 / c.mDisplayWidth) (j % 4))
      (List.replicate c.mDisplayBuffer.length 0) bytes) {x y k : Int}
    (hx : 0 ≤ x ∧ x < c.mDisplayWidth) (hy : 0 ≤ y ∧ y < c.mDisplayHeight) (hk : 0 ≤ k ∧ k < 4) :
    Memory.read bytes (4 * (y * c.mDisplayWidth + x) + k) = some (f x y k 0) := by
  have hrow : 0 ≤ y * c.mDisplayWidth := Int.mul_nonneg hy.1 (by omega)
  have hlast : (y + 1) * c.mDisplayWidth ≤ c.mDisplayHeight * c.mDisplayWidth :=
    Int.mul_le_mul_of_nonneg_right (by omega) (by omega)
  rw [Int.add_mul, Int.one_mul] at hlast
  have hbuf := hc.buffer
  rw [Int.mul_assoc, Int.mul_comm c.mDisplayWidth] at hbuf
  have hzero : Memory.read (List.replicate c.mDisplayBuffer.length (0 : UInt8))
      (4 * (y * c.mDisplayWidth + x) + k) = some 0 :=
    Memory.read_replicate (by omega) (by omega)
  obtain ⟨hpx, hpy, hpk⟩ := pixel_offset (y := y) hx hk
  rw [h, hzero, Option.map_some]
  dsimp only
  rw [hpx, hpy, hpk]

/-! ## Calls of a repaint -/

theorem silent_drawLocked (s : Surface) (b : Option ShmBuffer) :
    Exec.Silent (drawLocked blend c display s b) := by
  cases b with
  | none => exact Exec.silent_pure _
  | some b =>
    exact (silent_checked _).bind fun _ => (silent_checked _).bind fun _ =>
      silent_copyShmBufferToDisplay _ _ _ _ _ _ _

/-- A surface is repainted as `Surface.repainted` says, and its buffer is drawn. -/
theorem repaintSurface_ok {cs : List Call}
    (h : repaintSurface blend shm c display s = ⟨cs, .ok (display', s')⟩) :
    cs = (s.repainted shm).2 ∧ s' = (s.repainted shm).1 ∧
      (drawLocked blend c display s (s.lockBuffer shm).1).result = .ok display' := by
  unfold Surface.repainted
  by_cases hr : s.isReady = true
  · rw [if_pos hr]
    rw [repaintSurface_ready blend shm c hr] at h
    obtain ⟨_, hlocked, rfl⟩ := Exec.log_bind_eq_ok.mp h
    obtain ⟨d, hdraw, hdrawn⟩ := (silent_drawLocked s _).bind_eq_ok.mp hlocked
    obtain ⟨_, hret, rfl⟩ := Exec.log_bind_eq_ok.mp hdrawn
    cases hret
    rw [List.append_nil]
    exact ⟨rfl, rfl, hdraw⟩
  · rw [if_neg hr]
    rw [repaintSurface_idle blend shm c hr] at h
    cases h
    rw [Surface.lockBuffer_not_ready shm hr]
    exact ⟨rfl, rfl, rfl⟩

/-- **One surface of a repaint**: drawn over the display, and unlocked. -/
theorem drawLocked_ok (hc : c.Sized) (hsize : display.length = c.mDisplayBuffer.length)
    (hstride : ∀ b, (s.lockBuffer shm).1 = some b → b.stride = 4 * b.width)
    (h : (drawLocked blend c display s (s.lockBuffer shm).1).result = .ok display') :
    Memory.Changed (fun j => s.drawnOver blend shm (j / 4 % c.mDisplayWidth)
      (j / 4 / c.mDisplayWidth) (j % 4)) display display' := by
  unfold Surface.drawnOver
  cases hb : (s.lockBuffer shm).1 with
  | none =>
    rw [hb] at h
    cases h
    exact Memory.Changed.refl display
  | some b =>
    rw [hb] at h
    obtain ⟨y, hy, h⟩ := Exec.result_bind_ok.mp h
    obtain ⟨rfl, -⟩ := checked_result.mp hy
    obtain ⟨x, hx, h⟩ := Exec.result_bind_ok.mp h
    obtain ⟨rfl, -⟩ := checked_result.mp hx
    exact copyShmBufferToDisplay_ok (hstride b hb) hc.width (hsize ▸ hc.buffer)
      (fun _ => hc.small) h

/-- What the drawing loop sends, and what it leaves of the surfaces. -/
def repaintedCalls (shm : ShmTable) (ps : List (Option Surface)) : List Call :=
  ps.flatMap fun p => p.elim [] fun s => (s.repainted shm).2

/-- **The loop of a repaint**: what it sends, and what it leaves of the surfaces. -/
theorem repaintSurfaces_surfaces {ps painted : List (Option Surface)} {cs : List Call}
    (h : repaintSurfaces blend shm c display ps = ⟨cs, .ok (display', painted)⟩) :
    cs = repaintedCalls shm ps ∧ painted = ps.map (Option.map fun s => (s.repainted shm).1) := by
  induction ps generalizing display cs painted with
  | nil =>
    cases h
    exact ⟨rfl, rfl⟩
  | cons p ps ih =>
    cases p with
    | none =>
      obtain ⟨_, ⟨d, painted'⟩, _, hrest, hret, rfl⟩ := Exec.bind_eq_ok.mp h
      cases hret
      obtain ⟨rfl, rfl⟩ := ih hrest
      rw [List.append_nil]
      exact ⟨rfl, rfl⟩
    | some s =>
      obtain ⟨_, ⟨d, s'⟩, _, hone, hmore, rfl⟩ := Exec.bind_eq_ok.mp h
      obtain ⟨_, ⟨d', painted'⟩, _, hrest, hret, rfl⟩ := Exec.bind_eq_ok.mp hmore
      cases hret
      obtain ⟨rfl, rfl, -⟩ := repaintSurface_ok hone
      obtain ⟨rfl, rfl⟩ := ih hrest
      rw [List.append_nil]
      exact ⟨rfl, rfl⟩

/-- **The loop of a repaint**: the surfaces are drawn one over the other. -/
theorem repaintSurfaces_draws (hc : c.Sized) {ps painted : List (Option Surface)} {cs : List Call}
    (hsize : display.length = c.mDisplayBuffer.length)
    (hstride : ∀ s, some s ∈ ps → ∀ b, (s.lockBuffer shm).1 = some b → b.stride = 4 * b.width)
    (h : repaintSurfaces blend shm c display ps = ⟨cs, .ok (display', painted)⟩) :
    Memory.Changed (fun j old => composition blend shm (j / 4 % c.mDisplayWidth)
        (j / 4 / c.mDisplayWidth) (j % 4) old ps) display display' := by
  induction ps generalizing display cs painted with
  | nil =>
    cases h
    exact Memory.Changed.refl _
  | cons p ps ih =>
    have htail := fun s hs => hstride s (List.mem_cons_of_mem p hs)
    cases p with
    | none =>
      obtain ⟨_, ⟨d, painted'⟩, _, hrest, hret, rfl⟩ := Exec.bind_eq_ok.mp h
      cases hret
      exact ih hsize htail hrest
    | some s =>
      obtain ⟨_, ⟨d, s'⟩, _, hone, hmore, rfl⟩ := Exec.bind_eq_ok.mp h
      obtain ⟨_, ⟨d', painted'⟩, _, hrest, hret, rfl⟩ := Exec.bind_eq_ok.mp hmore
      cases hret
      obtain ⟨-, -, hdraw⟩ := repaintSurface_ok hone
      have hfirst := drawLocked_ok hc hsize (hstride s List.mem_cons_self) hdraw
      exact hfirst.trans (ih (hfirst.length.trans hsize) htail hrest)

/-! ## What a repaint keeps of the display -/

section Keeps

variable {σ : Type} {line : ShmBuffer → Line σ} {J : σ → Prop} {d d' : σ}

theorem drawLockedBy_keeps
    (hline : ∀ b d dst src size d', J d → (line b d dst src size).result = .ok d' → J d')
    (hJ : J d) {b : Option ShmBuffer} (h : (drawLockedBy line c d s b).result = .ok d') :
    J d' := by
  cases b with
  | none =>
    cases h
    exact hJ
  | some b =>
    obtain ⟨_, -, h⟩ := Exec.result_bind_ok.mp h
    obtain ⟨_, -, h⟩ := Exec.result_bind_ok.mp h
    exact copyBy_keeps (hline b) hJ h

/-- **What each line keeps** of the memory, the drawing loop keeps. -/
theorem repaintSurfacesBy_keeps
    (hline : ∀ b d dst src size d', J d → (line b d dst src size).result = .ok d' → J d')
    (hJ : J d) {ps painted : List (Option Surface)}
    (h : (repaintSurfacesBy line shm c d ps).result = .ok (d', painted)) : J d' := by
  induction ps generalizing d painted with
  | nil =>
    cases h
    exact hJ
  | cons p ps ih =>
    cases p with
    | none =>
      obtain ⟨⟨e, painted'⟩, hrest, hret⟩ := Exec.result_bind_ok.mp h
      cases hret
      exact ih hJ hrest
    | some s =>
      obtain ⟨⟨e, s'⟩, hone, hmore⟩ := Exec.result_bind_ok.mp h
      obtain ⟨⟨e', painted'⟩, hrest, hret⟩ := Exec.result_bind_ok.mp hmore
      cases hret
      refine ih ?_ hrest
      unfold repaintSurfaceBy at hone
      split at hone
      · obtain ⟨_, -, hone⟩ := Exec.result_bind_ok.mp hone
        obtain ⟨_, hdraw, hone⟩ := Exec.result_bind_ok.mp hone
        obtain ⟨_, -, hone⟩ := Exec.result_bind_ok.mp hone
        cases hone
        exact drawLockedBy_keeps hline hJ hdraw
      · cases hone
        exact hJ

end Keeps

/-! ## The whole repaint -/

theorem clearDisplay_cases {c' : Compositor} (h : c.clearDisplay.result = .ok c') :
    c' = { c with
      mDisplayBuffer :=
        List.replicate (c.mDisplayWidth * c.mDisplayHeight * bytesPerPixel).toNat 0 ++
          c.mDisplayBuffer.drop (c.mDisplayWidth * c.mDisplayHeight * bytesPerPixel).toNat } := by
  obtain ⟨_, hpixels, h⟩ := Exec.result_bind_ok.mp h
  obtain ⟨rfl, -⟩ := checked_result.mp hpixels
  obtain ⟨_, hbytes, h⟩ := Exec.result_bind_ok.mp h
  obtain ⟨rfl, -⟩ := checked_result.mp hbytes
  obtain ⟨_, -, h⟩ := Exec.result_bind_ok.mp h
  exact (Except.ok.inj h).symm

theorem length_clearDisplay {c' : Compositor} (h : c.clearDisplay.result = .ok c') :
    c'.mDisplayBuffer.length = c.mDisplayBuffer.length := by
  obtain ⟨_, hpixels, h⟩ := Exec.result_bind_ok.mp h
  obtain ⟨size, hbytes, h⟩ := Exec.result_bind_ok.mp h
  obtain ⟨_, hguard, h⟩ := Exec.result_bind_ok.mp h
  obtain ⟨hnonneg, hle⟩ := Exec.guard_result_ok.mp hguard
  cases h
  simp only [List.length_append, List.length_replicate, List.length_drop]
  omega

theorem clearDisplay_ok (hc : c.Sized) {c' : Compositor} (h : c.clearDisplay.result = .ok c') :
    c' = { c with mDisplayBuffer := List.replicate c.mDisplayBuffer.length 0 } := by
  have hlen : (c.mDisplayWidth * c.mDisplayHeight * bytesPerPixel).toNat =
      c.mDisplayBuffer.length := by
    have hbuf := hc.buffer
    rw [Int.mul_assoc] at hbuf
    unfold bytesPerPixel
    omega
  rw [clearDisplay_cases h, hlen, List.drop_length, List.append_nil]

/-- Every surface of a layout is one of the list, at another height at most. -/
theorem mem_placed {height y : Int} {ss : List Surface} {s : Surface}
    (hs : s ∈ placed height y ss) : ∃ t ∈ ss, ∃ y, s = t ∨ s = t.setY y := by
  induction ss generalizing y with
  | nil => cases hs
  | cons t ts ih =>
    unfold placed at hs
    split at hs
    · rcases List.mem_cons.mp hs with rfl | hs
      · exact ⟨t, List.mem_cons_self, y, .inr rfl⟩
      · obtain ⟨u, hu, y', hs⟩ := ih hs
        exact ⟨u, List.mem_cons_of_mem t hu, y', hs⟩
    · rcases List.mem_cons.mp hs with rfl | hs
      · exact ⟨s, List.mem_cons_self, y, .inl rfl⟩
      · obtain ⟨u, hu, y', hs⟩ := ih hs
        exact ⟨u, List.mem_cons_of_mem t hu, y', hs⟩

theorem lockBuffer_relaid (shm : ShmTable) {displayHeight : Int} {ss : List Surface}
    (hs : s ∈ relaid displayHeight ss) : ∃ t ∈ ss, s.lockBuffer shm = t.lockBuffer shm := by
  unfold relaid at hs
  split at hs
  · exact ⟨s, hs, rfl⟩
  · obtain ⟨t, ht, y, rfl | rfl⟩ := mem_placed hs
    · exact ⟨s, ht, rfl⟩
    · exact ⟨t, ht, rfl⟩

theorem silent_clearDisplay (c : Compositor) : Exec.Silent c.clearDisplay :=
  (silent_checked _).bind fun _ => (silent_checked _).bind fun _ =>
    (Exec.silent_guard _ _).bind fun _ => Exec.silent_pure _

/-- **A repaint that completes**: the list had no null entry; the layout, the clearing and the
drawing completed; and this is what it sends and leaves. -/
theorem repaint_cases {c' : Compositor} {cs : List Call}
    (h : c.repaint blend shm = ⟨cs, .ok c'⟩) :
    ∃ (ss : List Surface) (cleared : Compositor) (bytes : Memory UInt8) (ds : List Call)
      (painted : List (Option Surface)),
      c.mSurfacesList = ss.map some ∧
      ({ c with mSurfacesList := (relaid c.mDisplayHeight ss).map some } :
        Compositor).clearDisplay.result = .ok cleared ∧
      repaintSurfaces blend shm cleared cleared.mDisplayBuffer
        ((relaid c.mDisplayHeight ss).map some) = ⟨ds, .ok (bytes, painted)⟩ ∧
      cs = repaintedCalls shm ((relaid c.mDisplayHeight ss).map some) ++
        [.drawBuffer bytes, .timerUpdate repaintDelay] ∧
      c' = { c with
        mSurfacesList := ((relaid c.mDisplayHeight ss).map some).map
          (Option.map fun s => (s.repainted shm).1)
        mDisplayBuffer := bytes } := by
  obtain ⟨laid, hlaid, hclear⟩ := (silent_relayoutSurfaces c).bind_eq_ok.mp h
  obtain ⟨ss, hlist, rfl⟩ := relayoutSurfaces_ok hlaid
  obtain ⟨cleared, hcleared, hpaint⟩ := (silent_clearDisplay _).bind_eq_ok.mp hclear
  obtain rfl := clearDisplay_cases hcleared
  obtain ⟨ds, ⟨bytes, painted⟩, _, hloop, hdraw, rfl⟩ := Exec.bind_eq_ok.mp hpaint
  obtain ⟨_, hret, rfl⟩ := Exec.log_bind_eq_ok.mp hdraw
  cases hret
  obtain ⟨rfl, rfl⟩ := repaintSurfaces_surfaces hloop
  exact ⟨ss, _, bytes, _, _, hlist, hcleared, hloop, by rw [List.append_nil], rfl⟩

/-- The extent of the display, and of the buffer behind it. -/
def extent (c : Compositor) : Int × Int × Nat :=
  (c.mDisplayWidth, c.mDisplayHeight, c.mDisplayBuffer.length)

theorem Sized.of_extent {c c' : Compositor} (hc : c.Sized) (h : c'.extent = c.extent) :
    c'.Sized := by
  simp only [extent, Prod.mk.injEq] at h
  obtain ⟨hw, hh, hb⟩ := h
  refine ⟨hw ▸ hc.width, hh ▸ hc.height, ?_, ?_⟩
  · rw [hw, hh]
    exact hc.small
  · rw [hw, hh, hb]
    exact hc.buffer

/-- Lines that stay in the display leave it its extent. -/
theorem extent_repaintBy {line : ShmBuffer → Line (Memory UInt8)} {c' : Compositor}
    (hline : ∀ b d dst src size d',
      (line b d dst src size).result = .ok d' → d'.length = d.length)
    (h : (c.repaintBy line shm).result = .ok c') : c'.extent = c.extent := by
  obtain ⟨laid, hlaid, h⟩ := Exec.result_bind_ok.mp h
  obtain ⟨ss, -, rfl⟩ := relayoutSurfaces_ok hlaid
  obtain ⟨cleared, hcleared, h⟩ := Exec.result_bind_ok.mp h
  obtain ⟨⟨bytes, painted⟩, hloop, h⟩ := Exec.result_bind_ok.mp h
  obtain ⟨_, -, h⟩ := Exec.result_bind_ok.mp h
  cases h
  have hbytes : bytes.length = cleared.mDisplayBuffer.length :=
    repaintSurfacesBy_keeps (J := fun d => d.length = cleared.mDisplayBuffer.length)
      (fun b d dst src size d' hd hres => (hline b d dst src size d' hres).trans hd) rfl hloop
  have hlength := length_clearDisplay hcleared
  obtain rfl := clearDisplay_cases hcleared
  simp only [extent, hbytes, hlength]

theorem extent_repaint {c' : Compositor} {cs : List Call}
    (h : c.repaint blend shm = ⟨cs, .ok c'⟩) : c'.extent = c.extent :=
  extent_repaintBy (fun _ _ _ _ _ _ hline => length_blitLine hline) (congrArg Exec.result h)

/-- What a repaint draws is the painter's composition, over a cleared display. -/
theorem repaint_changed (hc : c.Sized) {ss : List Surface} {cleared : Compositor}
    {bytes : Memory UInt8} {ds : List Call} {painted : List (Option Surface)}
    (hstride : ∀ s ∈ ss, ∀ b, (s.lockBuffer shm).1 = some b → b.stride = 4 * b.width)
    (hcleared : ({ c with mSurfacesList := (relaid c.mDisplayHeight ss).map some } :
      Compositor).clearDisplay.result = .ok cleared)
    (hloop : repaintSurfaces blend shm cleared cleared.mDisplayBuffer
      ((relaid c.mDisplayHeight ss).map some) = ⟨ds, .ok (bytes, painted)⟩) :
    Memory.Changed (fun j old => composition blend shm (j / 4 % c.mDisplayWidth)
        (j / 4 / c.mDisplayWidth) (j % 4) old ((relaid c.mDisplayHeight ss).map some))
      (List.replicate c.mDisplayBuffer.length 0) bytes := by
  have hlaid := hc.setSurfaces ((relaid c.mDisplayHeight ss).map some)
  have hlaidStride : ∀ s, some s ∈ (relaid c.mDisplayHeight ss).map some →
      ∀ b, (s.lockBuffer shm).1 = some b → b.stride = 4 * b.width := by
    intro s hs b hb
    obtain ⟨s', hs', heq⟩ := List.mem_map.mp hs
    obtain rfl := Option.some.inj heq
    obtain ⟨t, ht, hlock⟩ := lockBuffer_relaid shm hs'
    exact hstride t ht b (hlock ▸ hb)
  obtain rfl := clearDisplay_ok hlaid hcleared
  exact repaintSurfaces_draws hlaid.cleared rfl hlaidStride hloop

/-! ## The calls of a repaint that may fault -/

theorem mem_calls_repaintSurface {call : Call}
    (h : call ∈ (repaintSurface blend shm c display s).calls) : call ∈ (s.repainted shm).2 := by
  unfold Surface.repainted
  by_cases hr : s.isReady = true
  · rw [if_pos hr]
    rw [repaintSurface_ready blend shm c hr, Exec.calls_log_bind, List.mem_append] at h
    rcases h with h | h
    · exact List.mem_append_left _ h
    · rcases Exec.mem_calls_bind.mp h with h | ⟨d, -, h⟩
      · rw [silent_drawLocked s _] at h
        cases h
      · rw [Exec.calls_log_bind, List.mem_append] at h
        rcases h with h | h
        · exact List.mem_append_right _ h
        · cases h
  · rw [repaintSurface_idle blend shm c hr] at h
    cases h

theorem mem_calls_repaintSurfaces {ps : List (Option Surface)} {call : Call}
    (h : call ∈ (repaintSurfaces blend shm c display ps).calls) : call ∈ repaintedCalls shm ps := by
  induction ps generalizing display with
  | nil => cases h
  | cons p ps ih =>
    have hrest : ∀ d, call ∈ (repaintSurfaces blend shm c d ps).calls →
        call ∈ repaintedCalls shm (p :: ps) := fun d hd => List.mem_append_right _ (ih hd)
    cases p with
    | none =>
      rcases Exec.mem_calls_bind.mp h with h | ⟨r, -, h⟩
      · exact hrest display h
      · cases h
    | some s =>
      rcases Exec.mem_calls_bind.mp h with h | ⟨r, -, h⟩
      · exact List.mem_append_left _ (mem_calls_repaintSurface h)
      · rcases Exec.mem_calls_bind.mp h with h | ⟨r', -, h⟩
        · exact hrest r.1 h
        · cases h

/-- A call of a repaint, whether it completes or not: a surface's, or one of its own two. -/
theorem mem_calls_repaint {call : Call} (h : call ∈ (c.repaint blend shm).calls) :
    (∃ ss : List Surface, c.mSurfacesList = ss.map some ∧
        call ∈ repaintedCalls shm ((relaid c.mDisplayHeight ss).map some)) ∨
      (∃ bytes, call = .drawBuffer bytes) ∨ call = .timerUpdate repaintDelay := by
  rcases Exec.mem_calls_bind.mp h with h | ⟨laid, hlaid, h⟩
  · rw [silent_relayoutSurfaces c] at h
    cases h
  · obtain ⟨ss, hlist, rfl⟩ := relayoutSurfaces_ok hlaid
    rcases Exec.mem_calls_bind.mp h with h | ⟨cleared, hcleared, h⟩
    · rw [silent_clearDisplay _] at h
      cases h
    · obtain rfl := clearDisplay_cases hcleared
      rcases Exec.mem_calls_bind.mp h with h | ⟨r, -, h⟩
      · exact .inl ⟨ss, hlist, mem_calls_repaintSurfaces h⟩
      · rw [Exec.calls_log_bind, List.mem_append] at h
        rcases h with h | h
        · rcases List.mem_cons.mp h with rfl | h
          · exact .inr (.inl ⟨r.1, rfl⟩)
          · exact .inr (.inr (List.mem_singleton.mp h))
        · cases h

/-- Only the end of a repaint hands a frame to the backend. -/
theorem drawBuffer_notMem_repaintedCalls {ps : List (Option Surface)} {bytes : List UInt8} :
    .drawBuffer bytes ∉ repaintedCalls shm ps := by
  intro hmem
  obtain ⟨p, -, hp⟩ := List.mem_flatMap.mp hmem
  cases p with
  | none => cases hp
  | some s =>
    simp only [Option.elim_some, Surface.repainted, Surface.lockBuffer, Surface.unlockBuffer,
      SurfaceState.sendDone] at hp
    split at hp
    · split at hp <;> split at hp <;> simp at hp
    · cases hp

end Compositor

/-- **A repaint draws the painter's composition.** A repaint that completes lays the surfaces out,
and then hands one frame to the backend. Each pixel of that frame is made of zero bytes by drawing
the laid out surfaces over it, one after the other; its fourth byte is zero. -/
theorem repaint_draws {blend : Blend} {shm : ShmTable} {c c' : Compositor} {cs : List Call}
    (ss : List Surface) (hc : c.Sized) (hlist : c.mSurfacesList = ss.map some)
    (hpacked : ∀ s ∈ ss, ∀ b, (s.lockBuffer shm).1 = some b → b.Packed)
    (h : c.repaint blend shm = ⟨cs, .ok c'⟩) :
    ∃ laid calls bytes, c.relayoutSurfaces = ⟨[], .ok laid⟩ ∧
      cs = calls ++ [.drawBuffer bytes, .timerUpdate repaintDelay] ∧
      (∀ bs, .drawBuffer bs ∉ calls) ∧
      (bytes.length : Int) = 4 * c.mDisplayWidth * c.mDisplayHeight ∧
      ∀ x y, 0 ≤ x ∧ x < c.mDisplayWidth → 0 ≤ y ∧ y < c.mDisplayHeight →
        (∀ k, 0 ≤ k ∧ k < 3 → Memory.read bytes (4 * (y * c.mDisplayWidth + x) + k) =
          some (composition blend shm x y k 0 laid.mSurfacesList)) ∧
        Memory.read bytes (4 * (y * c.mDisplayWidth + x) + 3) = some 0 := by
  obtain ⟨ss', cleared, bytes, _, _, hlist', hcleared, hloop, rfl, -⟩ := Compositor.repaint_cases h
  obtain rfl := map_some_inj (hlist.symm.trans hlist')
  have hchanged := Compositor.repaint_changed hc (fun s hs b hb => (hpacked s hs b hb).stride)
    hcleared hloop
  have hlen : (bytes.length : Int) = 4 * c.mDisplayWidth * c.mDisplayHeight := by
    rw [hchanged.length, List.length_replicate, hc.buffer]
  have hbyte := fun x y k hx hy hk => hc.byte (f := fun x y k old => composition blend shm x y k old
    ((Compositor.relaid c.mDisplayHeight ss).map some)) (x := x) (y := y) (k := k) hchanged hx hy hk
  refine ⟨_, _, bytes, Compositor.relayoutSurfaces_eq hlist, rfl,
    fun _ => Compositor.drawBuffer_notMem_repaintedCalls, hlen, ?_⟩
  intro x y hx hy
  refine ⟨fun k hk => hbyte x y k hx hy ⟨hk.1, by omega⟩, ?_⟩
  rw [hbyte x y 3 hx hy (by omega), composition_fourth]

/-- A display of two pixels, and one shell surface, whose buffer of two pixels is cut at the left
edge. -/
def cutLeft : Compositor where
  mSurfacesList := [some { Surface.construct 0 1 2 none with
    mFront := { buffer := some 7, isReady := true, callbackDone := some 8 }
    mBack := { x := -1 }
    mShellSurface := some ⟨3, 4⟩ }]
  mDisplayWidth := 2
  mDisplayHeight := 1
  mDisplayBuffer := [9, 9, 9, 9, 9, 9, 9, 9]

def cutLeftShm : ShmTable := fun _ => some ⟨2, 1, 8, .argb8888, [1, 2, 3, 4, 5, 6, 7, 8]⟩

theorem repaint_draws_cutLeft :
    ∃ laid calls bytes, cutLeft.relayoutSurfaces = ⟨[], .ok laid⟩ ∧
      (cutLeft.repaint (fun bg fg _ => bg + fg) cutLeftShm).calls =
        calls ++ [.drawBuffer bytes, .timerUpdate repaintDelay] ∧
      (∀ bs, .drawBuffer bs ∉ calls) ∧
      (bytes.length : Int) = 4 * cutLeft.mDisplayWidth * cutLeft.mDisplayHeight ∧
      ∀ x y, 0 ≤ x ∧ x < cutLeft.mDisplayWidth → 0 ≤ y ∧ y < cutLeft.mDisplayHeight →
        (∀ k, 0 ≤ k ∧ k < 3 → Memory.read bytes (4 * (y * cutLeft.mDisplayWidth + x) + k) =
          some (composition (fun bg fg _ => bg + fg) cutLeftShm x y k 0 laid.mSurfacesList)) ∧
        Memory.read bytes (4 * (y * cutLeft.mDisplayWidth + x) + 3) = some 0 :=
  repaint_draws [_] ⟨by decide, by decide, by decide, rfl⟩ rfl
    (fun s hs b hb => by
      obtain rfl := List.mem_singleton.mp hs
      obtain rfl := Option.some.inj hb
      decide)
    rfl

end WaylandTest
