import WaylandTest.Server.CopyOverflow
import WaylandTest.Server.Sessions

/-!
# When a repaint overflows

A repaint computes with positions that clients choose. `Near` bounds the position of one buffer, in
pixels: 2^29 pixels have 2^31 bytes. `repaints_overflow_iff` says of whole runs, in which clients
attach at any offsets, come and go, that no repaint overflows exactly if every buffer that a surface
of the list shows is near the display.

The source checks no index: a line that leads outside the display does not keep it from computing
the offsets of the next row, and of the next surface. So the runs are those of the `lenientMachine`,
in which such a line is left out and the repaint goes on. Where no line leads outside they are the
server's (`lenient_of_reaches`), and an overflow of the server is one of theirs
(`lenient_overflows`).
-/

set_option autoImplicit false

namespace WaylandTest

open Lib Exec

/-! ## One buffer -/

/-- The buffer's position is near enough to the display that the bytes up to it, and up to its last
row that is drawn, are numbered by an `int`. -/
structure Near (displayWidth displayHeight : Int) (b : ShmBuffer) (posY posX : Int) : Prop where
  left : -2 ^ 29 < posX
  right : posX ≤ displayWidth + 2 ^ 29
  first : -2 ^ 29 ≤ posY * displayWidth + max 0 posX ∧ posY * displayWidth + max 0 posX < 2 ^ 29
  last : posY < displayHeight →
    min (posY + b.height) displayHeight * displayWidth + max 0 posX < 2 ^ 29 ∧
      (min (posY + b.height) displayHeight - posY) * b.width + max 0 (-posX) < 2 ^ 29

/-- A packed buffer of less than 2^31 bytes is less than 2^29 pixels wide and high. -/
theorem ShmBuffer.Packed.pixels {b : ShmBuffer} (hb : b.Packed) (hbytes : b.data.length < 2 ^ 31) :
    4 * b.width < 2 ^ 31 ∧ 4 * b.height < 2 ^ 31 := by
  have hwidth := hb.width
  have hheight := hb.height
  have hpixels := hb.bytes_le
  have hcolumns : 1 * b.width ≤ b.height * b.width :=
    Int.mul_le_mul_of_nonneg_right (by omega) (by omega)
  have hrows : b.height * 1 ≤ b.height * b.width :=
    Int.mul_le_mul_of_nonneg_left (by omega) (by omega)
  omega

section Copies

variable {displayWidth displayHeight : Int} {b : ShmBuffer} {posY posX : Int}

/-- The expressions of a copy fit, and the position too, exactly if the buffer is near. -/
theorem near_iff (hw : 0 < displayWidth) (hw' : 4 * displayWidth < 2 ^ 31) (hb : b.Packed)
    (hbytes : b.data.length < 2 ^ 31) :
    FitsInt32 posY ∧ FitsInt32 posX ∧ RangeFits displayWidth b.width b.height posY posX ∧
        (posY < min (posY + b.height) displayHeight →
          RowsFit displayWidth displayHeight b.width b.height posY posX) ↔
      Near displayWidth displayHeight b posY posX := by
  have hwidth := hb.width
  have hheight := hb.height
  obtain ⟨hcolumns, hrows⟩ := hb.pixels hbytes
  constructor
  · rintro ⟨hy, hx, hfits, hlast⟩
    have hline := hfits.line
    have hleft := hfits.left
    have hoffset := hfits.offset
    unfold FitsInt32 at hx hline hleft hoffset
    refine ⟨?_, by omega, by omega, fun hdraws => ?_⟩
    · by_contra hfar
      have hsides := (hleft (by omega)).2.1
      omega
    · obtain ⟨hdst, hsrc⟩ := hlast (by omega)
      omega
  · rintro ⟨hleft, hright, hfirst, hlast⟩
    -- The row's offset is at least a pixel for each row away from the display.
    have habove : posY < 0 → posY * displayWidth ≤ posY * 1 := fun hneg =>
      Int.mul_le_mul_of_nonpos_left (by omega) (by omega)
    have hbelow : 0 ≤ posY → posY * 1 ≤ posY * displayWidth := fun hpos =>
      Int.mul_le_mul_of_nonneg_left (by omega) (by omega)
    have hposY : -2 ^ 31 ≤ posY ∧ posY < 2 ^ 29 := by omega
    have hfits : RangeFits displayWidth b.width b.height posY posX := by
      refine ⟨?_, ?_, ?_, fun hneg => ⟨?_, ?_, ?_⟩, ?_, ?_, ?_⟩ <;> unfold FitsInt32 <;> omega
    refine ⟨⟨hposY.1, by omega⟩, ⟨by omega, by omega⟩, hfits, fun hdraws => ?_⟩
    obtain ⟨hdst, hsrc⟩ := hlast (by omega)
    exact ⟨by omega, by omega⟩

end Copies

/-! ## Lines that lead outside -/

/-- `Compositor::blitLine`, where a line that leads outside the display or the buffer is left
out. -/
def lenientLine (blend : Blend) (b : ShmBuffer) : Line (Memory UInt8) := fun display dst src size =>
  match (blitLine blend b.data display dst src size).result with
  | .ok display => pure display
  | .error _ => pure display

theorem faults_lenientLine (blend : Blend) (b : ShmBuffer) (display : Memory UInt8) (dst src : Int)
    (size : UInt32) : Faults (fun _ => False) (lenientLine blend b display dst src size) := by
  unfold lenientLine
  split
  · exact faults_pure _
  · exact faults_pure _

/-- A line, of whatever size, does not overflow. -/
theorem faults_blitLine_any {blend : Blend} {data display : Memory UInt8} {dst src : Int}
    {size : UInt32} :
    Faults (· ≠ .signedOverflow) (blitLine blend data display dst src size) := by
  refine Faults.bind (faults_loop (fun s => ?_) (by decide) _ _) fun _ _ => faults_pure _
  refine (faults_alphaBlending.mono fun e he => ?_).bind fun _ _ => faults_pure _
  rw [he]
  decide

/-- The two agree where a line stays inside. -/
theorem follows_lenientLine (blend : Blend) (b : ShmBuffer) (display : Memory UInt8)
    (dst src : Int) (size : UInt32) :
    Follows (· ≠ .signedOverflow) (blitLine blend b.data display dst src size)
      (lenientLine blend b display dst src size) := by
  cases hres : (blitLine blend b.data display dst src size).result with
  | error e => exact .inr ⟨e, faults_blitLine_any e hres, hres⟩
  | ok d =>
    refine .inl ?_
    rw [(silent_blitLine blend b.data display dst src size).eq_ok hres]
    unfold lenientLine
    rw [hres]
    rfl

section Follow

variable {σ : Type} {E : Fault → Prop}

/-- A copy follows another one where its lines do. -/
theorem follows_copyBy {int32 : IntRule} {line line' : Line σ}
    (h : ∀ d dst src size, Follows E (line d dst src size) (line' d dst src size))
    (displayWidth displayHeight w height : Int) (display : σ) (posY posX : Int) :
    Follows E (copyBy int32 line displayWidth displayHeight w height display posY posX)
      (copyBy int32 line' displayWidth displayHeight w height display posY posX) := by
  refine (Follows.refl _).bind fun r => ?_
  refine Follows.bind (Follows.loop (fun s => ?_) _ _) fun _ => .refl _
  exact (h _ _ _ _).bind fun _ => .refl _

namespace Compositor

variable {line line' : ShmBuffer → Line σ} {shm : ShmTable} {c : Compositor} {display : σ}

theorem follows_drawLockedBy
    (h : ∀ b d dst src size, Follows E (line b d dst src size) (line' b d dst src size))
    (s : Surface) (o : Option ShmBuffer) :
    Follows E (drawLockedBy line c display s o) (drawLockedBy line' c display s o) := by
  cases o with
  | none => exact .refl _
  | some b =>
    exact (Follows.refl _).bind fun y => (Follows.refl _).bind fun x =>
      follows_copyBy (h b) _ _ _ _ _ _ _

theorem follows_repaintSurfaceBy
    (h : ∀ b d dst src size, Follows E (line b d dst src size) (line' b d dst src size))
    (s : Surface) :
    Follows E (repaintSurfaceBy line shm c display s) (repaintSurfaceBy line' shm c display s) := by
  unfold repaintSurfaceBy
  split
  · exact (Follows.refl _).bind fun _ => (follows_drawLockedBy h s _).bind fun _ => .refl _
  · exact .refl _

theorem follows_repaintSurfacesBy
    (h : ∀ b d dst src size, Follows E (line b d dst src size) (line' b d dst src size))
    (ps : List (Option Surface)) :
    Follows E (repaintSurfacesBy line shm c display ps)
      (repaintSurfacesBy line' shm c display ps) := by
  induction ps generalizing display with
  | nil => exact .refl _
  | cons p ps ih =>
    cases p with
    | none => exact ih.bind fun _ => .refl _
    | some s => exact (follows_repaintSurfaceBy h s).bind fun _ => ih.bind fun _ => .refl _

/-- **A repaint follows one that is lenient** as far as its lines stay inside. -/
theorem follows_repaint (blend : Blend) (shm : ShmTable) (c : Compositor) :
    Follows (· ≠ .signedOverflow) (c.repaint blend shm) (c.repaintBy (lenientLine blend) shm) :=
  (Follows.refl _).bind fun _ => (Follows.refl _).bind fun _ =>
    (follows_repaintSurfacesBy (follows_lenientLine blend) _).bind fun _ => .refl _

end Compositor

end Follow

namespace Compositor

/-! ## One repaint -/

/-- If the surface shows a buffer, the buffer is near the display. -/
def ShownNear (shm : ShmTable) (displayWidth displayHeight : Int) (s : Surface) : Prop :=
  ∀ b, (s.lockBuffer shm).1 = some b → Near displayWidth displayHeight b s.y s.x

section Draws

variable {σ : Type} {line : ShmBuffer → Line σ} {shm : ShmTable} {c : Compositor} {display : σ}
  {s : Surface} {b : ShmBuffer}

theorem drawLockedBy_returns :
    (drawLockedBy line c display s (some b)).Returns ↔
      FitsInt32 s.y ∧ FitsInt32 s.x ∧
        (copyBy checked (line b) c.mDisplayWidth c.mDisplayHeight b.width b.height display s.y
          s.x).Returns := by
  constructor
  · intro h
    obtain ⟨_, hposY, h⟩ := returns_bind.mp h
    obtain ⟨rfl, hy⟩ := checked_result.mp hposY
    obtain ⟨_, hposX, h⟩ := returns_bind.mp h
    obtain ⟨rfl, hx⟩ := checked_result.mp hposX
    exact ⟨hy, hx, h⟩
  · rintro ⟨hy, hx, h⟩
    exact returns_bind.mpr ⟨s.y, checked_result.mpr ⟨rfl, hy⟩,
      returns_bind.mpr ⟨s.x, checked_result.mpr ⟨rfl, hx⟩, h⟩⟩

/-- A surface is repainted as its buffer is drawn. -/
theorem repaintSurfaceBy_result (s : Surface) :
    (repaintSurfaceBy line shm c display s).result =
      (drawLockedBy line c display s (s.lockBuffer shm).1).result.map
        fun d => (d, (s.repainted shm).1) := by
  unfold repaintSurfaceBy Surface.repainted
  by_cases hr : s.isReady = true
  · rw [if_pos hr, if_pos hr]
    show (drawLockedBy line c display s (s.lockBuffer shm).1 >>= _).result = _
    cases hd : (drawLockedBy line c display s (s.lockBuffer shm).1).result with
    | error e => exact result_bind_error hd
    | ok d => exact result_bind_of_ok hd
  · rw [if_neg hr, if_neg hr, Surface.lockBuffer_not_ready shm hr]
    rfl

/-- **The drawing loop** returns exactly if each surface's buffer is drawn to its end. -/
theorem repaintSurfacesBy_returns {J : σ → Prop} {C : Surface → Prop}
    (hdraw : ∀ d s, J d → ((drawLockedBy line c d s (s.lockBuffer shm).1).Returns ↔ C s))
    (keep : ∀ d s d', J d →
      (drawLockedBy line c d s (s.lockBuffer shm).1).result = .ok d' → J d')
    (ss : List Surface) (hJ : J display) :
    (repaintSurfacesBy line shm c display (ss.map some)).Returns ↔ ∀ s ∈ ss, C s := by
  induction ss generalizing display with
  | nil => simp [repaintSurfacesBy]
  | cons s ss ih =>
    have hstep : (repaintSurfacesBy line shm c display (some s :: ss.map some)).Returns ↔
        ∃ d, (drawLockedBy line c display s (s.lockBuffer shm).1).result = .ok d ∧
          (repaintSurfacesBy line shm c d (ss.map some)).Returns := by
      refine (returns_bind (x := repaintSurfaceBy line shm c display s)).trans ?_
      rw [repaintSurfaceBy_result]
      cases (drawLockedBy line c display s (s.lockBuffer shm).1).result with
      | error e => simp [Except.map]
      | ok d =>
        simp only [Except.map, Except.ok.injEq, exists_eq_left']
        exact returns_bind_total fun _ => returns_ok _ _
    rw [List.map_cons, hstep, List.forall_mem_cons, ← hdraw display s hJ]
    constructor
    · rintro ⟨d, hd, hrest⟩
      exact ⟨⟨d, hd⟩, (ih (keep display s d hJ hd)).mp hrest⟩
    · rintro ⟨⟨d, hd⟩, hrest⟩
      exact ⟨d, hd, (ih (keep display s d hJ hd)).mpr hrest⟩

/-- **One surface** whose lines come to an end is drawn exactly if its buffer is near. -/
theorem drawLockedBy_near (hc : c.Sized)
    (hline : ∀ b d dst src size, Faults (fun _ => False) (line b d dst src size))
    (hshm : ∀ r b, shm r = some b → b.Packed ∧ b.data.length < 2 ^ 31) (s : Surface) :
    (drawLockedBy line c display s (s.lockBuffer shm).1).Returns ↔
      ShownNear shm c.mDisplayWidth c.mDisplayHeight s := by
  unfold ShownNear
  cases hlock : (s.lockBuffer shm).1 with
  | none => simp [drawLockedBy]
  | some b =>
    obtain ⟨r, hr, -⟩ := Surface.lockBuffer_shm hlock
    obtain ⟨hpacked, hbytes⟩ := hshm r b hr
    have hw' := row_small hc.width hc.height hc.small
    simp only [Option.some.injEq, forall_eq']
    rw [drawLockedBy_returns, ← near_iff hc.width hw' hpacked hbytes,
      copy_overflow_iff hc.width hw' hpacked.width (hpacked.pixels hbytes).1 (hline b)]

/-- A surface whose lines come to an end can only overflow. -/
theorem faults_drawLockedBy (hw : 0 < c.mDisplayWidth)
    (hline : ∀ b d dst src size, Faults (fun _ => False) (line b d dst src size)) (d : σ)
    (s : Surface) (o : Option ShmBuffer) :
    Faults (· = .signedOverflow) (drawLockedBy line c d s o) := by
  cases o with
  | none => exact faults_pure _
  | some b =>
    exact (faults_checked _).bind fun _ _ => (faults_checked _).bind fun _ _ =>
      faults_copyBy_total hw (hline b)

theorem faults_repaintSurfacesBy {E : Fault → Prop}
    (hdraw : ∀ d s o, Faults E (drawLockedBy line c d s o)) (ps : List (Option Surface)) :
    Faults E (repaintSurfacesBy line shm c display ps) := by
  induction ps generalizing display with
  | nil => exact faults_pure _
  | cons p ps ih =>
    cases p with
    | none => exact ih.bind fun _ _ => faults_pure _
    | some s =>
      refine Faults.bind (fun e he => ?_) fun _ _ => ih.bind fun _ _ => faults_pure _
      rw [repaintSurfaceBy_result] at he
      cases hd : (drawLockedBy line c display s (s.lockBuffer shm).1).result with
      | error e' =>
        rw [hd] at he
        cases he
        exact hdraw _ _ _ _ hd
      | ok d =>
        rw [hd] at he
        cases he

end Draws

/-! ## The layout and the clearing -/

/-- The layout faults at a null entry only. -/
theorem faults_relayoutSurfaces (c : Compositor) :
    Faults (· = .nullDereference) c.relayoutSurfaces := by
  have hderef : ∀ p : Option Surface, Faults (· = Fault.nullDereference) (deref p) := by
    intro p
    refine faults_ofOption ?_ p
    rfl
  have hcount : ∀ n ps, Faults (· = .nullDereference) (countShellSurfaces n ps) := by
    intro n ps
    induction ps generalizing n with
    | nil => exact faults_pure _
    | cons p ps ih => exact (hderef p).bind fun _ _ => ih _
  have hplace : ∀ height y ps, Faults (· = .nullDereference) (placeShellSurfaces height y ps) := by
    intro height y ps
    induction ps generalizing y with
    | nil => exact faults_pure _
    | cons p ps ih => exact (hderef p).bind fun _ _ => (ih _).bind fun _ _ => faults_pure _
  refine (hcount _ _).bind fun n _ => ?_
  split
  · exact faults_pure _
  · exact (faults_pure _).bind fun _ _ => (hplace _ _ _).bind fun _ _ => faults_pure _

/-- A display is cleared. -/
theorem clearDisplay_returns {c : Compositor} (hc : c.Sized) :
    c.clearDisplay.result =
      .ok { c with mDisplayBuffer := List.replicate c.mDisplayBuffer.length 0 } := by
  have hsmall := hc.small
  have hbuffer := hc.buffer
  have hpixels : 0 ≤ c.mDisplayWidth * c.mDisplayHeight :=
    Int.mul_nonneg (Int.le_of_lt hc.width) (Int.le_of_lt hc.height)
  rw [Int.mul_assoc] at hsmall hbuffer
  have hret : ∃ c', c.clearDisplay.result = .ok c' := by
    refine Faults.returns ((checked_fits ?_).bind fun pixels hp => ?_)
    · unfold FitsInt32
      omega
    obtain ⟨rfl, -⟩ := checked_result.mp hp
    refine (checked_fits ?_).bind fun size hs => ?_
    · unfold FitsInt32 bytesPerPixel
      omega
    obtain ⟨rfl, -⟩ := checked_result.mp hs
    refine (faults_guard ?_).bind fun _ _ => faults_pure _
    unfold bytesPerPixel
    omega
  obtain ⟨c', hc'⟩ := hret
  rw [hc', clearDisplay_ok hc hc']

section Repaints

variable {line : ShmBuffer → Line (Memory UInt8)} {shm : ShmTable} {c : Compositor}

/-- **A repaint** of a list with no null entry returns exactly if each surface's buffer, where the
layout puts the surface, is drawn to its end. -/
theorem repaintBy_returns {P : Int → Int → Surface → Prop} (hc : c.Sized) {ss : List Surface}
    (hlist : c.mSurfacesList = ss.map some)
    (hline : ∀ b d dst src size d',
      (line b d dst src size).result = .ok d' → d'.length = d.length)
    (hdraw : ∀ c : Compositor, c.Sized → ∀ d s, d.length = c.mDisplayBuffer.length →
      ((drawLockedBy line c d s (s.lockBuffer shm).1).Returns ↔
        P c.mDisplayWidth c.mDisplayHeight s)) :
    (c.repaintBy line shm).Returns ↔
      ∀ s ∈ relaid c.mDisplayHeight ss, P c.mDisplayWidth c.mDisplayHeight s := by
  have hlaid := congrArg Exec.result (relayoutSurfaces_eq hlist)
  have hsized := hc.setSurfaces ((relaid c.mDisplayHeight ss).map some)
  refine (returns_of_result (result_bind_of_ok hlaid)).trans ?_
  refine (returns_of_result (result_bind_of_ok (clearDisplay_returns hsized))).trans ?_
  refine (returns_bind_total fun _ => returns_ok _ _).trans ?_
  have hone := hdraw _ hsized.cleared
  refine repaintSurfacesBy_returns (C := P c.mDisplayWidth c.mDisplayHeight) hone ?_ _ rfl
  intro d s d' hd hres
  refine drawLockedBy_keeps (J := fun d => d.length = _) (fun b d dst src size d' hd hl => ?_) hd
    hres
  exact (hline b d dst src size d' hl).trans hd

/-- **A repaint whose lines come to an end** overflows nowhere exactly if the buffers that the
surfaces show, in the list as it is laid out, are near the display. -/
theorem repaintBy_overflow (hc : c.Sized)
    (hline : ∀ b d dst src size, Faults (fun _ => False) (line b d dst src size))
    (hlength : ∀ b d dst src size d',
      (line b d dst src size).result = .ok d' → d'.length = d.length)
    (hshm : ∀ r b, shm r = some b → b.Packed ∧ b.data.length < 2 ^ 31) :
    (c.repaintBy line shm).result ≠ .error .signedOverflow ↔
      ∀ ss : List Surface, c.mSurfacesList = ss.map some →
        ∀ s ∈ relaid c.mDisplayHeight ss, ShownNear shm c.mDisplayWidth c.mDisplayHeight s := by
  cases hlaid : c.relayoutSurfaces.result with
  | error e =>
    obtain rfl := faults_relayoutSurfaces c e hlaid
    constructor
    · intro _ ss hlist
      rw [relayoutSurfaces_eq hlist] at hlaid
      cases hlaid
    · intro _ h
      cases (result_bind_error hlaid).symm.trans h
  | ok laid =>
    obtain ⟨ss, hlist, rfl⟩ := relayoutSurfaces_ok hlaid
    have hsized := hc.setSurfaces ((relaid c.mDisplayHeight ss).map some)
    have hfaults : Faults (· = .signedOverflow) (c.repaintBy line shm) := by
      refine Faults.bind (fun e he => by cases hlaid.symm.trans he) fun laid' hlaid' => ?_
      cases hlaid.symm.trans hlaid'
      have hcleared := clearDisplay_returns hsized
      refine Faults.bind (fun e he => by cases hcleared.symm.trans he) fun cleared hcleared' => ?_
      cases hcleared.symm.trans hcleared'
      refine Faults.bind ?_ fun _ _ e he => by cases he
      exact faults_repaintSurfacesBy (faults_drawLockedBy hsized.cleared.width hline) _
    have hreturns : (c.repaintBy line shm).result ≠ .error .signedOverflow ↔
        (c.repaintBy line shm).Returns := by
      constructor
      · intro hover
        cases hres : (c.repaintBy line shm).result with
        | error e => exact absurd (hfaults e hres ▸ hres) hover
        | ok c' => exact ⟨c', hres⟩
      · rintro ⟨c', hc'⟩ hover
        cases hc'.symm.trans hover
    rw [hreturns, repaintBy_returns (P := ShownNear shm) hc hlist hlength
      fun c hc d s _ => drawLockedBy_near hc hline hshm s]
    constructor
    · intro h ss' hlist'
      obtain rfl := map_some_inj (hlist.symm.trans hlist')
      exact h
    · exact fun h => h ss hlist

end Repaints

end Compositor

namespace Server

/-! ## Runs -/

variable {s t : Server} {cs ds : List Call} {blend : Blend} {r : WlResource}
  {b : Option ShmBuffer}

/-- One action of a server whose repaints leave out the lines that lead outside. -/
def lenient (blend : Blend) (s : Server) : LifetimeAction → Exec Call Fault Server
  | .serve .repaint => if s.running then s.repaintBy (lenientLine blend) else pure s
  | a => s.lifetime blend a

/-- As `lifetimeMachine`, where repaints leave out the lines that lead outside. -/
def lenientMachine (blend : Blend) (width height : Int) :
    Machine Call Fault Server LifetimeAction where
  init := Server.start width height
  step := Server.lenient blend

/-- If the action is a repaint, none of the values it computes overflows, wherever its lines
lead. -/
def NoOverflow (blend : Blend) (s : Server) : LifetimeAction → Prop
  | .serve .repaint =>
    s.running = true → (s.repaintBy (lenientLine blend)).result ≠ .error .signedOverflow
  | _ => True

/-- If the action is a repaint, the buffer of each surface, where the layout puts the surface, is
near the display. -/
def RepaintsNear (s : Server) : LifetimeAction → Prop
  | .serve .repaint =>
    s.running = true → ∀ ss : List Surface, s.mCompositor.mSurfacesList = ss.map some →
      ∀ z ∈ Compositor.relaid s.mCompositor.mDisplayHeight ss,
        Compositor.ShownNear s.shm s.mCompositor.mDisplayWidth s.mCompositor.mDisplayHeight z
  | _ => True

/-- **The server's actions are the lenient ones** as far as lines stay inside. -/
theorem follows_lenient (blend : Blend) (s : Server) (a : LifetimeAction) :
    Follows (· ≠ .signedOverflow) (s.lifetime blend a) (s.lenient blend a) := by
  cases a with
  | serve act =>
    cases act with
    | repaint =>
      unfold Server.lifetime lenient
      split
      · exact (Compositor.follows_repaint blend s.shm s.mCompositor).bind fun _ => .refl _
      · exact .refl _
    | _ => exact .refl _
  | _ => exact .refl _

/-- What a run of the server reaches, the lenient run reaches. -/
theorem lenient_of_reaches {width height : Int} {as : List LifetimeAction}
    (h : (lifetimeMachine blend width height).Reaches as cs s) :
    (lenientMachine blend width height).Reaches as cs s :=
  h.of_step rfl fun s a _ _ hs => (follows_lenient blend s a).eq_ok hs

/-- An overflow of the server's repaint is one of the lenient repaint. -/
theorem lenient_overflows (h : (s.repaint blend).result = .error .signedOverflow) :
    (s.repaintBy (lenientLine blend)).result = .error .signedOverflow :=
  ((Compositor.follows_repaint blend s.shm s.mCompositor).bind fun _ => .refl _).error
    (fun hne => hne rfl) h

theorem length_lenientLine {b : ShmBuffer} {d d' : Memory UInt8} {dst src : Int} {size : UInt32}
    (h : (lenientLine blend b d dst src size).result = .ok d') : d'.length = d.length := by
  unfold lenientLine at h
  split at h
  · next hres =>
    cases h
    exact length_blitLine hres
  · cases h
    rfl

/-- **One lenient action** is one of the server's, or a repaint that changes the compositor
alone. -/
theorem lenient_cases {a : LifetimeAction} (hstep : s.lenient blend a = ⟨ds, .ok t⟩) :
    s.lifetime blend a = ⟨ds, .ok t⟩ ∨
      ∃ c, c.extent = s.mCompositor.extent ∧ t = { s with mCompositor := c } := by
  unfold lenient at hstep
  split at hstep
  · split at hstep
    · obtain ⟨_, c, _, hrepaint, hret, -⟩ := Exec.bind_eq_ok.mp hstep
      cases hret
      exact .inr ⟨c, Compositor.extent_repaintBy
        (fun _ _ _ _ _ _ hline => length_lenientLine hline) (congrArg Exec.result hrepaint), rfl⟩
    · cases hstep
      exact .inr ⟨_, rfl, rfl⟩
  · exact .inl hstep

/-- The buffer behind a handle is in its entry. -/
theorem data_of_shm {b : ShmBuffer} (h : s.shm r = some b) :
    s.data r = some (.buffer (some b)) := by
  obtain ⟨x, hx, hb⟩ := Option.bind_eq_some_iff.mp h
  unfold data
  rw [hx, Option.map_some]
  split at hb
  · next hu => rw [hu, hb]
  · cases hb

/-- A new entry that is no buffer's brings none. -/
theorem buffer_of_addResource {x : Resource} (hx : x.userData.isBuffer = false)
    (h : (s.addResource x).data r = some (.buffer b)) : s.data r = some (.buffer b) := by
  rw [data_addResource] at h
  split at h
  · rw [Option.some.inj h] at hx
    cases hx
  · exact h

/-- **Where buffers come from**: an action brings one only if a client makes it. -/
theorem buffer_of_serve {act : ServeAction} (hstep : s.serve blend act = ⟨ds, .ok t⟩)
    (h : t.data r = some (.buffer b)) :
    s.data r = some (.buffer b) ∨ ∃ c, act = .request (.createBuffer c b) := by
  cases act with
  | connect =>
    cases hstep
    exact .inl h
  | repaint =>
    obtain ⟨_, c, _, -, hret, -⟩ := Exec.bind_eq_ok.mp hstep
    cases hret
    exact .inl h
  | move x y =>
    have hdata : t.data r = s.data r :=
      move_induct (I := fun u => u.data r = s.data r) (fun _ _ _ _ hu => hu) rfl hstep
    exact .inl (hdata ▸ h)
  | request q =>
    have hq : Handled s q ⟨ds, .ok t⟩ := .eq hstep
    cases hq with
    | ignored => exact .inl h
    | bound g hc => exact .inl (buffer_of_addResource rfl h)
    | surfaceCreated hr => exact .inl (buffer_of_addResource rfl h)
    | regionCreated hr => exact .inl (buffer_of_addResource rfl h)
    | pointerCreated hr => exact .inl (buffer_of_addResource rfl h)
    | shellSurfaceSet c hx =>
      rw [data_disarm] at h
      exact .inl (buffer_of_addResource rfl h)
    | cursorSet hps => exact .inl h
    | attached x y hz hb => exact .inl h
    | framed c hz => exact .inl (buffer_of_addResource rfl h)
    | committed hr hx => exact .inl h
    | @bufferCreated c b' hc =>
      rw [data_addResource] at h
      split at h
      · cases h
        exact .inr ⟨c, rfl⟩
      · exact .inl h
    | bufferDestroyed hr =>
      rw [data_bury] at h
      exact .inl h

theorem buffer_of_lifetime {a : LifetimeAction}
    (hstep : s.lifetime blend a = ⟨ds, .ok t⟩) (h : t.data r = some (.buffer b)) :
    s.data r = some (.buffer b) ∨ ∃ c, a = .serve (.request (.createBuffer c b)) := by
  unfold Server.lifetime at hstep
  split at hstep
  · cases a with
    | serve act =>
      refine (buffer_of_serve hstep h).imp id ?_
      rintro ⟨c, rfl⟩
      exact ⟨c, rfl⟩
    | destroyResource r' =>
      rcases destroyResource_ok hstep with ⟨-, -, rfl⟩ | ⟨ps, ws, rfl, -, -, -⟩
      · exact .inl h
      · rw [data_bury, data_disarm] at h
        exact .inl h
    | forget c =>
      cases hstep
      unfold forget at h
      split at h
      · exact .inl h
      · exact .inl h
    | teardown =>
      obtain ⟨_, hret, -⟩ := Exec.log_bind_eq_ok.mp hstep
      cases hret
      exact .inl (data_disarm.symm.trans h)
  · cases hstep
    exact .inl h

/-- In a run, every buffer behind a handle was made by a client. -/
theorem buffer_of_lenient {width height : Int} {as : List LifetimeAction}
    (h : (lenientMachine blend width height).Reaches as cs s) {b : ShmBuffer}
    (hr : s.shm r = some b) : ∃ c, .serve (.request (.createBuffer c (some b))) ∈ as := by
  refine h.induct (P := fun as _ s => s.data r = some (.buffer (some b)) →
    ∃ c, .serve (.request (.createBuffer c (some b))) ∈ as) ?_ ?_ (data_of_shm hr)
  · intro hdata
    cases hdata
  · intro as cs s a ds t _ ih hstep hdata
    have hfrom : s.data r = some (.buffer (some b)) ∨
        ∃ c, a = .serve (.request (.createBuffer c (some b))) := by
      rcases lenient_cases hstep with hstep | ⟨c, -, rfl⟩
      · exact buffer_of_lifetime hstep hdata
      · exact .inl hdata
    rcases hfrom with hold | ⟨c, rfl⟩
    · obtain ⟨c, hc⟩ := ih hold
      exact ⟨c, List.mem_append_left _ hc⟩
    · exact ⟨c, List.mem_append_right _ List.mem_cons_self⟩

theorem buffer_of_reaches {width height : Int} {as : List LifetimeAction}
    (h : (lifetimeMachine blend width height).Reaches as cs s) {b : ShmBuffer}
    (hr : s.shm r = some b) : ∃ c, .serve (.request (.createBuffer c (some b))) ∈ as :=
  buffer_of_lenient (lenient_of_reaches h) hr

/-- A served action leaves the display its extent. -/
theorem extent_serve {act : ServeAction} (hstep : s.serve blend act = ⟨ds, .ok t⟩) :
    t.mCompositor.extent = s.mCompositor.extent := by
  cases act with
  | connect =>
    cases hstep
    rfl
  | repaint =>
    obtain ⟨_, c, _, hrepaint, hret, -⟩ := Exec.bind_eq_ok.mp hstep
    cases hret
    exact Compositor.extent_repaint hrepaint
  | move x y =>
    exact move_induct (I := fun u => u.mCompositor.extent = s.mCompositor.extent)
      (fun _ _ _ _ hu => hu) rfl hstep
  | request q =>
    have hq : Handled s q ⟨ds, .ok t⟩ := .eq hstep
    cases hq with
    | ignored => rfl
    | bound g hc => rfl
    | surfaceCreated hr => rfl
    | regionCreated hr => rfl
    | pointerCreated hr => rfl
    | shellSurfaceSet c hx => rfl
    | cursorSet hps => rfl
    | attached x y hz hb => rfl
    | framed c hz => rfl
    | committed hr hx => rfl
    | bufferCreated b hc => rfl
    | bufferDestroyed hr => rfl

theorem extent_lifetime {a : LifetimeAction}
    (hstep : s.lifetime blend a = ⟨ds, .ok t⟩) : t.mCompositor.extent = s.mCompositor.extent := by
  unfold Server.lifetime at hstep
  split at hstep
  · cases a with
    | serve act => exact extent_serve hstep
    | destroyResource r =>
      rcases destroyResource_ok hstep with ⟨-, -, rfl⟩ | ⟨ps, ws, rfl, -, -, -⟩
      · rfl
      · rfl
    | forget c =>
      cases hstep
      unfold forget
      split <;> rfl
    | teardown =>
      obtain ⟨_, hret, -⟩ := Exec.log_bind_eq_ok.mp hstep
      cases hret
      rfl
  · cases hstep
    rfl

/-- In every run, the display keeps its size. -/
theorem sized_of_lenient {width height : Int} (hw : 0 < width) (hh : 0 < height)
    (small : 4 * width * height < 2 ^ 31) {as : List LifetimeAction}
    (h : (lenientMachine blend width height).Reaches as cs s) : s.mCompositor.Sized := by
  refine h.induct (P := fun _ _ s => s.mCompositor.Sized) ?_ ?_
  · have hpixels : 0 ≤ width * height := Int.mul_nonneg (Int.le_of_lt hw) (Int.le_of_lt hh)
    refine ⟨hw, hh, small, ?_⟩
    show ((List.replicate (width * height * bytesPerPixel).toNat (0 : UInt8)).length : Int) =
      4 * width * height
    rw [List.length_replicate, Int.mul_assoc 4]
    unfold bytesPerPixel
    omega
  · intro as cs s a ds t _ ih hstep
    rcases lenient_cases hstep with hstep | ⟨c, hc, rfl⟩
    · exact ih.of_extent (extent_lifetime hstep)
    · exact ih.of_extent hc

theorem sized_of_reaches {width height : Int} (hw : 0 < width) (hh : 0 < height)
    (small : 4 * width * height < 2 ^ 31) {as : List LifetimeAction}
    (h : (lifetimeMachine blend width height).Reaches as cs s) : s.mCompositor.Sized :=
  sized_of_lenient hw hh small (lenient_of_reaches h)

end Server

open Server

/-- **When repaints overflow.** Clients connect and disconnect, make packed buffers of less than
2^31 bytes and attach them at any offsets: no repaint of the run computes a value outside `int32_t`,
wherever its lines lead, if and only if at every repaint the buffers that the surfaces of the list
show are near the display. -/
theorem repaints_overflow_iff (blend : Blend) (width height : Int) (hw : 0 < width)
    (hh : 0 < height) (small : 4 * width * height < 2 ^ 31) (as : List LifetimeAction)
    (hpacked : ∀ c b, .serve (.request (.createBuffer c (some b))) ∈ as →
      b.Packed ∧ b.data.length < 2 ^ 31) :
    (lenientMachine blend width height).Along (NoOverflow blend) as ↔
      (lenientMachine blend width height).Along RepaintsNear as := by
  refine Machine.along_congr fun bs a hbs cs s hreach => ?_
  have hmade : ∀ c b, .serve (.request (.createBuffer c (some b))) ∈ bs →
      b.Packed ∧ b.data.length < 2 ^ 31 := fun c b hb =>
    hpacked c b (hbs.subset (List.mem_append_left _ hb))
  have hshm : ∀ r b, s.shm r = some b → b.Packed ∧ b.data.length < 2 ^ 31 := by
    intro r b hr
    obtain ⟨c, hc⟩ := buffer_of_lenient hreach hr
    exact hmade c b hc
  have hsized := sized_of_lenient hw hh small hreach
  cases a with
  | serve act =>
    cases act with
    | repaint =>
      have hone := Compositor.repaintBy_overflow hsized (faults_lenientLine blend)
        (fun _ _ _ _ _ _ hline => length_lenientLine hline) hshm
      exact imp_congr Iff.rfl ((not_congr (result_bind_returns fun _ => ⟨_, rfl⟩)).trans hone)
    | _ => exact Iff.rfl
  | _ => exact Iff.rfl

/-- A client shows a buffer of one pixel, and attaches another one far to the left. -/
def attachedFar : List LifetimeAction :=
  [.serve .connect, .serve (.request (.bind 0 .compositor)),
    .serve (.request (.createBuffer 0 (some ⟨1, 1, 4, .argb8888, [1, 2, 3, 4]⟩))),
    .serve (.request (.createSurface 0)), .serve (.request (.surfaceAttach 2 (some 1) 0 0)),
    .serve (.request (.surfaceCommit 2)),
    .serve (.request (.surfaceAttach 2 (some 1) (-2147483648) 0))]

theorem packed_attachedFar :
    ∀ c b, .serve (.request (.createBuffer c (some b))) ∈ attachedFar ++ [.serve .repaint] →
      b.Packed ∧ b.data.length < 2 ^ 31 := by
  intro c b h
  obtain ⟨-, rfl⟩ : c = 0 ∧ b = ⟨1, 1, 4, .argb8888, [1, 2, 3, 4]⟩ := by
    simpa [attachedFar] using h
  decide

theorem repaints_overflow_iff_attachedFar :
    (lenientMachine integerBlend 1 1).Along (NoOverflow integerBlend)
        (attachedFar ++ [.serve .repaint]) ↔
      (lenientMachine integerBlend 1 1).Along RepaintsNear (attachedFar ++ [.serve .repaint]) :=
  repaints_overflow_iff integerBlend 1 1 (by decide) (by decide) (by decide) _ packed_attachedFar

/-- The repaint after it computes the distance from that offset to the right edge. -/
theorem repaint_overflows :
    ¬ ∀ blend width height, 0 < width → 0 < height → 4 * width * height < 2 ^ 31 →
      ∀ as, (∀ c b, .serve (.request (.createBuffer c (some b))) ∈ as →
        b.Packed ∧ b.data.length < 2 ^ 31) →
      (lenientMachine blend width height).Along (NoOverflow blend) as := by
  intro h
  exact h integerBlend 1 1 (by decide) (by decide) (by decide) _ packed_attachedFar attachedFar
    (.serve .repaint) List.prefix_rfl _ _ rfl rfl rfl

end WaylandTest
