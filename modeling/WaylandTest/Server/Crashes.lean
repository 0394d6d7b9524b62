import WaylandTest.Lib.Returns
import WaylandTest.Server.Cursors
import WaylandTest.Server.LiveHandles
import WaylandTest.Server.RepaintOverflow

/-!
# When the server runs into undefined behaviour

The model has two kinds of undefined behaviour. The faults of `Fault` end a run. A call on a handle
that is not live is recorded and the run goes on (`Server.lean`), so of these the calls tell.
`Harmless` is what each action asks of the state it finds so that it comes to neither;
`server_runs_iff` says that a run does not exactly if all its actions find it: a request on a
surface finds the surface, a cursor is set to a surface and not to null, a layout and a sweep find
no null entry, each locked buffer is near the display and is drawn inside it, a motion finds each
cursor, and the handles are live of the buffers that are locked or released, of the callbacks that
are answered and of the wrappers that are deleted.

What no action has to ask for are the wrappers behind hooks, which exist (`Owned`), and the pointers
behind their handles, which stay until the server is torn down (`Stays`).
-/

set_option autoImplicit false

namespace WaylandTest

open Lib Exec

namespace Compositor

/-! ## Repaints -/

/-- A repaint that comes to the surface gets over it: its buffer, if there is one to draw, is near
the display and is drawn inside it. -/
def Drawable (shm : ShmTable) (displayWidth displayHeight : Int) (s : Surface) : Prop :=
  ∀ b, (s.lockBuffer shm).1 = some b →
    Near displayWidth displayHeight b s.y s.x ∧ Inside displayWidth displayHeight b s.y s.x

section Draws

variable {blend : Blend} {shm : ShmTable} {c : Compositor} {display : Memory UInt8}

theorem drawLocked_returns (hc : c.Sized) (hsize : display.length = c.mDisplayBuffer.length)
    (hshm : ∀ r b, shm r = some b → b.Packed ∧ b.data.length < 2 ^ 31) (s : Surface) :
    (drawLocked blend c display s (s.lockBuffer shm).1).Returns ↔
      Drawable shm c.mDisplayWidth c.mDisplayHeight s := by
  unfold Drawable
  cases hlock : (s.lockBuffer shm).1 with
  | none => simp [drawLocked, drawLockedBy]
  | some b =>
    obtain ⟨r, hr, -⟩ := Surface.lockBuffer_shm hlock
    obtain ⟨hpacked, hbytes⟩ := hshm r b hr
    have hw' := row_small hc.width hc.height hc.small
    have hpixels : (display.length : Int) = 4 * c.mDisplayWidth * c.mDisplayHeight := by
      rw [hsize, hc.buffer]
    have hdata := hpacked.bytes_le
    simp only [Option.some.injEq, forall_eq']
    refine drawLockedBy_returns.trans ?_
    rw [← near_iff hc.width hw' hpacked hbytes]
    constructor
    · rintro ⟨hy, hx, d, hd⟩
      obtain ⟨hfits, hrows⟩ := fits_of_copyBy hd
      have hlen := display_length hc.small hpixels
      exact ⟨⟨hy, hx, hfits, hrows⟩, inside_of_copy hpacked hc.width hlen hd⟩
    · rintro ⟨⟨hy, hx, hfits, hrows⟩, hin⟩
      exact ⟨hy, hx, Faults.returns (hin.fits hdata hc.width hw' hpacked.width
        (hpacked.pixels hbytes).1 hpixels hfits hrows)⟩

/-- **A repaint** returns exactly if the list has no null entry and each surface, where the layout
puts it, is one the loop gets over. -/
theorem repaint_returns (hc : c.Sized)
    (hshm : ∀ r b, shm r = some b → b.Packed ∧ b.data.length < 2 ^ 31) :
    (c.repaint blend shm).Returns ↔
      none ∉ c.mSurfacesList ∧ ∀ s ∈ relaid c.mDisplayHeight (contents c.mSurfacesList),
        Drawable shm c.mDisplayWidth c.mDisplayHeight s := by
  by_cases hnull : none ∈ c.mSurfacesList
  · refine ⟨fun h => ?_, fun h => absurd hnull h.1⟩
    obtain ⟨laid, hlaid, -⟩ := returns_bind.mp h
    obtain ⟨ss, hlist, -⟩ := relayoutSurfaces_ok hlaid
    rw [hlist] at hnull
    simp at hnull
  · rw [and_iff_right hnull]
    exact repaintBy_returns (P := Drawable shm) hc (map_some_contents hnull).symm
      (fun _ _ _ _ _ _ hline => length_blitLine hline)
      fun c hc d s hd => drawLocked_returns hc hd hshm s

end Draws

end Compositor

namespace Server

variable {s t : Server} {cs ds : List Call} {blend : Blend} {r : WlResource} {a : Address}

/-! ## Wrappers that stay -/

/-- Handles of wrappers of the class stand for wrappers that exist. -/
def Stays (s : Server) (kind : WrapperClass) : Prop :=
  ∀ r a, s.wraps r = some ⟨kind, a⟩ → (⟨kind, a⟩, r) ∈ s.wrappers

section Stays

variable {kind : WrapperClass} {gone : List (Wrapper × WlResource)}
  {born : Option (WrapperClass × WlClient)}

/-- A class of which nothing is deleted. -/
theorem Stays.moved (h : s.Stays kind) (hm : Moved s t ds gone born)
    (hgone : ∀ p ∈ gone, p.1.kind ≠ kind) : t.Stays kind := by
  intro r a hr
  rw [hm.wraps] at hr
  have hall : (⟨kind, a⟩, r) ∈ s.newborn born ++ s.wrappers := by
    rcases wraps_bear hr with hnew | hold
    · exact List.mem_append_left _ hnew
    · exact List.mem_append_right _ (h r a hold)
  rcases List.mem_append.mp (hm.wrappers.mem_iff.mp hall) with hdel | hstay
  · exact absurd rfl (hgone _ hdel)
  · exact hstay

theorem Stays.bury (h : s.Stays kind) (r : WlResource) : (s.bury r).Stays kind := by
  intro r' a hr'
  rw [wraps_bury] at hr'
  exact h r' a hr'

/-- A served action deletes shell surfaces only. -/
theorem Stays.serve (h : s.Stays kind) (ho : Owned cs s) (hkind : kind ≠ .shellSurface)
    {act : ServeAction} (hstep : s.serve blend act = ⟨ds, .ok t⟩) : t.Stays kind := by
  rcases serve_cases ho.nodup hstep with ⟨gone, born, hm, hgone⟩ | ⟨r, -, -, rfl, -⟩
  · exact h.moved hm fun p hp heq => hkind (heq.symm.trans (hgone p hp))
  · exact h.bury r

/-- A surface and what it owns are of two classes. -/
theorem kind_surface_wrappers {x : Surface} {p : Wrapper × WlResource} (hp : p ∈ x.wrappers) :
    p.1.kind = .surface ∨ p.1.kind = .shellSurface := by
  rcases List.mem_append.mp hp with hp | hp
  · obtain ⟨q, -, rfl⟩ := List.mem_map.mp hp
    exact .inr rfl
  · rw [List.mem_singleton.mp hp]
    exact .inl rfl

/-- Wrappers of other classes do not depend on the surfaces. -/
theorem mem_wrappers_setSurfaces {ps : List (Option Surface)} {p : Wrapper × WlResource}
    (hsurface : p.1.kind ≠ .surface) (hshell : p.1.kind ≠ .shellSurface) (hp : p ∈ s.wrappers) :
    p ∈ (s.setSurfaces ps).wrappers := by
  unfold wrappers at hp ⊢
  simp only [List.append_assoc, List.mem_append] at hp ⊢
  refine .inr (hp.resolve_left fun hmem => ?_)
  obtain ⟨x, -, hx⟩ := List.mem_flatMap.mp hmem
  rcases kind_surface_wrappers hx with h | h
  · exact hsurface h
  · exact hshell h

theorem pointer_of_wrapper (h : (⟨.pointer, a⟩, r) ∈ s.wrappers) :
    a ∈ s.mPointerList.map (·.this) := by
  unfold wrappers at h
  rcases List.mem_append.mp h with h | h
  · rcases List.mem_append.mp h with h | h
    · obtain ⟨x, -, hx⟩ := List.mem_flatMap.mp h
      rcases kind_surface_wrappers hx with hk | hk
      · cases hk
      · cases hk
    · obtain ⟨q, -, hq⟩ := List.mem_map.mp h
      cases hq
  · obtain ⟨q, hq, heq⟩ := List.mem_map.mp h
    cases heq
    exact List.mem_map_of_mem hq

/-- Regions and pointers are deleted at the end of the server only. -/
theorem Stays.lifetime (h : s.Stays kind) (ho : Owned cs s) (hsurface : kind ≠ .surface)
    (hshell : kind ≠ .shellSurface) {act : LifetimeAction}
    (hstep : s.lifetime blend act = ⟨ds, .ok t⟩) (hrun : t.running = true) : t.Stays kind := by
  unfold Server.lifetime at hstep
  split at hstep
  · cases act with
    | serve act => exact h.serve ho hshell hstep
    | destroyResource r =>
      rcases destroyResource_ok hstep with ⟨-, -, rfl⟩ | ⟨ps, ws, rfl, -, -, -⟩
      · exact h
      · intro r' a hr'
        rw [wraps_bury, wraps_disarm] at hr'
        exact mem_wrappers_setSurfaces hsurface hshell (h r' a hr')
    | forget c =>
      cases hstep
      unfold forget
      split
      · exact h
      · exact h
    | teardown =>
      obtain ⟨_, hret, -⟩ := Exec.log_bind_eq_ok.mp hstep
      cases hret
      cases hrun
  · cases hstep
    exact h

/-- A server that was torn down goes on being so. -/
theorem running_lifetime {act : LifetimeAction}
    (hstep : s.lifetime blend act = ⟨ds, .ok t⟩) (hrun : t.running = true) : s.running = true := by
  by_contra hstopped
  unfold Server.lifetime at hstep
  rw [if_neg hstopped] at hstep
  cases hstep
  exact hstopped hrun

/-- While the server runs, regions and pointers stay. -/
theorem reaches_stays {width height : Int} {as : List LifetimeAction}
    (hsurface : kind ≠ .surface) (hshell : kind ≠ .shellSurface)
    (h : (lifetimeMachine blend width height).Reaches as cs s) (hrun : s.running = true) :
    s.Stays kind := by
  refine h.induct (P := fun _ _ s => s.running = true → s.Stays kind) ?_ ?_ hrun
  · intro _ r a hr
    cases hr
  · intro as cs s act ds t hs ih hstep hrun
    have ho := reaches_owned hs
    exact (ih (running_lifetime hstep hrun)).lifetime ho hsurface hshell hstep hrun

end Stays

/-! ## Motions -/

/-- A motion to the coordinates finds the pointer's cursor, and the cursor's position fits. -/
def Movable (x y : Int) (s : Server) (p : Pointer) : Prop :=
  ∃ a ∈ s.surfaces.map (·.this), p.mSurface = some a ∧ FitsInt32 (x - p.mHotspotX) ∧
    FitsInt32 (y - p.mHotspotY)

theorem exists_surface?_iff : (∃ z, s.surface? a = some z) ↔ a ∈ s.surfaces.map (·.this) := by
  rw [List.mem_map]
  constructor
  · rintro ⟨z, hz⟩
    exact ⟨z, List.mem_of_find?_eq_some hz, surface?_this hz⟩
  · rintro ⟨z, hz, hthis⟩
    exact exists_surface? hz hthis

theorem movePointer_returns (s : Server) (p : Pointer) (x y : Int) :
    (s.movePointer p x y).Returns ↔ s.Movable x y p := by
  unfold movePointer Movable
  simp only [returns_ofOption_bind, ← exists_surface?_iff]
  constructor
  · rintro ⟨a, ha, z, hz, hrest⟩
    obtain ⟨x', hx, hrest⟩ := returns_bind.mp hrest
    obtain ⟨y', hy, -⟩ := returns_bind.mp hrest
    exact ⟨a, ⟨z, hz⟩, ha, (checked_result.mp hx).2, (checked_result.mp hy).2⟩
  · rintro ⟨a, ⟨z, hz⟩, ha, hx, hy⟩
    refine ⟨a, ha, z, hz, returns_bind.mpr ⟨_, checked_result.mpr ⟨rfl, hx⟩, ?_⟩⟩
    exact returns_bind.mpr ⟨_, checked_result.mpr ⟨rfl, hy⟩, returns_ok _ _⟩

theorem map_this_updateSurface {f : Surface → Surface} (hf : ∀ z, (f z).this = z.this) :
    (s.updateSurface a f).surfaces.map (·.this) = s.surfaces.map (·.this) := by
  rw [surfaces_updateSurface, List.map_map]
  apply List.map_congr_left
  intro z _
  rw [Function.comp_apply]
  split
  · exact hf z
  · rfl

/-- **A motion** returns exactly if it finds every cursor. -/
theorem move_returns (s : Server) (x y : Int) :
    (s.move x y).Returns ↔ ∀ p ∈ s.mPointerList, s.Movable x y p := by
  refine returns_foldlM (C := Movable x y) (fun s p => movePointer_returns s p x y) ?_ _ s
  intro s p t q ht
  obtain ⟨a, z, -, -, rfl⟩ := movePointer_ok ((silent_movePointer p x y).eq_ok ht)
  have hsame : (s.updateSurface a fun w =>
      (w.setX (x - p.mHotspotX)).setY (y - p.mHotspotY)).surfaces.map (·.this) =
        s.surfaces.map (·.this) := map_this_updateSurface fun _ => rfl
  unfold Movable
  rw [hsame]

/-! ## Requests -/

/-- The surface of a live wl_surface resource exists. -/
def Backed (s : Server) (r : WlResource) : Prop :=
  ∀ a c, s.wrapperAt .surface r = some (a, c) → a ∈ s.surfaces.map (·.this)

/-- What a request asks for. -/
def Serves (s : Server) : ClientRequest → Prop
  | .getShellSurface shell r => s.bindingAt .shell shell ≠ none → s.Backed r
  | .setCursor pointer surface _ _ => s.wrapperAt .pointer pointer ≠ none → surface ≠ none
  | .surfaceDestroy r => s.Backed r
  | .surfaceAttach r _ _ _ => s.Backed r
  | .surfaceFrame r => s.Backed r
  | .surfaceCommit r => s.Backed r
  | _ => True

theorem onSurface_returns {handler : Surface → WlClient → Exec Call Fault Server}
    (h : ∀ z c, (handler z c).Returns) : (s.onSurface r handler).Returns ↔ s.Backed r := by
  unfold onSurface Backed
  cases hr : s.wrapperAt .surface r with
  | none => simp
  | some p =>
    obtain ⟨a, c⟩ := p
    simp only [Option.some.injEq, Prod.mk.injEq, and_imp, forall_apply_eq_imp_iff, forall_eq']
    rw [returns_ofOption_bind, ← exists_surface?_iff]
    exact exists_congr fun z => and_iff_left (h z c)

theorem performOn_returns (s : Server) (z : Surface) (op : SurfaceOp) :
    (s.performOn z op).Returns := by
  rw [performOn_eq]
  exact returns_ok _ _

theorem setCursor_returns (hp : s.Stays .pointer) (pointer : WlResource)
    (surface : Option WlResource) (x y : Int) :
    (s.setCursor pointer surface x y).Returns ↔
      (s.wrapperAt .pointer pointer ≠ none → surface ≠ none) := by
  unfold setCursor
  cases hw : s.wrapperAt .pointer pointer with
  | none => simp
  | some pc =>
    obtain ⟨p, c⟩ := pc
    have hfound : p ∈ s.mPointerList.map (·.this) :=
      pointer_of_wrapper (hp pointer p (wraps_of_wrapperAt hw))
    cases surface with
    | none => simp
    | some r =>
      cases hr : s.wrapperAt .surface r with
      | none => simp [hr]
      | some ac =>
        by_cases hc : ac.2 = c
        · simp only [hr, hc, if_true, returns_guard_bind, hfound, true_and]
          simp
        · simp [hr, hc]

/-- **A request** returns exactly if it finds what it asks for. -/
theorem request_returns (hp : s.Stays .pointer) (q : ClientRequest) :
    (s.request q).Returns ↔ s.Serves q := by
  cases q with
  | bind c g => exact iff_of_true (returns_ok _ _) trivial
  | createSurface r =>
    refine iff_of_true ?_ trivial
    show (s.createSurface r).Returns
    unfold createSurface
    split
    · exact returns_ok _ _
    · exact returns_log_bind.mpr (returns_ok _ _)
  | createRegion r =>
    refine iff_of_true ?_ trivial
    show (s.createRegion r).Returns
    unfold createRegion
    split
    · exact returns_ok _ _
    · exact returns_log_bind.mpr (returns_ok _ _)
  | getShellSurface shell r =>
    show (s.getShellSurface shell r).Returns ↔ (s.bindingAt .shell shell ≠ none → s.Backed r)
    unfold getShellSurface
    cases s.bindingAt .shell shell with
    | none => simp
    | some c =>
      simp only [ne_eq, reduceCtorEq, not_false_eq_true, forall_const]
      refine onSurface_returns fun z c' => ?_
      split
      · exact returns_log_bind.mpr (returns_ok _ _)
      · exact returns_ok _ _
  | getPointer r =>
    refine iff_of_true ?_ trivial
    show (s.getPointer r).Returns
    unfold getPointer
    split
    · exact returns_ok _ _
    · exact returns_log_bind.mpr (returns_ok _ _)
  | setCursor pointer surface x y => exact setCursor_returns hp pointer surface x y
  | surfaceDestroy r => exact onSurface_returns fun _ _ => returns_ok _ _
  | surfaceAttach r b x y =>
    refine onSurface_returns fun z c => ?_
    split
    · exact performOn_returns s z _
    · exact returns_ok _ _
  | surfaceFrame r => exact onSurface_returns fun z c => performOn_returns _ z _
  | surfaceCommit r => exact onSurface_returns fun z c => performOn_returns s z _
  | createBuffer c b => exact iff_of_true (returns_ok _ _) trivial
  | destroyBuffer r => exact iff_of_true (returns_ok _ _) trivial

/-! ## Destructions -/

/-- The resource is a binding whose destructor sweeps the compositor's list. -/
def Sweeps (s : Server) (r : WlResource) : Prop :=
  ∃ x, s.resource? r = some x ∧ x.userData = .global .compositor ∧
    x.destructor = some .hookClientDisconects

theorem clientDisconnects_returns (s : Server) (c : WlClient) :
    (s.clientDisconnects c).Returns ↔ none ∉ s.mCompositor.mSurfacesList := by
  constructor
  · rintro ⟨t, ht⟩
    exact none_notMem_of_clientDisconnects ht
  · intro hnull
    obtain ⟨gone, rest, hswept, -⟩ := @removeIf_total _ Fault (clientTest c) (ownedBy c) []
      s.mCompositor.mSurfacesList (clientTest_eq hnull)
    unfold clientDisconnects
    simp only [hswept, Exec.relog, Exec.ok_bind]
    exact returns_ok _ _

/-- **A destruction** returns exactly if it does not sweep over a null entry. -/
theorem Owned.destroyResource_returns (h : Owned cs s) (r : WlResource) :
    (s.destroyResource r).Returns ↔ (s.Sweeps r → none ∉ s.mCompositor.mSurfacesList) := by
  by_cases hsweeps : s.Sweeps r
  · obtain ⟨x, hx, hu, hd⟩ := hsweeps
    rw [destroy_binding hx hu hd]
    refine (returns_bind_total fun _ => returns_ok _ _).trans ?_
    rw [clientDisconnects_returns]
    exact ⟨fun hnull _ => hnull, fun hnull => hnull ⟨x, hx, hu, hd⟩⟩
  · refine iff_of_true ?_ fun hs => absurd hs hsweeps
    cases hr : s.resource? r with
    | none => simp [destroyResource, hr]
    | some x =>
      have hlive := live_of_resource? hr
      cases hhook : x.hook with
      | some w =>
        have hw : s.hook r = some w := (hook_of_resource? hr).trans hhook
        by_cases hkind : w.kind = .surface
        · obtain ⟨t, ht, -⟩ := h.destroy_surface hlive hw hkind
          exact returns_iff.mpr ⟨_, t, ht⟩
        · exact returns_iff.mpr ⟨_, _, h.destroyResource_stays hlive hw hkind⟩
      | none =>
        have hidle := destroyResource_idle hr hhook fun hx => hsweeps ⟨x, hr, hx.1, hx.2⟩
        exact returns_iff.mpr ⟨_, _, hidle⟩

/-! ## Every action -/

/-- What an action asks for so as not to fault. A server that was torn down does nothing. -/
def Finds (s : Server) (act : LifetimeAction) : Prop :=
  s.running = true →
    match act with
    | .serve (.request q) => s.Serves q
    | .serve .repaint =>
      none ∉ s.mCompositor.mSurfacesList ∧
        ∀ z ∈ Compositor.relaid s.mCompositor.mDisplayHeight s.surfaces,
          Compositor.Drawable s.shm s.mCompositor.mDisplayWidth s.mCompositor.mDisplayHeight z
    | .serve (.move x y) => ∀ p ∈ s.mPointerList, s.Movable x y p
    | .destroyResource r => s.Sweeps r → none ∉ s.mCompositor.mSurfacesList
    | _ => True

/-- **What an action asks for**: that it finds what it needs, and that the handles it passes to
libwayland are live. -/
structure Harmless (s : Server) (act : LifetimeAction) : Prop where
  finds : s.Finds act
  live : s.running = true → ∀ r ∈ s.handles act, s.live r = true

theorem Owned.lifetime_returns (ho : Owned cs s) (hp : s.running = true → s.Stays .pointer)
    (hc : s.mCompositor.Sized)
    (hshm : ∀ r b, s.shm r = some b → b.Packed ∧ b.data.length < 2 ^ 31) (act : LifetimeAction) :
    (s.lifetime blend act).Returns ↔ s.Finds act := by
  unfold Server.lifetime Finds
  by_cases hrun : s.running = true
  · simp only [hrun, if_true, forall_const]
    cases act with
    | serve act =>
      cases act with
      | connect => exact iff_of_true (returns_ok _ _) trivial
      | request q => exact request_returns (hp hrun) q
      | repaint =>
        exact (returns_bind_total fun _ => returns_ok _ _).trans
          (Compositor.repaint_returns hc hshm)
      | move x y => exact move_returns s x y
    | destroyResource r => exact ho.destroyResource_returns r
    | forget c => exact iff_of_true (returns_ok _ _) trivial
    | teardown => exact iff_of_true (returns_log_bind.mpr (returns_ok _ _)) trivial
  · simp [hrun]

/-- The precondition of an action in a state that a run reaches. -/
theorem reaches_harmless {width height : Int} (hw : 0 < width) (hh : 0 < height)
    (small : 4 * width * height < 2 ^ 31) {as : List LifetimeAction}
    (hpacked : ∀ c b, .serve (.request (.createBuffer c (some b))) ∈ as →
      b.Packed ∧ b.data.length < 2 ^ 31)
    (h : (lifetimeMachine blend width height).Reaches as cs s) (act : LifetimeAction) :
    (s.lifetime blend act).Returns ∧ s.PassesLive blend act ↔ s.Harmless act := by
  have ho := reaches_owned h
  have hreturns : (s.lifetime blend act).Returns ↔ s.Finds act := by
    refine ho.lifetime_returns (fun hrun => ?_) (sized_of_reaches hw hh small h)
      (fun r b hr => ?_) act
    · exact reaches_stays (by decide) (by decide) h hrun
    · obtain ⟨c, hc⟩ := buffer_of_reaches h hr
      exact hpacked c b hc
  have hlive : (s.lifetime blend act).Returns → (s.PassesLive blend act ↔
      (s.running = true → ∀ r ∈ s.handles act, s.live r = true)) := fun hret => by
    obtain ⟨ds, t, ht⟩ := returns_iff.mp hret
    exact ho.passesLive_iff (consistent_of_lifetime h) ht
  constructor
  · rintro ⟨hret, hpasses⟩
    exact ⟨hreturns.mp hret, (hlive hret).mp hpasses⟩
  · rintro ⟨hfinds, hhandles⟩
    have hret := hreturns.mpr hfinds
    exact ⟨hret, (hlive hret).mpr hhandles⟩

end Server

open Server

/-- **When the server runs into undefined behaviour.** Clients connect and disconnect, send requests
in any order, make packed buffers of less than 2^31 bytes and attach them at any offsets, the
pointer moves, the timer repaints: a run ends without a fault, and every handle that one of its
actions passes to libwayland is live then, if and only if each of its actions finds what it asks for
in the state it is taken in. -/
theorem server_runs_iff (blend : Blend) (width height : Int) (hw : 0 < width) (hh : 0 < height)
    (small : 4 * width * height < 2 ^ 31) (as : List LifetimeAction)
    (hpacked : ∀ c b, .serve (.request (.createBuffer c (some b))) ∈ as →
      b.Packed ∧ b.data.length < 2 ^ 31) :
    ((∃ cs s, (lifetimeMachine blend width height).Reaches as cs s) ∧
        (lifetimeMachine blend width height).Along (PassesLive blend) as) ↔
      (lifetimeMachine blend width height).Along Harmless as := by
  refine Machine.reaches_and_iff_along fun bs act hbs cs s hs => ?_
  have hmade : ∀ c b, .serve (.request (.createBuffer c (some b))) ∈ bs →
      b.Packed ∧ b.data.length < 2 ^ 31 := fun c b hb =>
    hpacked c b (hbs.subset (List.mem_append_left _ hb))
  exact reaches_harmless hw hh small hmade hs act

/-- A client shows a buffer and disconnects: its binding is destroyed first, with a null entry left,
which the next repaint reads. -/
def leftBehind : List LifetimeAction :=
  [.serve .connect, .serve .connect, .serve (.request (.bind 0 .compositor)),
    .serve (.request (.bind 1 .compositor)), .serve (.request (.createSurface 0)),
    .serve (.request (.createSurface 1)),
    .serve (.request (.createBuffer 0 (some ⟨1, 1, 4, .argb8888, [1, 2, 3, 4]⟩))),
    .serve (.request (.surfaceAttach 2 (some 4) 0 0)), .serve (.request (.surfaceCommit 2)),
    .serve .repaint, .destroyResource 0]

theorem packed_leftBehind :
    ∀ c b, .serve (.request (.createBuffer c (some b))) ∈ leftBehind ++ [.serve .repaint] →
      b.Packed ∧ b.data.length < 2 ^ 31 := by
  intro c b h
  obtain ⟨-, rfl⟩ : c = 0 ∧ b = ⟨1, 1, 4, .argb8888, [1, 2, 3, 4]⟩ := by
    simpa [leftBehind] using h
  decide

theorem server_runs_iff_leftBehind :
    ((∃ cs s, (lifetimeMachine integerBlend 1 1).Reaches (leftBehind ++ [.serve .repaint]) cs s) ∧
        (lifetimeMachine integerBlend 1 1).Along (PassesLive integerBlend)
          (leftBehind ++ [.serve .repaint])) ↔
      (lifetimeMachine integerBlend 1 1).Along Harmless (leftBehind ++ [.serve .repaint]) :=
  server_runs_iff integerBlend 1 1 (by decide) (by decide) (by decide) _ packed_leftBehind

end WaylandTest
