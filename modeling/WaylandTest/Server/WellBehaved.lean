import WaylandTest.Server.Crashes
import WaylandTest.Server.EachSurface
import WaylandTest.Server.Layout
import WaylandTest.Server.Projection

/-!
# Well-behaved clients

`server_runs_iff` asks of the states of a run what is in them. `polite_runs_return` asks of the
clients: that they attach their buffers right of and below the corners of their surfaces, but not
beyond the display, set no null cursor, and destroy their surfaces before they disconnect, unless
theirs are the last ones of the list (`Modest`); and that no buffer is destroyed that is shown or
about to be, no callback that waits, and no region, pointer or shell surface that the server still
has a wrapper for (`Cautious`). The server then comes to no fault, and every handle it passes to
libwayland is live, whatever the clients do otherwise and in which order, as long as no pointer
listener is registered (`WaylandServer` registers none).

The states of such runs are `Orderly`.
-/

set_option autoImplicit false

namespace WaylandTest

open Lib Exec

/-- The offset puts what is attached right of and below the corner of a surface, and no farther than
bytes are numbered. -/
def SmallOffset (displayWidth displayHeight x y : Int) : Prop :=
  0 ≤ x ∧ x < displayWidth ∧ 0 ≤ y ∧ (displayHeight + y) * displayWidth + x < 2 ^ 29

/-- The surface is in the left column of the display, where the layout puts it, and what it has
attached is at a small offset. -/
structure Surface.Within (displayWidth displayHeight : Int) (z : Surface) : Prop where
  consistent : z.Consistent
  left : z.mX = 0
  rows : 0 ≤ z.mY ∧ z.mY ≤ displayHeight
  front : SmallOffset displayWidth displayHeight z.mFront.x z.mFront.y
  back : SmallOffset displayWidth displayHeight z.mBack.x z.mBack.y

namespace Surface

variable {displayWidth displayHeight : Int} {z : Surface} {shm : ShmTable}

theorem within_construct (hw : 0 < displayWidth) (hh : 0 < displayHeight)
    (small : 4 * displayWidth * displayHeight < 2 ^ 31) (a : Address) (r : WlResource)
    (c : WlClient) (l : Option DestroyListener) :
    (construct a r c l).Within displayWidth displayHeight := by
  rw [Int.mul_assoc, Int.mul_comm displayWidth] at small
  have hzero : SmallOffset displayWidth displayHeight 0 0 := by
    refine ⟨Int.le_refl 0, hw, Int.le_refl 0, ?_⟩
    rw [Int.add_zero, Int.add_zero]
    omega
  exact ⟨consistent_construct a r c l, rfl, ⟨Int.le_refl 0, Int.le_of_lt hh⟩, hzero, hzero⟩

theorem Within.surfaceCommit (h : z.Within displayWidth displayHeight) :
    z.surfaceCommit.1.Within displayWidth displayHeight := by
  have hc := h.consistent.surfaceCommit
  cases hb : z.mBack.buffer with
  | none =>
    rw [surfaceCommit_idle hb]
    exact h
  | some b =>
    cases hf : z.mFront.buffer with
    | none =>
      rw [surfaceCommit_first h.consistent hb hf] at hc ⊢
      exact ⟨hc, h.left, h.rows, h.back, h.front⟩
    | some f =>
      rw [surfaceCommit_next h.consistent hb hf] at hc ⊢
      exact ⟨hc, h.left, h.rows, h.back, h.front⟩

theorem Within.surfaceAttach (h : z.Within displayWidth displayHeight) (b : Option WlResource)
    {x y : Int} (hxy : SmallOffset displayWidth displayHeight x y) :
    (z.surfaceAttach shm b x y).1.Within displayWidth displayHeight := by
  have hc := h.consistent.surfaceAttach shm b x y
  unfold Surface.surfaceAttach at hc ⊢
  cases hb : shm.get b with
  | none => exact h
  | some buf =>
    rw [hb] at hc
    exact ⟨hc, h.left, h.rows, h.front, hxy⟩

theorem Within.repainted (h : z.Within displayWidth displayHeight) :
    (z.repainted shm).1.Within displayWidth displayHeight := by
  cases hf : z.mFront.buffer with
  | none =>
    rw [repainted_idle h.consistent hf]
    exact h
  | some f =>
    rw [(repainted_shown shm h.consistent hf).1]
    have hc := h.consistent
    exact ⟨⟨hc.frontReady, hc.backReady, hc.filled⟩, h.left, h.rows, h.front, h.back⟩

/-- A surface in its place is drawn. -/
theorem Within.drawable (h : z.Within displayWidth displayHeight) (hw : 0 < displayWidth)
    (hshm : ∀ r b, shm r = some b → b.Packed ∧ b.data.length < 2 ^ 31) :
    Compositor.Drawable shm displayWidth displayHeight z := by
  intro b hlock
  obtain ⟨r, hr, -⟩ := lockBuffer_shm hlock
  obtain ⟨hpacked, hbytes⟩ := hshm r b hr
  have hpixels := hpacked.bytes_le
  have hwidth := hpacked.width
  have hheight := hpacked.height
  obtain ⟨hx, hx', hy, hfar⟩ := h.back
  have hposX : z.x = z.mBack.x := by rw [Surface.x, h.left, Int.zero_add]
  have hposY : z.y = z.mY + z.mBack.y := rfl
  have hrows := h.rows
  have hreach : ∀ row, row ≤ displayHeight + z.mBack.y →
      row * displayWidth ≤ (displayHeight + z.mBack.y) * displayWidth := fun row hrow =>
    Int.mul_le_mul_of_nonneg_right hrow (Int.le_of_lt hw)
  have hstart : 0 ≤ z.y * displayWidth := Int.mul_nonneg (by omega) (Int.le_of_lt hw)
  have hfirst := hreach z.y (by omega)
  have hlast := hreach (min (z.y + b.height) displayHeight) (by omega)
  have hdrawn : (min (z.y + b.height) displayHeight - z.y) * b.width ≤ b.height * b.width :=
    Int.mul_le_mul_of_nonneg_right (by omega) (Int.le_of_lt hwidth)
  refine ⟨⟨?_, ?_, ⟨?_, ?_⟩, fun _ => ⟨?_, ?_⟩⟩, .inr (.inr (.inr ⟨?_, ?_, ?_⟩))⟩
  all_goals omega

end Surface

namespace Compositor

theorem within_of_samePlaced {displayWidth displayHeight : Int} {ss ss' : List Surface}
    (h : List.Forall₂ Surface.SamePlaced ss ss')
    (hold : ∀ v ∈ ss, v.Within displayWidth displayHeight)
    (hrows : ∀ z ∈ ss', z.isShellSurface = true → 0 ≤ z.mY ∧ z.mY ≤ displayHeight) :
    ∀ z ∈ ss', z.Within displayWidth displayHeight := by
  induction h with
  | nil => exact fun z hz => absurd hz List.not_mem_nil
  | @cons v w ss ss' hplaced _ ih =>
    obtain ⟨hv, hss⟩ := List.forall_mem_cons.mp hold
    obtain ⟨hw, hss'⟩ := List.forall_mem_cons.mp hrows
    refine List.forall_mem_cons.mpr ⟨?_, ih hss hss'⟩
    rw [Surface.SamePlaced] at hplaced
    by_cases hshell : v.isShellSurface = true
    · rw [if_pos hshell] at hplaced
      have hsame : w.isShellSurface = v.isShellSurface := hplaced ▸ rfl
      have hc := hv.consistent
      have hplace := hw (hsame.trans hshell)
      rw [hplaced]
      exact ⟨⟨hc.frontReady, hc.backReady, hc.filled⟩, hv.left, hplace, hv.front, hv.back⟩
    · rw [hplaced, if_neg hshell]
      exact hv

/-- The layout gives shell surfaces their rows, and leaves the others where they are. -/
theorem within_relaid {displayWidth displayHeight : Int} (hh : 0 < displayHeight)
    {ss : List Surface} (h : ∀ z ∈ ss, z.Within displayWidth displayHeight) :
    ∀ z ∈ relaid displayHeight ss, z.Within displayWidth displayHeight := by
  have hplaced := samePlaced_relaid displayHeight ss
  refine within_of_samePlaced hplaced h fun z hz hshell => ?_
  have hcount : 0 < ss.countP Surface.isShellSurface := by
    rw [← countP_samePlaced hplaced]
    exact List.countP_pos_iff.mpr ⟨z, hz, hshell⟩
  have htiled := tiled_relaid (Int.le_of_lt hh) hcount
  obtain ⟨htop, hbottom⟩ := htiled.inside z (List.mem_filter.mpr ⟨hz, hshell⟩)
  have hband : 0 ≤ displayHeight /
      ((relaid displayHeight ss).filter Surface.isShellSurface).length :=
    Int.ediv_nonneg (Int.le_of_lt hh) (Int.natCast_nonneg _)
  omega

end Compositor

namespace Server

variable {s t : Server} {cs ds : List Call} {blend : Blend} {displayWidth displayHeight : Int}

/-- Offsets are small, cursors are not null, bindings go when the client's surfaces are the last,
and there is no motion. -/
def Modest (displayWidth displayHeight : Int) (s : Server) : LifetimeAction → Prop
  | .serve (.request (.surfaceAttach _ _ x y)) => SmallOffset displayWidth displayHeight x y
  | .serve (.request (.setCursor _ surface _ _)) => surface ≠ none
  | .serve (.move _ _) => False
  | .destroyResource r =>
    ∀ c, s.bindingAt .compositor r = some c → RemovedLast (ownedBy c) s.mCompositor.mSurfacesList
  | _ => True

/-- What well-behaved clients do, and no motion. -/
structure Polite (displayWidth displayHeight : Int) (s : Server) (act : LifetimeAction) : Prop where
  modest : s.Modest displayWidth displayHeight act
  cautious : s.Cautious act

/-- The states of runs of well-behaved clients: no entry is null, live wl_surface resources have
their surfaces, and these are in their places. -/
structure Orderly (displayWidth displayHeight : Int) (s : Server) : Prop where
  width : s.mCompositor.mDisplayWidth = displayWidth
  height : s.mCompositor.mDisplayHeight = displayHeight
  noNull : none ∉ s.mCompositor.mSurfacesList
  backed : ∀ r a, s.live r = true → s.wraps r = some ⟨.surface, a⟩ →
    ∃ z ∈ s.surfaces, z.this = a ∧ z.mResource = r
  within : ∀ z ∈ s.surfaces, z.Within displayWidth displayHeight

/-! ## Served actions -/

theorem none_notMem_updateSurface {a : Address} {f : Surface → Surface}
    (h : none ∉ s.mCompositor.mSurfacesList) :
    none ∉ (s.updateSurface a f).mCompositor.mSurfacesList := by
  intro hnone
  obtain ⟨p, hp, hpnone⟩ := List.mem_map.mp hnone
  rw [Option.map_eq_none_iff.mp hpnone] at hp
  exact h hp

/-- No served action makes an entry null. -/
theorem none_notMem_serve {act : ServeAction} (h : none ∉ s.mCompositor.mSurfacesList)
    (hstep : s.serve blend act = ⟨ds, .ok t⟩) : none ∉ t.mCompositor.mSurfacesList := by
  cases act with
  | connect =>
    cases hstep
    exact h
  | repaint =>
    obtain ⟨_, c, _, hrepaint, hret, -⟩ := Exec.bind_eq_ok.mp hstep
    cases hret
    obtain ⟨ss, _, _, _, _, -, -, -, -, rfl⟩ := Compositor.repaint_cases hrepaint
    simp
  | move x y =>
    exact move_induct (I := fun u => none ∉ u.mCompositor.mSurfacesList)
      (fun _ _ _ _ hu => none_notMem_updateSurface hu) h hstep
  | request q =>
    have hq : Handled s q ⟨ds, .ok t⟩ := .eq hstep
    cases hq with
    | surfaceCreated hr =>
      intro hnone
      rcases List.mem_append.mp hnone with hold | hnew
      · exact h hold
      · cases List.mem_singleton.mp hnew
    | shellSurfaceSet c hx => exact none_notMem_updateSurface (s := s.create .shellSurface c) h
    | attached x y hz hb => exact none_notMem_updateSurface h
    | framed c hz => exact none_notMem_updateSurface (s := s.addResource _) h
    | committed hr hz => exact none_notMem_updateSurface h
    | _ => exact h

/-- No served action revives a handle. -/
theorem live_of_serve {act : ServeAction} {r : WlResource} (hr : r < s.resources.length)
    (hlive : t.live r = true) (hstep : s.serve blend act = ⟨ds, .ok t⟩) : s.live r = true := by
  have hsame : ∀ u : Server, u.resources = s.resources → u.live r = s.live r := fun u hu =>
    live_congr hu
  have hadd : ∀ x : Resource, x.live = true → ∀ u : Server, u.resources = s.resources ++ [x] →
      u.live r = s.live r := by
    intro x hx u hu
    have hu' : u.live r = (s.addResource x).live r := live_congr hu
    rw [hu', live_def, live_def, info_addResource hx, if_neg (Nat.ne_of_lt hr)]
  cases act with
  | connect =>
    cases hstep
    exact (hsame _ rfl).symm.trans hlive
  | repaint =>
    obtain ⟨_, c, _, -, hret, -⟩ := Exec.bind_eq_ok.mp hstep
    cases hret
    exact (hsame _ rfl).symm.trans hlive
  | move x y =>
    have hlist : t.resources = s.resources :=
      move_induct (I := fun u => u.resources = s.resources) (fun _ _ _ _ hu => hu) rfl hstep
    exact (hsame t hlist).symm.trans hlive
  | request q =>
    have hq : Handled s q ⟨ds, .ok t⟩ := .eq hstep
    cases hq with
    | ignored => exact hlive
    | bound g hc => exact (hadd _ rfl _ rfl).symm.trans hlive
    | surfaceCreated hr => exact (hadd _ rfl _ rfl).symm.trans hlive
    | regionCreated hr => exact (hadd _ rfl _ rfl).symm.trans hlive
    | pointerCreated hr => exact (hadd _ rfl _ rfl).symm.trans hlive
    | shellSurfaceSet c hx =>
      rw [live_disarm] at hlive
      exact (hadd _ rfl _ rfl).symm.trans hlive
    | cursorSet hps => exact (hsame _ rfl).symm.trans hlive
    | attached x y hz hb => exact (hsame _ rfl).symm.trans hlive
    | framed c hz => exact (hadd _ rfl _ rfl).symm.trans hlive
    | committed hr hz => exact (hsame _ rfl).symm.trans hlive
    | bufferCreated b hc => exact (hadd _ rfl _ rfl).symm.trans hlive
    | bufferDestroyed hr =>
      rw [live_bury] at hlive
      exact (Bool.and_eq_true_iff.mp hlive).1

/-- A modest action that is served keeps the surfaces in their places. -/
theorem within_serve (hw : 0 < displayWidth) (hh : 0 < displayHeight)
    (small : 4 * displayWidth * displayHeight < 2 ^ 31) {act : ServeAction}
    (hmodest : s.Modest displayWidth displayHeight (.serve act))
    (hheight : s.mCompositor.mDisplayHeight = displayHeight)
    (h : ∀ z ∈ s.surfaces, z.Within displayWidth displayHeight)
    (hstep : s.serve blend act = ⟨ds, .ok t⟩) :
    ∀ z ∈ t.surfaces, z.Within displayWidth displayHeight := by
  cases act with
  | connect =>
    cases hstep
    exact h
  | move x y => exact absurd hmodest id
  | repaint =>
    obtain ⟨_, c, _, hrepaint, hret, -⟩ := Exec.bind_eq_ok.mp hstep
    cases hret
    obtain ⟨ss, _, _, _, _, hlist, -, -, -, rfl⟩ := Compositor.repaint_cases hrepaint
    obtain rfl : s.surfaces = ss := by rw [surfaces, hlist, contents_map_some]
    intro z hz
    change z ∈ contents (List.map _ (List.map some _)) at hz
    rw [contents_map, contents_map_some, hheight] at hz
    obtain ⟨v, hv, rfl⟩ := List.mem_map.mp hz
    exact (Compositor.within_relaid hh h v hv).repainted
  | request q =>
    have hq : Handled s q ⟨ds, .ok t⟩ := .eq hstep
    cases hq with
    | surfaceCreated hr =>
      intro z hz
      rcases List.mem_append.mp (mem_contents.mp hz) with hold | hnew
      · exact h z (mem_contents.mpr hold)
      · cases List.mem_singleton.mp hnew
        exact Surface.within_construct hw hh small _ _ _ _
    | shellSurfaceSet c hx =>
      refine forall_updateSurface (s := s.create .shellSurface c) h fun z hz => ?_
      have hc := hz.consistent
      exact ⟨⟨hc.frontReady, hc.backReady, hc.filled⟩, hz.left, hz.rows, hz.front, hz.back⟩
    | @attached _ _ _ _ b x y hz hb =>
      exact forall_updateSurface h fun z hz => hz.surfaceAttach b hmodest
    | framed c hz =>
      refine forall_updateSurface (s := s.addResource _) h fun z hz => ?_
      have hc := hz.consistent
      exact ⟨⟨hc.frontReady, hc.backReady, hc.filled⟩, hz.left, hz.rows, hz.front, hz.back⟩
    | committed hr hz => exact forall_updateSurface h fun z hz => hz.surfaceCommit
    | _ => exact h

/-- A modest action that is served keeps the state orderly. -/
theorem Orderly.serve (h : s.Orderly displayWidth displayHeight) (ho : Owned cs s)
    (hw : 0 < displayWidth) (hh : 0 < displayHeight)
    (small : 4 * displayWidth * displayHeight < 2 ^ 31) {act : ServeAction}
    (hmodest : s.Modest displayWidth displayHeight (.serve act))
    (hstep : s.serve blend act = ⟨ds, .ok t⟩) : t.Orderly displayWidth displayHeight where
  width := (congrArg (·.1) (extent_serve hstep)).trans h.width
  height := (congrArg (·.2.1) (extent_serve hstep)).trans h.height
  noNull := none_notMem_serve h.noNull hstep
  within := within_serve hw hh small hmodest h.height h.within hstep
  backed r a hlive hr := by
    rcases serve_cases ho.nodup hstep with ⟨gone, born, hm, hgone⟩ | ⟨b, -, -, rfl, -⟩
    · rw [hm.wraps] at hr
      have hall : (⟨.surface, a⟩, r) ∈ s.newborn born ++ s.wrappers := by
        rcases wraps_bear hr with hnew | hold
        · exact List.mem_append_left _ hnew
        · obtain ⟨z, hz, rfl, rfl⟩ := h.backed r a (live_of_serve (wraps_lt hold) hlive hstep) hold
          exact List.mem_append_right _ (wrapper_of_surface hz)
      rcases List.mem_append.mp (hm.wrappers.mem_iff.mp hall) with hdel | hstay
      · cases hgone _ hdel
      · exact surface_of_wrapper hstay rfl
    · rw [live_bury] at hlive
      rw [wraps_bury] at hr
      exact h.backed r a (Bool.and_eq_true_iff.mp hlive).1 hr

/-! ## Destructions -/

theorem Orderly.bury (h : s.Orderly displayWidth displayHeight) (r : WlResource) :
    (s.bury r).Orderly displayWidth displayHeight where
  width := h.width
  height := h.height
  noNull := h.noNull
  within := h.within
  backed r' a hlive hr' := by
    rw [live_bury] at hlive
    rw [wraps_bury] at hr'
    exact h.backed r' a (Bool.and_eq_true_iff.mp hlive).1 hr'

/-- A modest destruction of a binding leaves the list alone. -/
theorem destroy_modestly {c : WlClient} {r : WlResource}
    (hnull : none ∉ s.mCompositor.mSurfacesList) (hb : s.bindingAt .compositor r = some c)
    (hlast : RemovedLast (ownedBy c) s.mCompositor.mSurfacesList) :
    s.destroyResource r = ⟨[], .ok (s.bury r)⟩ := by
  obtain ⟨x, hx, rfl, hu⟩ := info_eq_some.mp (bindingAt_eq.mp hb)
  by_cases hd : x.destructor = some .hookClientDisconects
  · rw [destroy_binding hx hu hd, clientDisconnects_last hnull hlast]
    rfl
  · exact destroyResource_idle hx (hook_of_global hu) fun hsweeps => hd hsweeps.2

/-- A modest destruction leaves the surfaces of the other resources. -/
theorem Orderly.destroyResource (h : s.Orderly displayWidth displayHeight) (ho : Owned cs s)
    {r : WlResource} (hmodest : s.Modest displayWidth displayHeight (.destroyResource r))
    (hstep : s.destroyResource r = ⟨ds, .ok t⟩) : t.Orderly displayWidth displayHeight := by
  cases hb : s.bindingAt .compositor r with
  | some c =>
    rw [destroy_modestly h.noNull hb (hmodest c hb)] at hstep
    cases hstep
    exact h.bury r
  | none =>
    rcases destroyResource_ok hstep with ⟨-, -, rfl⟩ | ⟨ps, ws, rfl, rfl, -, -⟩
    · exact h
    · by_cases hlive : s.live r = true
      · obtain ⟨_, ht, hlist⟩ := ho.destroy_other hlive hb
        have hsame := Except.ok.inj (congrArg Exec.result (hstep.symm.trans ht))
        rw [← hsame] at hlist
        change ps = _ at hlist
        have hsurfaces : contents ps = s.surfaces.filter (·.mResource ∉ [r]) := by
          rw [hlist]
          exact contents_filter_all _ _
        refine ⟨h.width, h.height, ?_, fun r' a hlive' hr' => ?_, fun z hz => ?_⟩
        · show none ∉ ps
          rw [hlist]
          exact fun hnone => h.noNull (List.mem_filter.mp hnone).1
        · rw [live_bury, live_disarm] at hlive'
          rw [wraps_bury, wraps_disarm] at hr'
          obtain ⟨hold, hne⟩ := Bool.and_eq_true_iff.mp hlive'
          obtain ⟨z, hz, hthis, hres⟩ := h.backed r' a hold hr'
          refine ⟨z, ?_, hthis, hres⟩
          show z ∈ contents ps
          rw [hsurfaces]
          exact List.mem_filter.mpr ⟨hz, by simpa [hres] using hne⟩
        · change z ∈ contents ps at hz
          rw [hsurfaces] at hz
          exact h.within z (List.mem_filter.mp hz).1
      · have hdead : s.resource? r = none := by
          unfold live at hlive
          simpa using hlive
        unfold Server.destroyResource at hstep
        rw [hdead] at hstep
        have hsame := Except.ok.inj (congrArg Exec.result hstep)
        rw [← hsame]
        exact h

theorem Orderly.lifetime (h : s.Orderly displayWidth displayHeight) (ho : Owned cs s)
    (hw : 0 < displayWidth) (hh : 0 < displayHeight)
    (small : 4 * displayWidth * displayHeight < 2 ^ 31) {act : LifetimeAction}
    (hmodest : s.Modest displayWidth displayHeight act) (hstep : s.lifetime blend act = ⟨ds, .ok t⟩)
    (hrun : t.running = true) : t.Orderly displayWidth displayHeight := by
  unfold Server.lifetime at hstep
  split at hstep
  · cases act with
    | serve act => exact h.serve ho hw hh small hmodest hstep
    | destroyResource r => exact h.destroyResource ho hmodest hstep
    | forget c =>
      cases hstep
      unfold forget
      split
      · exact ⟨h.width, h.height, h.noNull, h.backed, h.within⟩
      · exact h
    | teardown =>
      obtain ⟨_, hret, -⟩ := Exec.log_bind_eq_ok.mp hstep
      cases hret
      cases hrun
  · cases hstep
    exact h

theorem orderly_start (displayWidth displayHeight : Int) :
    (start displayWidth displayHeight).Orderly displayWidth displayHeight where
  width := rfl
  height := rfl
  noNull := List.not_mem_nil
  backed r a _ hr := by cases hr
  within z hz := absurd hz List.not_mem_nil

/-- The states of runs of modest clients are orderly. -/
theorem reaches_orderly {width height : Int} (hw : 0 < width) (hh : 0 < height)
    (small : 4 * width * height < 2 ^ 31) {as : List LifetimeAction}
    (hmodest : (lifetimeMachine blend width height).Along (Modest width height) as)
    (h : (lifetimeMachine blend width height).Reaches as cs s) (hrun : s.running = true) :
    s.Orderly width height := by
  refine h.induct (P := fun as _ s => (lifetimeMachine blend width height).Along
    (Modest width height) as → s.running = true → s.Orderly width height) ?_ ?_ hmodest hrun
  · exact fun _ _ => orderly_start width height
  · intro as cs s act ds t hs ih hstep hmodest hrun
    obtain ⟨hbefore, hnow⟩ := Machine.along_snoc.mp hmodest
    have hold := ih hbefore (running_lifetime hstep hrun)
    exact hold.lifetime (reaches_owned hs) hw hh small (hnow cs s hs) hstep hrun

/-- In an orderly state a modest action finds what it asks for. -/
theorem Orderly.finds (h : s.Orderly displayWidth displayHeight) (hw : 0 < displayWidth)
    (hh : 0 < displayHeight)
    (hshm : ∀ r b, s.shm r = some b → b.Packed ∧ b.data.length < 2 ^ 31) {act : LifetimeAction}
    (hmodest : s.Modest displayWidth displayHeight act) : s.Finds act := by
  have hbacked : ∀ r, s.Backed r := by
    intro r a c hr
    obtain ⟨x, hx, -⟩ := Option.bind_eq_some_iff.mp hr
    obtain ⟨z, hz, hthis, -⟩ := h.backed r a (live_of_resource? hx) (wraps_of_wrapperAt hr)
    exact List.mem_map.mpr ⟨z, hz, hthis⟩
  intro _
  cases act with
  | serve act =>
    cases act with
    | connect => trivial
    | request q =>
      cases q with
      | getShellSurface shell r => exact fun _ => hbacked r
      | setCursor pointer surface x y => exact fun _ => hmodest
      | surfaceDestroy r => exact hbacked r
      | surfaceAttach r b x y => exact hbacked r
      | surfaceFrame r => exact hbacked r
      | surfaceCommit r => exact hbacked r
      | _ => trivial
    | repaint =>
      refine ⟨h.noNull, fun z hz => ?_⟩
      rw [h.height] at hz ⊢
      rw [h.width]
      exact (Compositor.within_relaid hh h.within z hz).drawable hw hshm
    | move x y => exact absurd hmodest id
  | destroyResource r => exact fun _ => h.noNull
  | forget c => trivial
  | teardown => trivial

/-- A polite run keeps the preconditions of its actions. -/
theorem harmless_of_polite {width height : Int} (hw : 0 < width) (hh : 0 < height)
    (small : 4 * width * height < 2 ^ 31) {as : List LifetimeAction}
    (hpacked : ∀ c b, .serve (.request (.createBuffer c (some b))) ∈ as →
      b.Packed ∧ b.data.length < 2 ^ 31)
    (hpolite : (lifetimeMachine blend width height).Along (Polite width height) as) :
    (lifetimeMachine blend width height).Along Harmless as := by
  intro bs act hbs cs s hs
  have hbefore : bs <+: as := (List.prefix_append bs [act]).trans hbs
  have hmodest : (lifetimeMachine blend width height).Along (Modest width height) bs :=
    fun ds a ha cs s hs => (hpolite ds a (ha.trans hbefore) cs s hs).modest
  have hcautious : (lifetimeMachine blend width height).Along Cautious bs :=
    fun ds a ha cs s hs => (hpolite ds a (ha.trans hbefore) cs s hs).cautious
  refine ⟨fun hrun => ?_, fun _ r hr => (reaches_lively hcautious hs).handles hr⟩
  have horderly := reaches_orderly hw hh small hmodest hs hrun
  refine horderly.finds hw hh (fun r b hr => ?_) (hpolite bs act hbs cs s hs).modest hrun
  obtain ⟨c, hc⟩ := buffer_of_reaches hs hr
  exact hpacked c b (hbefore.subset hc)

end Server

open Server

/-- **Well-behaved clients.** If clients make packed buffers of less than 2^31 bytes and attach them
at small offsets, set no null cursor, have no surfaces but the last of the list when their
compositor bindings are destroyed, and destroy nothing that the server still uses, and no motion
reaches the seat, the run ends without a fault and passes only live handles to libwayland: with
whatever requests otherwise, in whatever order, with repaints and the destruction of other resources
at any time. -/
theorem polite_runs_return (blend : Blend) (width height : Int) (hw : 0 < width) (hh : 0 < height)
    (small : 4 * width * height < 2 ^ 31) (as : List LifetimeAction)
    (hpacked : ∀ c b, .serve (.request (.createBuffer c (some b))) ∈ as →
      b.Packed ∧ b.data.length < 2 ^ 31)
    (hpolite : (lifetimeMachine blend width height).Along (Polite width height) as) :
    (∃ cs s, (lifetimeMachine blend width height).Reaches as cs s) ∧
      (lifetimeMachine blend width height).Along (PassesLive blend) as := by
  have hharmless := harmless_of_polite hw hh small hpacked hpolite
  refine (Machine.reaches_and_iff_along fun bs act hbs cs s hs => ?_).mpr hharmless
  exact reaches_harmless hw hh small (fun c b hb => hpacked c b
    (hbs.subset (List.mem_append_left _ hb))) hs act

/-- A client attaches a buffer to a surface, beside another client with a surface. -/
def politeStart : List LifetimeAction :=
  [.serve .connect, .serve .connect, .serve (.request (.bind 0 .compositor)),
    .serve (.request (.bind 1 .compositor)), .serve (.request (.createSurface 0)),
    .serve (.request (.createSurface 1)),
    .serve (.request (.createBuffer 1 (some ⟨1, 1, 4, .argb8888, [1, 2, 3, 4]⟩))),
    .serve (.request (.surfaceAttach 3 (some 4) 0 0))]

/-- The client shows it and disconnects: its binding is destroyed, then its surface, then the
buffer. -/
def politeShow : List LifetimeAction :=
  politeStart ++ [.serve (.request (.surfaceCommit 3))] ++ [.serve .repaint] ++
    [.destroyResource 1] ++ [.destroyResource 3] ++ [.destroyResource 4] ++ [.forget 1] ++
    [.serve .repaint]

theorem packed_politeShow :
    ∀ c b, .serve (.request (.createBuffer c (some b))) ∈ politeShow →
      b.Packed ∧ b.data.length < 2 ^ 31 := by
  intro c b h
  obtain ⟨-, rfl⟩ : c = 1 ∧ b = ⟨1, 1, 4, .argb8888, [1, 2, 3, 4]⟩ := by
    simpa [politeShow, politeStart] using h
  decide

theorem polite_politeShow : (lifetimeMachine integerBlend 1 1).Along (Polite 1 1) politeShow := by
  have hsnoc : ∀ {as : List LifetimeAction} {act : LifetimeAction},
      (lifetimeMachine integerBlend 1 1).Along (Polite 1 1) as →
      (∀ t, ((lifetimeMachine integerBlend 1 1).run as).result = .ok t → t.Polite 1 1 act) →
      (lifetimeMachine integerBlend 1 1).Along (Polite 1 1) (as ++ [act]) := fun has hact =>
    Machine.along_snoc.mpr ⟨has, fun _ s hs => hact s (congrArg Exec.result hs)⟩
  have hidle : ∀ t : Server, t.Polite 1 1 (.serve .repaint) := fun _ => ⟨trivial, trivial⟩
  have hstart : (lifetimeMachine integerBlend 1 1).Along (Polite 1 1) politeStart := by
    refine Machine.along_of_forall fun a ha s => ?_
    unfold politeStart at ha
    simp only [List.mem_cons, List.not_mem_nil, or_false] at ha
    rcases ha with rfl | rfl | rfl | rfl | rfl | rfl | rfl | rfl
    all_goals exact ⟨by simp [Modest, SmallOffset], trivial⟩
  refine hsnoc (hsnoc (hsnoc (hsnoc (hsnoc (hsnoc (hsnoc hstart ?_) ?_) ?_) ?_) ?_) ?_) ?_
  · rintro _ ⟨⟩
    refine ⟨trivial, ?_⟩
    rintro a c x b ⟨⟩ ⟨⟩ ⟨⟩
    rfl
  · exact fun t _ => hidle t
  · rintro _ ⟨⟩
    refine ⟨?_, ?_, ?_⟩
    · rintro c ⟨⟩
      decide
    · decide
    · rintro w - ⟨⟩
  · rintro _ ⟨⟩
    refine ⟨?_, ?_, ?_⟩
    · rintro c ⟨⟩
    · decide
    · rintro w - ⟨⟩
      rfl
  · rintro _ ⟨⟩
    refine ⟨?_, ?_, ?_⟩
    · rintro c ⟨⟩
    · decide
    · rintro w - ⟨⟩
  · exact fun _ _ => ⟨trivial, trivial⟩
  · exact fun t _ => hidle t

theorem polite_runs_return_politeShow :
    (∃ cs s, (lifetimeMachine integerBlend 1 1).Reaches politeShow cs s) ∧
      (lifetimeMachine integerBlend 1 1).Along (PassesLive integerBlend) politeShow :=
  polite_runs_return integerBlend 1 1 (by decide) (by decide) (by decide) _ packed_politeShow
    polite_politeShow

end WaylandTest
