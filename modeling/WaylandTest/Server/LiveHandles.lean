import WaylandTest.Server.CallbackResources
import WaylandTest.Server.Sessions

/-!
# The handles an action passes to libwayland

A call on a handle that is not live is undefined behaviour, and yet no fault of the model: the call
is recorded, and the run goes on. So what the calls of an action need is said here. `handles` are
the handles that an action passes on, read off the state it finds: a repaint passes the buffers that
are shown and the callbacks it answers, a commit the buffer it releases and the callback it answers,
and whatever deletes wrappers the resources of the wrappers. `mem_usedHandles` says that these are
the ones in the calls of an action that does not fault.

The server does not hear of the destruction of a buffer or a callback, nor reacts to that of a
region, a pointer or a shell surface. `Cautious` actions destroy none of these that is still used,
and in a run of such actions all the handles are live (`reaches_lively`, `Lively.handles`).
-/

set_option autoImplicit false

namespace WaylandTest

open Lib

/-- The handle a call passes to libwayland, if it passes one. -/
def Call.handle? : Call → Option WlResource
  | .shmBufferGet b => b
  | .shmBufferBeginAccess b => b
  | .shmBufferEndAccess b => b
  | .callbackSendDone cb => some cb
  | .queueRelease b => some b
  | .resourceSetDestructor r => some r
  | _ => none

/-- The handles the calls `cs` pass to libwayland. -/
def usedHandles (cs : List Call) : List WlResource := cs.filterMap Call.handle?

theorem usedHandles_append (cs ds : List Call) :
    usedHandles (cs ++ ds) = usedHandles cs ++ usedHandles ds := List.filterMap_append

/-- `~WaylandResource` passes the handle of the wrapper. -/
theorem usedHandles_deleteCalls (ws : List (Wrapper × WlResource)) :
    usedHandles (deleteCalls ws) = ws.map (·.2) := by
  induction ws with
  | nil => rfl
  | cons w ws ih =>
    show w.2 :: usedHandles (deleteCalls ws) = _
    rw [ih]
    rfl

theorem usedHandles_dones (cb : Option WlResource) :
    usedHandles (cb.toList.map .callbackSendDone) = cb.toList := by
  cases cb <;> rfl

namespace Surface

variable {x : Surface} {shm : ShmTable} {r : WlResource}

/-- What a commit passes on: the buffer that it releases, and the callback that it answers. -/
def passedAtCommit (x : Surface) : List WlResource :=
  if x.mBack.buffer = none then [] else x.mFront.buffer.toList ++ x.dueAtCommit

/-- What a repaint passes on: the buffer that is shown, and the callback that it answers. -/
def passedAtRepaint (x : Surface) : List WlResource :=
  x.mFront.buffer.toList ++ x.dueAtRepaint

theorem usedHandles_surfaceCommit (hx : x.Consistent) :
    usedHandles x.surfaceCommit.2 = x.passedAtCommit := by
  unfold passedAtCommit dueAtCommit
  cases hb : x.mBack.buffer with
  | none =>
    rw [surfaceCommit_idle hb]
    rfl
  | some b =>
    cases hf : x.mFront.buffer with
    | none =>
      rw [surfaceCommit_first hx hb hf]
      exact usedHandles_dones _
    | some f =>
      rw [surfaceCommit_next hx hb hf]
      exact congrArg (f :: ·) (usedHandles_dones _)

theorem mem_usedHandles_repainted (hx : x.Consistent) :
    r ∈ usedHandles (x.repainted shm).2 ↔ r ∈ x.passedAtRepaint := by
  unfold passedAtRepaint dueAtRepaint
  cases hf : x.mFront.buffer with
  | none =>
    rw [repainted_idle hx hf]
    exact Iff.rfl
  | some f =>
    have hr : x.isReady = true := by
      rw [isReady, hx.frontReady, hf]
      rfl
    have hlock : (x.lockBuffer shm).2 =
        [.shmBufferGet (some f), .shmBufferBeginAccess (some f)] := by
      rw [lockBuffer, if_pos (show x.mFront.isReady = true from hr), hf]
    have hused : usedHandles (x.repainted shm).2 =
        [f, f, f, f] ++ x.mFront.callbackDone.toList := by
      rw [repainted, if_pos hr, hlock, unlockBuffer_shown hf, ← usedHandles_dones]
      rfl
    rw [hused]
    simp

end Surface

namespace Server

variable {s t : Server} {r : WlResource} {cs ds : List Call} {blend : Blend}

/-! ## Wrappers that are deleted -/

/-- The surfaces that a sweep for the client deletes. -/
def swept (s : Server) (c : WlClient) : List Surface :=
  (removeIf (clientTest c) [] s.mCompositor.mSurfacesList).calls

/-- The surfaces that are deleted as libwayland destroys the resource: what the sweep deletes, if it
is a binding of the compositor, and the surface that has it otherwise. -/
def deletedWith (s : Server) (r : WlResource) : List Surface :=
  (s.resource? r).elim [] fun x =>
    if x.userData = .global .compositor ∧ x.destructor = some .hookClientDisconects then
      s.swept x.client
    else s.surfaces.filter (·.mResource = r)

/-- Any other resource that is no wrapper's only goes. -/
theorem destroyResource_idle {x : Resource} (hr : s.resource? r = some x) (hhook : x.hook = none)
    (hsweeps : ¬ (x.userData = .global .compositor ∧ x.destructor = some .hookClientDisconects)) :
    s.destroyResource r = ⟨[], .ok (s.bury r)⟩ := by
  have hidle : s.runDestructor x = ⟨[], .ok s⟩ := by
    rcases runDestructor_eq s x with ⟨w, hw, -⟩ | ⟨-, heq⟩ | ⟨-, hu, -⟩
    · cases hhook.symm.trans hw
    · exact heq
    · unfold runDestructor
      rw [hu]
      split
      · next hwrapper => cases hwrapper
      · next hd _ => exact absurd ⟨hu, hd⟩ hsweeps
      · rfl
  unfold destroyResource
  simp [hr, hidle]

/-- A binding has no hook. -/
theorem hook_of_global {x : Resource} {g : Global} (hu : x.userData = .global g) :
    x.hook = none := by
  unfold Resource.hook
  rw [hu]
  split
  · next hwrapper => cases hwrapper
  · rfl

/-- **What a destruction deletes**, if it does not fault. -/
theorem Owned.calls_destroyResource (h : Owned cs s) (hd : s.destroyResource r = ⟨ds, .ok t⟩) :
    ds = deleteCalls ((s.deletedWith r).flatMap Surface.wrappers) := by
  unfold deletedWith
  cases hr : s.resource? r with
  | none =>
    unfold destroyResource at hd
    rw [hr] at hd
    cases hd
    rfl
  | some x =>
    rw [Option.elim_some]
    by_cases hsweeps : x.userData = .global .compositor ∧
        x.destructor = some .hookClientDisconects
    · rw [if_pos hsweeps]
      rw [destroy_binding hr hsweeps.1 hsweeps.2] at hd
      obtain ⟨_, u, _, hswept, hret, rfl⟩ := Exec.bind_eq_ok.mp hd
      cases hret
      obtain ⟨gone, rest, hremove, -, rfl, -⟩ := clientDisconnects_ok hswept
      rw [List.append_nil, swept, hremove]
    · rw [if_neg hsweeps]
      cases hhook : s.hook r with
      | some w =>
        have hb : s.bindingAt .compositor r = none := by
          refine Option.eq_none_iff_forall_ne_some.mpr fun c hc => ?_
          obtain ⟨y, hy, -, hu⟩ := info_eq_some.mp (bindingAt_eq.mp hc)
          rw [hook_of_resource? hy, hook_of_global hu] at hhook
          cases hhook
        obtain ⟨u, hu, -⟩ := h.destroy_other (live_of_resource? hr) hb
        exact congrArg Exec.calls (hd.symm.trans hu)
      | none =>
        have hempty : s.surfaces.filter (·.mResource = r) = [] := by
          refine List.filter_eq_nil_iff.mpr fun z hz hres => ?_
          have hw := h.hook_surface hz
          rw [of_decide_eq_true hres, hhook] at hw
          cases hw
        rw [hook_of_resource? hr] at hhook
        rw [destroyResource_idle hr hhook hsweeps] at hd
        cases hd
        rw [hempty]
        rfl

/-! ## The handles of an action -/

/-- The surface that a request on the resource is for. -/
def surfaceAt (s : Server) (r : WlResource) : Option Surface :=
  (s.wrapperAt .surface r).bind fun p => s.surface? p.1

/-- The handles that a request passes on. -/
def requestHandles (s : Server) : ClientRequest → List WlResource
  | .getShellSurface shell r =>
    if s.bindingAt .shell shell = (s.wrapperAt .surface r).map (·.2) then
      (s.surfaceAt r).elim [] fun x => x.mShellSurface.toList.map (·.mResource)
    else []
  | .surfaceAttach r b _ _ =>
    if (s.wrapperAt .surface r).any fun p => b.all (s.hasBuffer p.2) then b.toList else []
  | .surfaceCommit r => (s.surfaceAt r).elim [] Surface.passedAtCommit
  | _ => []

/-- The handles that an action passes on, if it does not fault. -/
def handles (s : Server) : LifetimeAction → List WlResource
  | .serve .repaint => s.surfaces.flatMap Surface.passedAtRepaint
  | .serve (.request q) => s.requestHandles q
  | .destroyResource r => ((s.deletedWith r).flatMap Surface.wrappers).map (·.2)
  | .teardown => s.wrappers.map (·.2)
  | _ => []

theorem usedHandles_getShellSurface {shell : WlResource}
    (h : s.getShellSurface shell r = ⟨ds, .ok t⟩) :
    usedHandles ds = s.requestHandles (.getShellSurface shell r) := by
  unfold getShellSurface at h
  show _ = if s.bindingAt .shell shell = (s.wrapperAt .surface r).map (·.2) then
    (s.surfaceAt r).elim [] fun x => x.mShellSurface.toList.map (·.mResource) else []
  unfold surfaceAt
  cases hb : s.bindingAt .shell shell with
  | none =>
    rw [hb] at h
    cases h
    cases s.wrapperAt .surface r with
    | none => rfl
    | some p => rfl
  | some c =>
    rw [hb] at h
    change s.onSurface r _ = _ at h
    unfold onSurface at h
    cases hw : s.wrapperAt .surface r with
    | none =>
      rw [hw] at h
      cases h
      rfl
    | some p =>
      rw [hw] at h
      obtain ⟨x, hx, h⟩ := (Exec.silent_ofOption _ _).bind_eq_ok.mp h
      change (if p.2 = c then s.setShellSurface x c else pure s) = _ at h
      rw [Option.bind_some, Exec.ofOption_result_ok.mp hx, Option.elim_some, Option.map_some]
      by_cases hc : p.2 = c
      · rw [if_pos hc, setShellSurface, Exec.log_bind_pure] at h
        cases h
        rw [if_pos (by rw [hc])]
        refine (usedHandles_deleteCalls _).trans ?_
        rw [List.map_map]
        rfl
      · rw [if_neg hc] at h
        cases h
        rw [if_neg fun he => hc (Option.some.inj he).symm]
        rfl

theorem usedHandles_surfaceAttach {b : Option WlResource} {x y : Int}
    (h : s.surfaceAttach r b x y = ⟨ds, .ok t⟩) :
    usedHandles ds = s.requestHandles (.surfaceAttach r b x y) := by
  unfold surfaceAttach onSurface at h
  show _ = if (s.wrapperAt .surface r).any fun p => b.all (s.hasBuffer p.2) then b.toList else []
  cases hw : s.wrapperAt .surface r with
  | none =>
    rw [hw] at h
    cases h
    rfl
  | some p =>
    rw [hw] at h
    obtain ⟨z, hz, h⟩ := (Exec.silent_ofOption _ _).bind_eq_ok.mp h
    change (if b.all (s.hasBuffer p.2) then s.performOn z (.attach b x y) else pure s) = _ at h
    rw [Option.any_some]
    split at h
    · next hb =>
      rw [performOn_eq] at h
      cases h
      rw [if_pos hb]
      show usedHandles (z.surfaceAttach s.shm b x y).2 = _
      rw [Surface.surfaceAttach_calls]
      cases b <;> rfl
    · next hb =>
      cases h
      rw [if_neg hb]
      rfl

/-- What a request passes on. -/
theorem usedHandles_request (hcons : ∀ x ∈ s.surfaces, x.Consistent) {q : ClientRequest}
    (h : s.request q = ⟨ds, .ok t⟩) : usedHandles ds = s.requestHandles q := by
  cases q with
  | getShellSurface shell r => exact usedHandles_getShellSurface h
  | surfaceAttach r b x y => exact usedHandles_surfaceAttach h
  | surfaceCommit r =>
    show _ = (s.surfaceAt r).elim [] Surface.passedAtCommit
    unfold surfaceAt
    rcases surfaceCommit_cases h with ⟨hr, rfl, -⟩ | ⟨a, c, x, hr, hx, rfl, -⟩
    · rw [hr]
      rfl
    · rw [Surface.usedHandles_surfaceCommit (hcons x (List.mem_of_find?_eq_some hx)), hr,
        Option.bind_some, hx, Option.elim_some]
  | _ =>
    have hq := Handled.eq h
    cases hq <;> rfl

theorem mem_usedHandles_repaintedCalls {shm : ShmTable} {ss : List Surface}
    (hss : ∀ x ∈ ss, x.Consistent) :
    r ∈ usedHandles (Compositor.repaintedCalls shm (ss.map some)) ↔
      r ∈ ss.flatMap Surface.passedAtRepaint := by
  induction ss with
  | nil => exact Iff.rfl
  | cons x ss ih =>
    obtain ⟨hx, hss⟩ := List.forall_mem_cons.mp hss
    have hcalls : Compositor.repaintedCalls shm ((x :: ss).map some) =
        (x.repainted shm).2 ++ Compositor.repaintedCalls shm (ss.map some) := rfl
    rw [hcalls, usedHandles_append, List.mem_append, ih hss, List.flatMap_cons, List.mem_append,
      Surface.mem_usedHandles_repainted hx]

/-- What a repaint passes on, if it does not fault. -/
theorem mem_usedHandles_repaint (hcons : ∀ x ∈ s.surfaces, x.Consistent)
    (h : s.repaint blend = ⟨ds, .ok t⟩) :
    r ∈ usedHandles ds ↔ r ∈ s.surfaces.flatMap Surface.passedAtRepaint := by
  obtain ⟨_, c, _, hrepaint, hret, rfl⟩ := Exec.bind_eq_ok.mp h
  cases hret
  obtain ⟨ss, _, bytes, _, _, hlist, -, -, rfl, -⟩ := Compositor.repaint_cases hrepaint
  obtain rfl : s.surfaces = ss := by rw [surfaces, hlist, contents_map_some]
  have hlaid : ∀ x ∈ Compositor.relaid s.mCompositor.mDisplayHeight s.surfaces, x.Consistent :=
    Compositor.forall_relaid (fun z y hz => ⟨hz.frontReady, hz.backReady, hz.filled⟩) hcons _
  have hplaced : (Compositor.relaid s.mCompositor.mDisplayHeight s.surfaces).flatMap
      Surface.passedAtRepaint = s.surfaces.flatMap Surface.passedAtRepaint := by
    rw [List.flatMap_def, List.flatMap_def, Compositor.map_relaid fun _ _ => rfl]
  rw [List.append_nil, usedHandles_append, ← hplaced, ← mem_usedHandles_repaintedCalls hlaid]
  exact iff_of_eq (congrArg (r ∈ ·) (List.append_nil _))

/-- **What an action passes to libwayland**, if it does not fault. -/
theorem Owned.mem_usedHandles (ho : Owned cs s) (hcons : ∀ x ∈ s.surfaces, x.Consistent)
    (hrun : s.running = true) {act : LifetimeAction} (h : s.lifetime blend act = ⟨ds, .ok t⟩) :
    r ∈ usedHandles ds ↔ r ∈ s.handles act := by
  unfold Server.lifetime at h
  rw [if_pos hrun] at h
  cases act with
  | serve act =>
    cases act with
    | connect =>
      cases h
      exact Iff.rfl
    | request q => exact iff_of_eq (congrArg (r ∈ ·) (usedHandles_request hcons h))
    | repaint => exact mem_usedHandles_repaint hcons h
    | move x y =>
      obtain rfl : ds = [] := (congrArg Exec.calls h).symm.trans (silent_move x y)
      exact Iff.rfl
  | destroyResource r' =>
    rw [ho.calls_destroyResource h, usedHandles_deleteCalls]
    exact Iff.rfl
  | forget c =>
    cases h
    exact Iff.rfl
  | teardown =>
    obtain ⟨_, hret, rfl⟩ := Exec.log_bind_eq_ok.mp h
    cases hret
    rw [List.append_nil, usedHandles_deleteCalls]
    show _ ↔ r ∈ s.wrappers.map (·.2)
    unfold wrappers
    simp only [List.map_append, List.mem_append]
    tauto

/-! ## Runs -/

/-- Every handle the action passes to libwayland is live. -/
def PassesLive (blend : Blend) (s : Server) (act : LifetimeAction) : Prop :=
  ∀ r ∈ usedHandles (s.lifetime blend act).calls, s.live r = true

/-- Of an action that does not fault, that is asked of the handles in the state it finds. -/
theorem Owned.passesLive_iff (ho : Owned cs s) (hcons : ∀ x ∈ s.surfaces, x.Consistent)
    {act : LifetimeAction} (h : s.lifetime blend act = ⟨ds, .ok t⟩) :
    s.PassesLive blend act ↔ (s.running = true → ∀ r ∈ s.handles act, s.live r = true) := by
  unfold PassesLive
  by_cases hrun : s.running = true
  · have hused := fun r => ho.mem_usedHandles (r := r) hcons hrun h
    rw [h]
    simp only [hused, hrun, forall_const]
  · have hcalls : (s.lifetime blend act).calls = [] := by
      unfold Server.lifetime
      rw [if_neg hrun]
      rfl
    rw [hcalls]
    exact iff_of_true (fun r hr => absurd hr List.not_mem_nil) fun hr => absurd hr hrun

/-- What holds of each surface, an action keeps, if a served one does. -/
theorem lifetime_surfaces {I : Surface → Prop} {act : LifetimeAction}
    (serve : ∀ a, act = .serve a → s.serve blend a = ⟨ds, .ok t⟩ → ∀ x ∈ t.surfaces, I x)
    (h : ∀ x ∈ s.surfaces, I x) (hstep : s.lifetime blend act = ⟨ds, .ok t⟩) :
    ∀ x ∈ t.surfaces, I x := by
  unfold Server.lifetime at hstep
  split at hstep
  · cases act with
    | serve a => exact serve a rfl hstep
    | destroyResource r =>
      rcases destroyResource_ok hstep with ⟨-, -, rfl⟩ | ⟨ps, ws, rfl, -, hps, -⟩
      · exact h
      · exact fun x hx => h x (hps x hx)
    | forget c =>
      cases hstep
      unfold forget
      split
      · exact h
      · exact h
    | teardown =>
      obtain ⟨_, hret, -⟩ := Exec.log_bind_eq_ok.mp hstep
      cases hret
      exact fun x hx => absurd hx List.not_mem_nil
  · cases hstep
    exact h

/-- In every run, the surfaces are consistent. -/
theorem consistent_of_lifetime {width height : Int} {as : List LifetimeAction}
    (h : (lifetimeMachine blend width height).Reaches as cs s) :
    ∀ x ∈ s.surfaces, x.Consistent := by
  refine h.invariant (P := fun s => ∀ x ∈ s.surfaces, x.Consistent) ?_ ?_
  · exact fun x hx => absurd hx List.not_mem_nil
  · intro s act ds t hs hstep
    exact lifetime_surfaces (fun a _ ha => consistent_serve hs ha) hs hstep

/-! ## Runs that keep the handles live -/

/-- What the server may pass on is live: the buffers that are shown, the callbacks that wait and the
resources of the wrappers. -/
structure Lively (s : Server) : Prop where
  fronts : s.FrontsLive
  callbacks : ∀ x ∈ s.surfaces, ∀ cb, x.Holds cb → s.Callback cb ∧ s.live cb = true
  wrappers : s.WrappersLive

/-- The action destroys nothing of that: no buffer that is shown, no callback that waits, and no
resource whose hook leads to a wrapper that stays. It commits no destroyed buffer, either. -/
def Cautious (s : Server) : LifetimeAction → Prop
  | .serve act => s.KeepsBuffers act
  | .destroyResource r =>
    (∀ x ∈ s.surfaces, x.mFront.buffer ≠ some r ∧ ¬ x.Holds r) ∧
      ∀ w, s.live r = true → s.hook r = some w → w.kind = .surface
  | _ => True

theorem Cautious.sparesWrappers {act : LifetimeAction} (h : s.Cautious act) :
    s.SparesWrappers act := by
  rintro r w rfl - hlive hhook
  exact h.2 w hlive hhook

theorem lively_start (width height : Int) : (start width height).Lively where
  fronts _ hb := absurd hb List.not_mem_nil
  callbacks _ hx := absurd hx List.not_mem_nil
  wrappers _ hp := absurd hp List.not_mem_nil

theorem Lively.serve (h : s.Lively) (ho : Owned cs s) (hcons : ∀ x ∈ s.surfaces, x.Consistent)
    {act : ServeAction} (ha : s.KeepsBuffers act) (hw : t.WrappersLive)
    (hstep : s.serve blend act = ⟨ds, .ok t⟩) : t.Lively where
  fronts := h.fronts.serve ho ha hstep
  callbacks y hy cb hcb := by
    rcases holds_of_serve hcons hstep y hy cb hcb with ⟨x, hx, hold⟩ | hnew
    · obtain ⟨hcallback, hlive⟩ := h.callbacks x hx cb hold
      exact ⟨(grows_serve hstep).callback hcallback, callback_lives ho hcallback hlive hstep⟩
    · exact hnew
  wrappers := hw

theorem Lively.destroyResource (h : s.Lively) (ha : s.Cautious (.destroyResource r))
    (hw : t.WrappersLive) (hstep : s.destroyResource r = ⟨ds, .ok t⟩) : t.Lively := by
  rcases destroyResource_ok hstep with ⟨-, -, rfl⟩ | ⟨ps, ws, rfl, -, hps, -⟩
  · exact h
  · have hstays : ∀ r', r' ≠ r → s.live r' = true →
        (((s.setSurfaces ps).disarm ws).bury r).live r' = true := by
      intro r' hne hlive
      rw [live_bury, live_disarm]
      exact Bool.and_eq_true_iff.mpr ⟨hlive, decide_eq_true hne⟩
    refine ⟨fun b hb => ?_, fun x hx cb hcb => ?_, hw⟩
    · obtain ⟨x, hx, hfront⟩ := mem_fronts.mp hb
      have hold : x ∈ s.surfaces := hps x hx
      refine hstays b (fun he => ?_) (h.fronts b (mem_fronts.mpr ⟨x, hold, hfront⟩))
      exact (ha.1 x hold).1 (he ▸ hfront)
    · have hold : x ∈ s.surfaces := hps x hx
      obtain ⟨hcallback, hlive⟩ := h.callbacks x hold cb hcb
      refine ⟨?_, hstays cb (fun he => (ha.1 x hold).2 (he ▸ hcb)) hlive⟩
      rw [Callback, data_bury, data_disarm]
      exact hcallback

/-- A cautious action keeps the handles live. -/
theorem Lively.lifetime (h : s.Lively) (ho : Owned cs s) (hcons : ∀ x ∈ s.surfaces, x.Consistent)
    {act : LifetimeAction} (ha : s.Cautious act) (hstep : s.lifetime blend act = ⟨ds, .ok t⟩) :
    t.Lively := by
  have hw := h.wrappers.lifetime ho ha.sparesWrappers hstep
  unfold Server.lifetime at hstep
  split at hstep
  · cases act with
    | serve act => exact h.serve ho hcons ha hw hstep
    | destroyResource r => exact h.destroyResource ha hw hstep
    | forget c =>
      cases hstep
      unfold forget
      split
      · exact ⟨h.fronts, h.callbacks, h.wrappers⟩
      · exact h
    | teardown =>
      obtain ⟨_, hret, -⟩ := Exec.log_bind_eq_ok.mp hstep
      cases hret
      exact ⟨fun _ hb => absurd hb List.not_mem_nil, fun _ hx => absurd hx List.not_mem_nil, hw⟩
  · cases hstep
    exact h

/-- **Runs of cautious actions keep the handles live.** -/
theorem reaches_lively {width height : Int} {as : List LifetimeAction}
    (ha : (lifetimeMachine blend width height).Along Cautious as)
    (h : (lifetimeMachine blend width height).Reaches as cs s) : s.Lively := by
  refine h.induct (P := fun as _ s => (lifetimeMachine blend width height).Along Cautious as →
    s.Lively) (fun _ => lively_start width height) ?_ ha
  intro as cs s act ds t hs ih hstep ha
  obtain ⟨hbefore, hnow⟩ := Machine.along_snoc.mp ha
  exact (ih hbefore).lifetime (reaches_owned hs) (consistent_of_lifetime hs) (hnow cs s hs) hstep

/-! ## The handles are live -/

theorem mem_of_surfaceAt {x : Surface} (h : s.surfaceAt r = some x) : x ∈ s.surfaces := by
  obtain ⟨_, -, hx⟩ := Option.bind_eq_some_iff.mp h
  exact List.mem_of_find?_eq_some hx

theorem Lively.front (h : s.Lively) {x : Surface} (hx : x ∈ s.surfaces)
    (hr : r ∈ x.mFront.buffer.toList) : s.live r = true :=
  h.fronts r (mem_fronts.mpr ⟨x, hx, Option.mem_toList.mp hr⟩)

theorem Lively.requestHandles (h : s.Lively) {q : ClientRequest} (hr : r ∈ s.requestHandles q) :
    s.live r = true := by
  cases q with
  | getShellSurface shell r' =>
    simp only [Server.requestHandles] at hr
    split at hr
    · cases hx : s.surfaceAt r' with
      | none =>
        rw [hx] at hr
        cases hr
      | some x =>
        rw [hx] at hr
        obtain ⟨p, hp, rfl⟩ := List.mem_map.mp hr
        refine h.wrappers p.wrapper (List.mem_append_left _ (List.mem_append_left _ ?_))
        refine List.mem_flatMap.mpr ⟨x, mem_of_surfaceAt hx, List.mem_append_left _ ?_⟩
        exact List.mem_map_of_mem hp
    · cases hr
  | surfaceAttach r' b x y =>
    simp only [Server.requestHandles] at hr
    split at hr
    · next hany =>
      obtain ⟨p, -, hp⟩ := (Option.any_eq_true _ _).mp hany
      rw [Option.mem_toList.mp hr] at hp
      obtain ⟨e, he, -⟩ := (Option.any_eq_true _ _).mp hp
      exact live_of_resource? he
    · cases hr
  | surfaceCommit r' =>
    change r ∈ (s.surfaceAt r').elim [] Surface.passedAtCommit at hr
    cases hx : s.surfaceAt r' with
    | none =>
      rw [hx] at hr
      cases hr
    | some x =>
      rw [hx, Option.elim_some, Surface.passedAtCommit] at hr
      have hmem := mem_of_surfaceAt hx
      split at hr
      · cases hr
      rcases List.mem_append.mp hr with hr | hr
      · exact h.front hmem hr
      · exact (h.callbacks x hmem r (Surface.holds_of_dueAtCommit hr)).2
  | _ => cases hr

/-- What a destruction deletes existed. -/
theorem mem_of_deletedWith {r' : WlResource} {x : Surface} (hx : x ∈ s.deletedWith r') :
    x ∈ s.surfaces := by
  unfold deletedWith at hx
  cases hr : s.resource? r' with
  | none =>
    rw [hr] at hx
    cases hx
  | some e =>
    rw [hr, Option.elim_some] at hx
    split at hx
    · have hsub := removeIf_calls (clientTest e.client) [] s.mCompositor.mSurfacesList
      exact hsub.subset hx
    · exact List.mem_of_mem_filter hx

/-- **Where they are, every handle that an action passes on is live.** -/
theorem Lively.handles (h : s.Lively) {act : LifetimeAction} (hr : r ∈ s.handles act) :
    s.live r = true := by
  cases act with
  | serve act =>
    cases act with
    | request q => exact h.requestHandles hr
    | repaint =>
      obtain ⟨x, hx, hr⟩ := List.mem_flatMap.mp hr
      rcases List.mem_append.mp hr with hr | hr
      · exact h.front hx hr
      · exact (h.callbacks x hx r (Surface.holds_of_dueAtRepaint hr)).2
    | connect => cases hr
    | move x y => cases hr
  | destroyResource r' =>
    obtain ⟨p, hp, rfl⟩ := List.mem_map.mp hr
    obtain ⟨x, hx, hpx⟩ := List.mem_flatMap.mp hp
    refine h.wrappers p (List.mem_append_left _ (List.mem_append_left _ ?_))
    exact List.mem_flatMap.mpr ⟨x, mem_of_deletedWith hx, hpx⟩
  | forget c => cases hr
  | teardown =>
    obtain ⟨p, hp, rfl⟩ := List.mem_map.mp hr
    exact h.wrappers p hp

end Server

end WaylandTest
