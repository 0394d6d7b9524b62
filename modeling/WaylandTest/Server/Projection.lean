import WaylandTest.Lib.Trace
import WaylandTest.Server.CallbackResources
import WaylandTest.Server.Sessions

/-!
# Each surface by itself

A server serves many clients with many surfaces. `surfaces_run_alone` says that what it does to each
surface, and what it sends on its behalf, is a run of the machine of a single surface: its requests
are the ones the run dispatched to it, in order, and its events are the ones the server sent for it.
So what holds of a single surface, holds of each surface of a server, whatever the other clients do,
in which order their requests come, and when resources are destroyed.

`dispatched` reads off an action which surface it is a request to. The events of a run are tagged
with the surface they are sent for; `Projects` is one step.
-/

set_option autoImplicit false

namespace WaylandTest

open Lib

/-- A surface by itself, without its handle, its client and its role. -/
def Surface.core (z : Surface) : Surface :=
  { z with mResource := 0, mClient := 0, mShellSurface := none, mDestroyListener := none }

/-- The operation is a request. -/
def SurfaceOp.isRequest : SurfaceOp → Bool
  | .attach _ _ _ => true
  | .frame _ => true
  | .commit => true
  | _ => false

/-- The request is for a surface by itself. -/
def ClientRequest.forSurface : ClientRequest → Bool
  | .surfaceAttach _ _ _ _ => true
  | .surfaceFrame _ => true
  | .surfaceCommit _ => true
  | _ => false

/-- The machine of the surface with the address `a`, by itself. -/
def aloneMachine (shm : ShmTable) (a : Address) : Machine Call Fault Surface SurfaceOp :=
  surfaceMachine shm (Surface.construct a 0 0 none)

namespace Surface

variable {shm : ShmTable} {z : Surface}

theorem fillBack_core : z.core.fillBack = (z.fillBack.1.core, z.fillBack.2) := by
  unfold fillBack
  by_cases h : z.mBuffersFilled + 1 < maxBuffers
  · simp only [core, h, if_true]
  · simp only [core, h, if_false]

theorem releaseBack_core : z.core.releaseBack = (z.releaseBack.1.core, z.releaseBack.2) := by
  unfold releaseBack
  have hback : z.core.mBack = z.mBack := rfl
  rw [hback]
  cases z.mBack.buffer <;> rfl

theorem surfaceCommit_core :
    z.core.surfaceCommit = (z.surfaceCommit.1.core, z.surfaceCommit.2) := by
  unfold surfaceCommit
  have hback : z.core.mBack = z.mBack := rfl
  have hswap : z.fillBack.1.core.swapBuffers = z.fillBack.1.swapBuffers.core := rfl
  rw [hback]
  cases z.mBack.buffer with
  | none => rfl
  | some b => simp only [fillBack_core, hswap, releaseBack_core]

/-- By itself a surface does what it does in a server. -/
theorem perform_core (shm : ShmTable) (z : Surface) (op : SurfaceOp) :
    z.core.perform shm op = ((z.perform shm op).1.core, (z.perform shm op).2) := by
  cases op with
  | attach b x y =>
    show z.core.surfaceAttach shm b x y =
      ((z.surfaceAttach shm b x y).1.core, (z.surfaceAttach shm b x y).2)
    unfold surfaceAttach
    cases shm.get b <;> rfl
  | frame cb => rfl
  | commit => exact surfaceCommit_core
  | lockBuffer => rfl
  | unlockBuffer =>
    show z.core.unlockBuffer = (z.unlockBuffer.1.core, z.unlockBuffer.2)
    unfold unlockBuffer
    have hfront : z.core.mFront = z.mFront := rfl
    rw [hfront]
    cases z.mFront.buffer <;> rfl
  | setX x => rfl
  | setY y => rfl

end Surface

theorem runFrom_core {shm : ShmTable} {a : Address} {v z : Surface} {ops : List SurfaceOp}
    {es : List Call} (h : (aloneMachine shm a).runFrom v ops = ⟨es, .ok z⟩) :
    (aloneMachine shm a).runFrom v.core ops = ⟨es, .ok z.core⟩ := by
  induction ops generalizing v es with
  | nil =>
    cases h
    rfl
  | cons op ops ih =>
    obtain ⟨_, u, ds, hu, hrest, rfl⟩ := Exec.bind_eq_ok.mp h
    cases hu
    refine Exec.bind_eq_ok.mpr ⟨_, (v.perform shm op).1.core, ds, ?_, ih hrest, rfl⟩
    show Exec.done (v.core.perform shm op) = _
    rw [Surface.perform_core]
    rfl

namespace Server

variable {s t : Server} {cs ds : List Call} {blend : Blend} {shm : ShmTable} {a : Address}
  {act : LifetimeAction}

/-- The surface that a request is for, with the operation, if a handler gets it. -/
def requested (s : Server) : ClientRequest → Option (Address × SurfaceOp)
  | .surfaceAttach r b x y =>
    (s.wrapperAt .surface r).bind fun p =>
      if b.all (s.hasBuffer p.2) then some (p.1, .attach b x y) else none
  | .surfaceFrame r =>
    (s.wrapperAt .surface r).map fun p => (p.1, .frame (some s.resources.length))
  | .surfaceCommit r => (s.wrapperAt .surface r).map fun p => (p.1, .commit)
  | _ => none

/-- The surface that an action is a request for, with the operation. -/
def dispatched (s : Server) : LifetimeAction → List (Address × SurfaceOp)
  | .serve (.request q) => if s.running then (s.requested q).toList else []
  | _ => []

/-- The table has the buffers that were made so far. -/
def Agrees (shm : ShmTable) (s : Server) : Prop :=
  ∀ r u, s.data r = some u → shm r = s.shm r

/-- The handles go on to stand for what they stand for. -/
def Keeps (s t : Server) : Prop := ∀ r u, s.data r = some u → t.data r = some u

/-- **One step** from `s` to `t` with the requests `reqs` and the events `log`, as each surface sees
it: it is made, or it performs operations of its own. The requests among them are the ones for it,
and the events they send are those with its tag. A surface that is not there gets and sends
nothing. -/
structure Projects (shm : ShmTable) (s t : Server) (reqs : List (Address × SurfaceOp))
    (log : List (Address × Event)) : Prop where
  next : s.nextAddress ≤ t.nextAddress
  each : ∀ w ∈ t.surfaces,
    (w.core = Surface.construct s.nextAddress 0 0 none ∧ untag w.this log = [] ∧
      untag w.this reqs = []) ∨
    ∃ v ∈ s.surfaces, v.this = w.this ∧ ∃ ops es,
      (aloneMachine shm w.this).runFrom v.core ops = ⟨es, .ok w.core⟩ ∧
        wireEvents es = untag w.this log ∧ ops.filter (·.isRequest) = untag w.this reqs
  others : ∀ a, (∀ w ∈ t.surfaces, w.this ≠ a) → untag a log = [] ∧ untag a reqs = []

/-! ## The table of buffers -/

theorem shm_of_data {r : WlResource} (h : t.data r = s.data r) : t.shm r = s.shm r := by
  unfold data at h
  unfold Server.shm
  cases ht : t.resources[r]? with
  | none =>
    cases hs : s.resources[r]? with
    | none => rfl
    | some x => simp [ht, hs] at h
  | some y =>
    cases hs : s.resources[r]? with
    | none => simp [ht, hs] at h
    | some x =>
      simp only [ht, hs, Option.map_some, Option.some.injEq] at h
      simp only [Option.bind_some, h]

theorem Agrees.earlier (h : Agrees shm t) (hst : s.Keeps t) : Agrees shm s := by
  intro r u hr
  rw [h r u (hst r u hr)]
  exact shm_of_data ((hst r u hr).trans hr.symm)

theorem Grows.keeps (h : s.Grows t) : s.Keeps t := by
  intro r u hr
  rcases h r with hdata | ⟨hnone, -⟩
  · exact hdata.trans hr
  · cases hnone.symm.trans hr

/-- No action changes what a handle stands for. -/
theorem Owned.keeps_lifetime (ho : Owned cs s) (hstep : s.lifetime blend act = ⟨ds, .ok t⟩) :
    s.Keeps t := by
  have hsame : ∀ {t : Server}, (∀ r, t.data r = s.data r) → s.Keeps t := fun h r u hr =>
    (h r).trans hr
  unfold Server.lifetime at hstep
  split at hstep
  · cases act with
    | serve a => exact (grows_serve hstep).keeps
    | destroyResource r =>
      rcases destroyResource_ok hstep with ⟨-, -, rfl⟩ | ⟨ps, ws, rfl, -, -, -⟩
      · exact hsame fun _ => rfl
      · exact hsame fun r => data_bury.trans data_disarm
    | forget c =>
      cases hstep
      unfold forget
      split
      · exact hsame fun _ => rfl
      · exact hsame fun _ => rfl
    | teardown =>
      obtain ⟨_, hret, -⟩ := Exec.log_bind_eq_ok.mp hstep
      cases hret
      exact hsame fun r => data_disarm
  · cases hstep
    exact hsame fun _ => rfl

/-- A request to attach a buffer finds the buffer in the table. -/
theorem Agrees.attach (h : Agrees shm s) {c : WlClient} {b : Option WlResource}
    (hb : b.all (s.hasBuffer c) = true) (x y : Int) (z : Surface) :
    z.perform s.shm (.attach b x y) = z.perform shm (.attach b x y) := by
  have hget : s.shm.get b = shm.get b := by
    cases b with
    | none => rfl
    | some r =>
      obtain ⟨e, he, -⟩ := (Option.any_eq_true _ _).mp hb
      have hdata : s.data r = some e.userData := by
        unfold data
        rw [(resource?_eq_some.mp he).1, Option.map_some]
      exact (h r _ hdata).symm
  show z.surfaceAttach s.shm b x y = z.surfaceAttach shm b x y
  unfold Surface.surfaceAttach
  rw [hget]

/-! ## Steps -/

/-- A step that only takes surfaces away, or changes what is not theirs alone. -/
theorem projects_same (next : s.nextAddress ≤ t.nextAddress)
    (h : ∀ w ∈ t.surfaces, ∃ v ∈ s.surfaces, v.this = w.this ∧ v.core = w.core) :
    Projects shm s t [] [] where
  next := next
  each w hw := by
    obtain ⟨v, hv, hthis, hcore⟩ := h w hw
    refine .inr ⟨v, hv, hthis, [], [], ?_, rfl, rfl⟩
    rw [hcore]
    rfl
  others _ _ := ⟨rfl, rfl⟩

theorem projects_surfaces (next : s.nextAddress ≤ t.nextAddress) (h : t.surfaces = s.surfaces) :
    Projects shm s t [] [] :=
  projects_same next fun w hw => ⟨w, h ▸ hw, rfl, rfl⟩

/-- A request that reaches a surface. -/
theorem projects_perform (ho : Owned cs s) {x : Surface} (hx : x ∈ s.surfaces) {op : SurfaceOp}
    (hreq : op.isRequest = true) (hagree : ∀ z : Surface, z.perform s.shm op = z.perform shm op)
    (next : s.nextAddress ≤ t.nextAddress)
    (ht : t.surfaces =
      s.surfaces.map fun z => if z.this = x.this then (z.perform s.shm op).1 else z) :
    Projects shm s t [(x.this, op)] ((wireEvents (x.perform s.shm op).2).map (Prod.mk x.this)) where
  next := next
  each w hw := by
    have hone := untag_tagged (i := x.this) x.this [op]
    rw [if_pos rfl] at hone
    rw [ht] at hw
    obtain ⟨v, hv, rfl⟩ := List.mem_map.mp hw
    by_cases hthis : v.this = x.this
    · obtain rfl : v = x := List.inj_on_of_nodup_map ho.nodup_surfaces hv hx hthis
      have hkeep : (v.perform s.shm op).1.this = v.this :=
        Surface.this_of_identity (Surface.identity_perform op)
      simp only [if_true, hkeep]
      refine .inr ⟨v, hx, rfl, [op], (v.perform shm op).2, ?_, ?_, ?_⟩
      · apply runFrom_core
        apply Machine.runFrom_singleton.mpr
        rw [hagree]
        rfl
      · rw [untag_tagged, if_pos rfl, hagree]
      · rw [List.filter_singleton, hreq]
        exact hone.symm
    · have hne : x.this ≠ v.this := fun h => hthis h.symm
      simp only [if_neg hthis]
      refine .inr ⟨v, hv, rfl, [], [], rfl, ?_, ?_⟩
      · rw [untag_tagged, if_neg hne]
        rfl
      · exact (untag_eq_nil fun e he => List.mem_singleton.mp he ▸ hne).symm
  others a ha := by
    have hkeep : (x.perform s.shm op).1.this = x.this :=
      Surface.this_of_identity (Surface.identity_perform op)
    have hmem : (x.perform s.shm op).1 ∈ t.surfaces := by
      rw [ht]
      exact List.mem_map.mpr ⟨x, hx, if_pos rfl⟩
    have hne : x.this ≠ a := fun h => ha _ hmem (hkeep.trans h)
    rw [untag_tagged, if_neg hne]
    exact ⟨rfl, untag_eq_nil fun e he => List.mem_singleton.mp he ▸ hne⟩

/-- A handler of a surface that does not fault drops the request, or gets the surface. -/
theorem onSurface_cases {r : WlResource} {handler : Surface → WlClient → Exec Call Fault Server}
    (h : s.onSurface r handler = ⟨ds, .ok t⟩) :
    (s.wrapperAt .surface r = none ∧ ds = [] ∧ t = s) ∨
      ∃ x c, x ∈ s.surfaces ∧ s.wrapperAt .surface r = some (x.this, c) ∧
        handler x c = ⟨ds, .ok t⟩ := by
  unfold onSurface at h
  cases hr : s.wrapperAt .surface r with
  | none =>
    rw [hr] at h
    cases h
    exact .inl ⟨rfl, rfl, rfl⟩
  | some p =>
    obtain ⟨a, c⟩ := p
    rw [hr] at h
    obtain ⟨x, hx, h⟩ := (Exec.silent_ofOption _ _).bind_eq_ok.mp h
    have hfound : s.surface? a = some x := Exec.ofOption_result_ok.mp hx
    refine .inr ⟨x, c, List.mem_of_find?_eq_some hfound, ?_, h⟩
    rw [surface?_this hfound]

/-- The events of a step, tagged with the surfaces they are for. -/
def Tagged (shm : ShmTable) (s t : Server) (reqs : List (Address × SurfaceOp)) (ds : List Call) :
    Prop :=
  ∃ log, log.map Prod.snd = wireEvents ds ∧ Projects shm s t reqs log

theorem tagged_dropped (hds : wireEvents ds = []) (next : s.nextAddress ≤ t.nextAddress)
    (h : t.surfaces = s.surfaces) : Tagged shm s t [] ds :=
  ⟨[], hds.symm, projects_surfaces next h⟩

theorem tagged_perform (ho : Owned cs s) {x : Surface} (hx : x ∈ s.surfaces) {op : SurfaceOp}
    (hreq : op.isRequest = true) (hagree : ∀ z : Surface, z.perform s.shm op = z.perform shm op)
    (next : s.nextAddress ≤ t.nextAddress)
    (ht : t.surfaces =
      s.surfaces.map fun z => if z.this = x.this then (z.perform s.shm op).1 else z) :
    Tagged shm s t [(x.this, op)] (x.perform s.shm op).2 := by
  refine ⟨_, ?_, projects_perform ho hx hreq hagree next ht⟩
  rw [List.map_map]
  exact List.map_id _

/-- The new surface has a new address. -/
theorem projects_surfaceCreated (c : WlClient) :
    Projects shm s ((s.create .surface c).setSurfaces (s.mCompositor.mSurfacesList ++
      [some (Surface.construct s.nextAddress s.resources.length c (some .compositor))])) [] [] where
  next := Nat.le_succ _
  each w hw := by
    rcases List.mem_append.mp (mem_contents.mp hw) with hw | hw
    · exact .inr ⟨w, mem_contents.mpr hw, rfl, [], [], rfl, rfl, rfl⟩
    · cases List.mem_singleton.mp hw
      exact .inl ⟨rfl, rfl, rfl⟩
  others _ _ := ⟨rfl, rfl⟩

theorem wireEvents_deleteCalls (ws : List (Wrapper × WlResource)) :
    wireEvents (deleteCalls ws) = [] := by
  induction ws with
  | nil => rfl
  | cons w ws ih => exact ih

/-- A request that is for no surface by itself. -/
theorem tagged_other {q : ClientRequest} (hq : q.forSurface = false)
    (h : Handled s q ⟨ds, .ok t⟩) : Tagged shm s t [] ds := by
  cases h with
  | ignored => exact tagged_dropped rfl (Nat.le_refl _) rfl
  | bound g hc => exact tagged_dropped rfl (Nat.le_refl _) rfl
  | surfaceCreated hr => exact ⟨[], rfl, projects_surfaceCreated _⟩
  | regionCreated hr => exact tagged_dropped rfl (Nat.le_succ _) rfl
  | pointerCreated hr => exact tagged_dropped rfl (Nat.le_succ _) rfl
  | @shellSurfaceSet _ _ _ x c hx =>
    refine ⟨[], (wireEvents_deleteCalls _).symm, projects_same (Nat.le_succ _) fun w hw => ?_⟩
    have hw' : w ∈ (s.updateSurface x.this fun y =>
      { y with mShellSurface := some ⟨s.nextAddress, s.resources.length⟩ }).surfaces := hw
    rw [surfaces_updateSurface] at hw'
    obtain ⟨v, hv, rfl⟩ := List.mem_map.mp hw'
    refine ⟨v, hv, ?_⟩
    split
    · exact ⟨rfl, rfl⟩
    · exact ⟨rfl, rfl⟩
  | cursorSet hps => exact tagged_dropped rfl (Nat.le_refl _) rfl
  | attached x y hz hb => cases hq
  | framed c hz => cases hq
  | committed hr hz => cases hq
  | bufferCreated b hc => exact tagged_dropped rfl (Nat.le_refl _) rfl
  | bufferDestroyed hr => exact tagged_dropped rfl (Nat.le_refl _) rfl

/-- A request, as the surfaces see it. -/
theorem tagged_request (ho : Owned cs s) (hshm : Agrees shm s) {q : ClientRequest}
    (hstep : s.request q = ⟨ds, .ok t⟩) : Tagged shm s t (s.requested q).toList ds := by
  cases q with
  | surfaceAttach r b x y =>
    rcases onSurface_cases hstep with ⟨hr, rfl, rfl⟩ | ⟨z, c, hz, hr, hdo⟩
    · simp only [requested, hr, Option.bind_none, Option.toList_none]
      exact tagged_dropped rfl (Nat.le_refl _) rfl
    · simp only [requested, hr, Option.bind_some]
      by_cases hb : b.all (s.hasBuffer c) = true
      · rw [if_pos hb, performOn_eq] at hdo
        cases hdo
        rw [if_pos hb]
        exact tagged_perform ho hz rfl (hshm.attach hb x y) (Nat.le_refl _) surfaces_updateSurface
      · rw [if_neg hb] at hdo
        cases hdo
        rw [if_neg hb]
        exact tagged_dropped rfl (Nat.le_refl _) rfl
  | surfaceFrame r =>
    rcases onSurface_cases hstep with ⟨hr, rfl, rfl⟩ | ⟨z, c, hz, hr, hdo⟩
    · simp only [requested, hr, Option.map_none, Option.toList_none]
      exact tagged_dropped rfl (Nat.le_refl _) rfl
    · simp only [requested, hr, Option.map_some, Option.toList_some]
      rw [performOn_eq] at hdo
      cases hdo
      refine tagged_perform ho hz ?_ (fun _ => rfl) (Nat.le_refl _) surfaces_updateSurface
      rfl
  | surfaceCommit r =>
    rcases onSurface_cases hstep with ⟨hr, rfl, rfl⟩ | ⟨z, c, hz, hr, hdo⟩
    · simp only [requested, hr, Option.map_none, Option.toList_none]
      exact tagged_dropped rfl (Nat.le_refl _) rfl
    · simp only [requested, hr, Option.map_some, Option.toList_some]
      rw [performOn_eq] at hdo
      cases hdo
      refine tagged_perform ho hz ?_ (fun _ => rfl) (Nat.le_refl _) surfaces_updateSurface
      rfl
  | _ => exact tagged_other rfl (.eq hstep)

/-! ## Repaints and moves -/

/-- A surface of a layout is one of the list, at some height. -/
theorem mem_relaid {displayHeight : Int} {ss : List Surface} {z : Surface}
    (hz : z ∈ Compositor.relaid displayHeight ss) : ∃ v ∈ ss, ∃ y, z = v.setY y := by
  unfold Compositor.relaid at hz
  split at hz
  · exact ⟨z, hz, z.mY, rfl⟩
  · obtain ⟨v, hv, y, rfl | rfl⟩ := Compositor.mem_placed hz
    · exact ⟨z, hv, z.mY, rfl⟩
    · exact ⟨v, hv, y, rfl⟩

/-- What a repaint does to a surface, as operations of its own. -/
def repaintOps (v : Surface) (y : Int) : List SurfaceOp :=
  .setY y :: if v.isReady then [.lockBuffer, .unlockBuffer] else []

theorem filter_repaintOps (v : Surface) (y : Int) :
    (repaintOps v y).filter (·.isRequest) = [] := by
  unfold repaintOps
  split <;> rfl

theorem runFrom_repaintOps (shm shm' : ShmTable) (a : Address) (v : Surface) (y : Int) :
    (aloneMachine shm a).runFrom v (repaintOps v y) =
      ⟨((v.setY y).repainted shm').2, .ok ((v.setY y).repainted shm').1⟩ := by
  have hready : (v.setY y).isReady = v.isReady := rfl
  unfold repaintOps Surface.repainted
  rw [hready]
  by_cases h : v.isReady = true
  · have hlock : ((v.setY y).lockBuffer shm').2 = ((v.setY y).lockBuffer shm).2 := by
      unfold Surface.lockBuffer
      split <;> rfl
    have hcalls : ([] : List Call) ++ (((v.setY y).lockBuffer shm).2 ++
        ((v.setY y).unlockBuffer.2 ++ [])) =
        ((v.setY y).lockBuffer shm).2 ++ (v.setY y).unlockBuffer.2 := by
      rw [List.nil_append, List.append_nil]
    rw [if_pos h, if_pos h, hlock, ← hcalls]
    rfl
  · rw [if_neg h, if_neg h]
    rfl

theorem events_repaintedCalls (shm : ShmTable) (ss : List Surface) :
    wireEvents (Compositor.repaintedCalls shm (ss.map some)) =
      ss.flatMap fun z => wireEvents (z.repainted shm).2 := by
  unfold Compositor.repaintedCalls wireEvents
  rw [List.flatMap_map, List.filterMap_flatMap]
  rfl

/-- A repaint, as the surfaces see it: each is placed, and locked and unlocked if it is ready. -/
theorem tagged_repaint (ho : Owned cs s) (hstep : s.repaint blend = ⟨ds, .ok t⟩) :
    Tagged shm s t [] ds := by
  obtain ⟨_, c, _, hrepaint, hret, rfl⟩ := Exec.bind_eq_ok.mp hstep
  cases hret
  obtain ⟨ss, _, bytes, _, _, hlist, -, -, rfl, rfl⟩ := Compositor.repaint_cases hrepaint
  obtain rfl : s.surfaces = ss := by rw [surfaces, hlist, contents_map_some]
  obtain ⟨laid, hlaid⟩ : ∃ laid, laid = Compositor.relaid s.mCompositor.mDisplayHeight s.surfaces :=
    ⟨_, rfl⟩
  have hthis : ∀ z : Surface, (z.repainted s.shm).1.this = z.this := fun z =>
    Surface.this_of_identity Surface.identity_repainted
  have hnodup : (laid.map (·.this)).Nodup := by
    rw [hlaid, Compositor.map_relaid fun _ _ => rfl]
    exact ho.nodup_surfaces
  refine ⟨laid.flatMap fun z => (wireEvents (z.repainted s.shm).2).map (Prod.mk z.this), ?_, ?_⟩
  · rw [map_flatMap_tagged, ← hlaid, List.append_nil, wireEvents_append, events_repaintedCalls]
    exact (List.append_nil _).symm
  · have ht : ∀ w, w ∈ Server.surfaces { s with
        mCompositor := { s.mCompositor with
          mSurfacesList := ((Compositor.relaid s.mCompositor.mDisplayHeight s.surfaces).map
            some).map (Option.map fun z => (z.repainted s.shm).1)
          mDisplayBuffer := bytes } } ↔ ∃ z ∈ laid, (z.repainted s.shm).1 = w := by
      intro w
      show w ∈ contents (List.map _ (List.map some _)) ↔ _
      rw [contents_map, contents_map_some, ← hlaid, List.mem_map]
    refine ⟨Nat.le_refl _, fun w hw => ?_, fun a ha => ⟨untag_eq_nil fun e he heq => ?_, rfl⟩⟩
    · obtain ⟨z, hz, rfl⟩ := (ht w).mp hw
      obtain ⟨v, hv, y, rfl⟩ := mem_relaid (hlaid ▸ hz)
      refine .inr ⟨v, hv, (hthis (v.setY y)).symm, repaintOps v y, _,
        runFrom_core (runFrom_repaintOps shm s.shm _ v y), ?_, filter_repaintOps v y⟩
      rw [hthis]
      exact (untag_flatMap (f := fun z => wireEvents (z.repainted s.shm).2) hnodup hz).symm
    · obtain ⟨z, hz, hze⟩ := List.mem_flatMap.mp he
      obtain ⟨ev, -, rfl⟩ := List.mem_map.mp hze
      exact ha _ ((ht _).mpr ⟨z, hz, rfl⟩) ((hthis z).trans heq)

/-- A move, as the surfaces see it: some are placed. -/
theorem tagged_move {x y : Int} (hstep : s.move x y = ⟨ds, .ok t⟩) : Tagged shm s t [] ds := by
  have hplaced : t.nextAddress = s.nextAddress ∧ ∀ w ∈ t.surfaces, ∃ v ∈ s.surfaces,
      v.this = w.this ∧ ∃ ops es, (aloneMachine shm w.this).runFrom v ops = ⟨es, .ok w⟩ ∧
        wireEvents es = [] ∧ ops.filter (·.isRequest) = [] := by
    refine move_induct (I := fun u => u.nextAddress = s.nextAddress ∧ ∀ w ∈ u.surfaces,
      ∃ v ∈ s.surfaces, v.this = w.this ∧ ∃ ops es, (aloneMachine shm w.this).runFrom v ops =
        ⟨es, .ok w⟩ ∧ wireEvents es = [] ∧ ops.filter (·.isRequest) = []) ?_ ?_ hstep
    · intro u a x y hu
      refine ⟨hu.1, fun w hw => ?_⟩
      rw [surfaces_updateSurface] at hw
      obtain ⟨z, hz, rfl⟩ := List.mem_map.mp hw
      obtain ⟨v, hv, hthis, ops, es, hrun, hquiet, hops⟩ := hu.2 z hz
      split
      · refine ⟨v, hv, hthis, ops ++ [.setX x, .setY y], es ++ [], ?_, ?_, ?_⟩
        · exact Machine.runFrom_append.mpr ⟨es, z, [], hrun, rfl, rfl⟩
        · rw [List.append_nil, hquiet]
        · rw [List.filter_append, hops]
          rfl
      · exact ⟨v, hv, hthis, ops, es, hrun, hquiet, hops⟩
    · exact ⟨rfl, fun w hw => ⟨w, hw, rfl, [], [], rfl, rfl, rfl⟩⟩
  obtain rfl : ds = [] := (congrArg Exec.calls hstep).symm.trans (silent_move x y)
  refine ⟨[], rfl, Nat.le_of_eq hplaced.1.symm, fun w hw => ?_, fun _ _ => ⟨rfl, rfl⟩⟩
  obtain ⟨v, hv, hthis, ops, es, hrun, hquiet, hops⟩ := hplaced.2 w hw
  exact .inr ⟨v, hv, hthis, ops, es, runFrom_core hrun, hquiet, hops⟩

/-- **One action**, as the surfaces see it. -/
theorem Owned.tagged_lifetime (ho : Owned cs s) (hshm : Agrees shm s)
    (hstep : s.lifetime blend act = ⟨ds, .ok t⟩) : Tagged shm s t (s.dispatched act) ds := by
  unfold Server.lifetime at hstep
  by_cases hrun : s.running = true
  · rw [if_pos hrun] at hstep
    cases act with
    | serve a =>
      cases a with
      | connect =>
        cases hstep
        exact tagged_dropped rfl (Nat.le_refl _) rfl
      | request q =>
        simp only [dispatched, hrun, if_true]
        exact tagged_request ho hshm hstep
      | repaint => exact tagged_repaint ho hstep
      | move x y => exact tagged_move hstep
    | destroyResource r =>
      rcases destroyResource_ok hstep with ⟨-, rfl, rfl⟩ | ⟨ps, ws, rfl, rfl, hps, -⟩
      · exact tagged_dropped rfl (Nat.le_refl _) rfl
      · exact ⟨[], (wireEvents_deleteCalls ws).symm,
          projects_same (Nat.le_refl _) fun w hw => ⟨w, hps w hw, rfl, rfl⟩⟩
    | forget c =>
      cases hstep
      unfold forget
      split
      · exact tagged_dropped rfl (Nat.le_refl _) rfl
      · exact tagged_dropped rfl (Nat.le_refl _) rfl
    | teardown =>
      obtain ⟨_, hret, rfl⟩ := Exec.log_bind_eq_ok.mp hstep
      cases hret
      rw [List.append_nil]
      refine ⟨[], (wireEvents_deleteCalls _).symm, projects_same (Nat.le_refl _) fun w hw => ?_⟩
      cases hw
  · rw [if_neg hrun] at hstep
    cases hstep
    have hnone : s.dispatched act = [] := by
      unfold dispatched
      split
      · exact if_neg hrun
      · rfl
    rw [hnone]
    exact tagged_dropped rfl (Nat.le_refl _) rfl

/-! ## Runs -/

/-- The history of the surface with the address `a`: the operations `ops` with the calls `ds`, which
made it what it is. An address that no object has yet has no history. -/
structure History (shm : ShmTable) (s : Server) (a : Address) (reqs : List SurfaceOp)
    (events : List Event) (ops : List SurfaceOp) (ds : List Call) (z : Surface) : Prop where
  alone : (aloneMachine shm a).Reaches ops ds z
  requests : ops.filter (·.isRequest) = reqs
  sent : wireEvents ds = events
  now : ∀ w ∈ s.surfaces, w.this = a → w.core = z
  unborn : s.nextAddress ≤ a → ops = []

theorem Owned.surface_lt (ho : Owned cs s) {w : Surface} (hw : w ∈ s.surfaces) :
    w.this < s.nextAddress :=
  ho.ledger.numbered _ (List.mem_append_right _ (List.mem_map.mpr ⟨_, wrapper_of_surface hw, rfl⟩))

/-- One step goes on with every history. -/
theorem History.step {reqs : List SurfaceOp} {events : List Event} {ops : List SurfaceOp}
    {es : List Call} {z : Surface} {news : List (Address × SurfaceOp)}
    {log : List (Address × Event)} (h : History shm s a reqs events ops es z)
    (ht : Owned (cs ++ ds) t) (hp : Projects shm s t news log) :
    ∃ ops' es' z', History shm t a (reqs ++ untag a news) (events ++ untag a log) ops' es' z' := by
  by_cases hexists : ∃ w ∈ t.surfaces, w.this = a
  · obtain ⟨w, hw, rfl⟩ := hexists
    have honly : ∀ w' ∈ t.surfaces, w'.this = w.this → w' = w := fun w' hw' heq =>
      List.inj_on_of_nodup_map ht.nodup_surfaces hw' hw heq
    have hborn : ¬ t.nextAddress ≤ w.this := Nat.not_le.mpr (ht.surface_lt hw)
    rcases hp.each w hw with ⟨hnew, hlog, hnews⟩ | ⟨v, hv, hthis, ops', es', hrun, hsent, hreqs⟩
    · have hthis : w.this = s.nextAddress := congrArg Surface.this hnew
      obtain rfl := h.unborn (Nat.le_of_eq hthis.symm)
      obtain ⟨rfl, rfl⟩ := Machine.reaches_nil.mp h.alone
      rw [hlog, hnews, List.append_nil, List.append_nil]
      refine ⟨[], [], _, h.alone, h.requests, h.sent, fun w' hw' heq => ?_, fun _ => rfl⟩
      rw [honly w' hw' heq, hnew, ← hthis]
      rfl
    · have hnow : v.core = z := h.now v hv hthis
      refine ⟨ops ++ ops', es ++ es', w.core, ?_, ?_, ?_, fun w' hw' heq => ?_,
        fun hle => absurd hle hborn⟩
      · exact Machine.runFrom_append.mpr ⟨es, z, es', h.alone, hnow ▸ hrun, rfl⟩
      · rw [List.filter_append, h.requests, hreqs]
      · rw [wireEvents_append, h.sent, hsent]
      · rw [honly w' hw' heq]
  · have hnone : ∀ w ∈ t.surfaces, w.this ≠ a := fun w hw heq => hexists ⟨w, hw, heq⟩
    obtain ⟨hlog, hnews⟩ := hp.others a hnone
    rw [hlog, hnews, List.append_nil, List.append_nil]
    exact ⟨ops, es, z, h.alone, h.requests, h.sent, fun w hw heq => absurd heq (hnone w hw),
      fun hle => h.unborn (Nat.le_trans hp.next hle)⟩

/-- **Every address has its history** in every run. -/
theorem reaches_history {width height : Int} {as : List LifetimeAction}
    (h : (lifetimeMachine blend width height).Reaches as cs s) (hshm : Agrees shm s) :
    ∃ log, log.map Prod.snd = wireEvents cs ∧ ∀ a, ∃ ops ds z, History shm s a
      (untag a ((lifetimeMachine blend width height).trace dispatched as)) (untag a log) ops ds
      z := by
  refine h.induct (P := fun as cs s => Agrees shm s → ∃ log, log.map Prod.snd = wireEvents cs ∧
    ∀ a, ∃ ops ds z, History shm s a
      (untag a ((lifetimeMachine blend width height).trace dispatched as)) (untag a log) ops ds z)
    ?_ ?_ hshm
  · intro _
    refine ⟨[], rfl, fun a => ⟨[], [], _, rfl, rfl, rfl, fun w hw => ?_, fun _ => rfl⟩⟩
    cases hw
  · intro as cs s act ds t hs ih hstep ht
    have ho := reaches_owned hs
    have hagrees := ht.earlier (ho.keeps_lifetime hstep)
    obtain ⟨log, hlog, hall⟩ := ih hagrees
    obtain ⟨new, hnew, hp⟩ := ho.tagged_lifetime hagrees hstep
    refine ⟨log ++ new, ?_, fun a => ?_⟩
    · rw [List.map_append, hlog, hnew, wireEvents_append]
    · obtain ⟨ops, es, z, hz⟩ := hall a
      rw [Machine.trace_snoc hs, untag_append, untag_append]
      exact hz.step (ho.lifetime hstep) hp

end Server

open Server

/-- **Each surface runs as if it were alone.** In every run in which clients use the server, the
timer repaints, the pointer moves and libwayland destroys resources, the events the server sends can
be tagged with surfaces, so that for every address there is a run of a single surface: its requests
are those the server dispatched to the surface at that address, in order; its events are those
tagged with it, in order; and it ends in the surface as it is, if the surface still exists. -/
theorem surfaces_run_alone (blend : Blend) (width height : Int) (as : List LifetimeAction)
    (cs : List Call) (s : Server) (h : (lifetimeMachine blend width height).Reaches as cs s) :
    ∃ log : List (Address × Event), log.map Prod.snd = wireEvents cs ∧ ∀ a, ∃ ops ds z,
      (aloneMachine s.shm a).Reaches ops ds z ∧
        ops.filter (·.isRequest) =
          untag a ((lifetimeMachine blend width height).trace dispatched as) ∧
        wireEvents ds = untag a log ∧ ∀ w ∈ s.surfaces, w.this = a → w.core = z := by
  obtain ⟨log, hlog, hall⟩ := reaches_history h fun _ _ _ => rfl
  refine ⟨log, hlog, fun a => ?_⟩
  obtain ⟨ops, ds, z, hz⟩ := hall a
  exact ⟨ops, ds, z, hz.alone, hz.requests, hz.sent, hz.now⟩

/-- Two clients with a surface each; the second one's is destroyed in the end. -/
def twoFramed : List LifetimeAction :=
  [.serve .connect, .serve .connect, .serve (.request (.bind 0 .compositor)),
    .serve (.request (.bind 1 .compositor)), .serve (.request (.createSurface 0)),
    .serve (.request (.createSurface 1)),
    .serve (.request (.createBuffer 0 (some ⟨1, 1, 4, .argb8888, [1, 2, 3, 4]⟩))),
    .serve (.request (.createBuffer 1 (some ⟨1, 1, 4, .argb8888, [5, 6, 7, 8]⟩))),
    .serve (.request (.surfaceFrame 2)), .serve (.request (.surfaceFrame 3)),
    .serve (.request (.surfaceAttach 3 (some 5) 0 0)),
    .serve (.request (.surfaceAttach 2 (some 4) 0 0)), .serve (.request (.surfaceCommit 3)),
    .serve (.request (.surfaceCommit 2)), .destroyResource 3]

theorem surfaces_run_alone_twoFramed :
    ∃ cs s, (lifetimeMachine integerBlend 1 1).Reaches twoFramed cs s ∧
      wireEvents cs = [.done 7, .done 6] ∧
      ∃ log : List (Address × Event), log.map Prod.snd = wireEvents cs ∧ ∀ a, ∃ ops ds z,
        (aloneMachine s.shm a).Reaches ops ds z ∧
          ops.filter (·.isRequest) =
            untag a ((lifetimeMachine integerBlend 1 1).trace dispatched twoFramed) ∧
          wireEvents ds = untag a log ∧ ∀ w ∈ s.surfaces, w.this = a → w.core = z :=
  ⟨_, _, rfl, rfl, surfaces_run_alone integerBlend 1 1 twoFramed _ _ rfl⟩

end WaylandTest
