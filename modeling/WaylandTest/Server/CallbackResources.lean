import WaylandTest.Server.EachSurface
import WaylandTest.Server.FrameCallbacks

/-!
# Callback resources are never destroyed

A frame request makes a `wl_callback` resource. Its `done` is sent by a commit or a repaint
(`answered_serve` says which one each of them sends), but nothing destroys the resource: in every
state of a run all of them are live (`Calling.live`). So the live ones are those that are not
answered only as long as none is answered at all (`callbacks_reclaimed_iff`).
-/

set_option autoImplicit false

namespace WaylandTest

open Lib

namespace Surface

variable {x : Surface} {shm : ShmTable}

/-- The callback that a commit answers. -/
def dueAtCommit (x : Surface) : List WlResource :=
  if x.mBack.buffer = none then []
  else if x.mFront.buffer = none then x.mBack.callbackDone.toList
  else x.mFront.callbackDone.toList

/-- The callback that a repaint answers. -/
def dueAtRepaint (x : Surface) : List WlResource :=
  if x.mFront.buffer = none then [] else x.mFront.callbackDone.toList

theorem answered_surfaceCommit (hx : x.Consistent) :
    answered x.surfaceCommit.2 = x.dueAtCommit := by
  unfold dueAtCommit
  cases hb : x.mBack.buffer with
  | none =>
    rw [surfaceCommit_idle hb]
    rfl
  | some b =>
    cases hf : x.mFront.buffer with
    | none =>
      rw [surfaceCommit_first hx hb hf]
      exact x.mBack.answered_sendDone
    | some f =>
      rw [surfaceCommit_next hx hb hf]
      exact x.mFront.answered_sendDone

theorem answered_repainted (hx : x.Consistent) :
    answered (x.repainted shm).2 = x.dueAtRepaint := by
  unfold dueAtRepaint
  cases hf : x.mFront.buffer with
  | none =>
    rw [repainted_idle hx hf]
    rfl
  | some f =>
    have hr : x.isReady = true := by rw [isReady, hx.frontReady, hf]; rfl
    have hlock : answered (x.lockBuffer shm).2 = [] := by
      unfold lockBuffer
      split <;> rfl
    rw [repainted, if_pos hr, answered_append, hlock, unlockBuffer_shown hf]
    exact x.mFront.answered_sendDone

/-- The surface holds the callback. -/
def Holds (x : Surface) (cb : WlResource) : Prop :=
  x.mFront.callbackDone = some cb ∨ x.mBack.callbackDone = some cb

instance (x : Surface) (cb : WlResource) : Decidable (x.Holds cb) :=
  inferInstanceAs (Decidable (_ ∨ _))

theorem holds_of_dueAtCommit {cb : WlResource} (h : cb ∈ x.dueAtCommit) : x.Holds cb := by
  unfold dueAtCommit at h
  split at h
  · cases h
  split at h
  · exact .inr (Option.mem_toList.mp h)
  · exact .inl (Option.mem_toList.mp h)

theorem holds_of_dueAtRepaint {cb : WlResource} (h : cb ∈ x.dueAtRepaint) : x.Holds cb := by
  unfold dueAtRepaint at h
  split at h
  · cases h
  · exact .inl (Option.mem_toList.mp h)

theorem holds_surfaceCommit {cb : WlResource} (hx : x.Consistent)
    (h : x.surfaceCommit.1.Holds cb) : x.Holds cb := by
  cases hb : x.mBack.buffer with
  | none =>
    rw [surfaceCommit_idle hb] at h
    exact h
  | some b =>
    cases hf : x.mFront.buffer with
    | none =>
      rw [surfaceCommit_first hx hb hf] at h
      rcases h with h | h
      · cases h
      · exact .inl h
    | some f =>
      rw [surfaceCommit_next hx hb hf] at h
      rcases h with h | h
      · exact .inr h
      · cases h

/-- Only a frame request gives a surface a callback. -/
theorem holds_perform {cb : WlResource} (hx : x.Consistent) {op : SurfaceOp}
    (h : (x.perform shm op).1.Holds cb) : x.Holds cb ∨ op = .frame (some cb) := by
  cases op with
  | attach b px py =>
    have hattach : (x.surfaceAttach shm b px py).1.Holds cb ↔ x.Holds cb := by
      unfold surfaceAttach
      cases shm.get b <;> exact Iff.rfl
    exact .inl (hattach.mp h)
  | frame cb' =>
    rcases h with h | h
    · exact .inl (.inl h)
    · exact .inr (congrArg _ h)
  | commit => exact .inl (holds_surfaceCommit hx h)
  | lockBuffer => exact .inl h
  | unlockBuffer =>
    change x.unlockBuffer.1.Holds cb at h
    cases hf : x.mFront.buffer with
    | none =>
      rw [unlockBuffer_idle hf] at h
      exact .inl h
    | some f =>
      rw [unlockBuffer_shown hf] at h
      rcases h with h | h
      · cases h
      · exact .inl (.inr h)
  | setX px => exact .inl h
  | setY py => exact .inl h

end Surface

theorem answered_deleteCalls (ws : List (Wrapper × WlResource)) :
    answered (deleteCalls ws) = [] := by
  induction ws with
  | nil => rfl
  | cons w ws ih => exact ih

namespace Server

variable {s t : Server} {r : WlResource} {cs ds : List Call} {blend : Blend} {x : Resource}

/-! ## What an action answers -/

/-- The callbacks that an action answers, if it does not fault. -/
def due (s : Server) : ServeAction → List WlResource
  | .request (.surfaceCommit r) =>
    ((s.wrapperAt .surface r).bind fun p => s.surface? p.1).elim [] Surface.dueAtCommit
  | .repaint => s.surfaces.flatMap Surface.dueAtRepaint
  | _ => []

theorem due_request {q : ClientRequest} (hq : ∀ r, q ≠ .surfaceCommit r) :
    s.due (.request q) = [] := by
  cases q with
  | surfaceCommit r => exact absurd rfl (hq r)
  | _ => rfl

theorem answered_repaintedCalls {shm : ShmTable} (ss : List Surface) :
    answered (Compositor.repaintedCalls shm (ss.map some)) =
      (ss.map fun x => answered (x.repainted shm).2).flatten := by
  induction ss with
  | nil => rfl
  | cons x ss ih =>
    show answered ((x.repainted shm).2 ++ Compositor.repaintedCalls shm (ss.map some)) = _
    rw [answered_append, ih]
    rfl

theorem answered_repaint (hcons : ∀ x ∈ s.surfaces, x.Consistent)
    (hstep : s.repaint blend = ⟨ds, .ok t⟩) :
    answered ds = s.surfaces.flatMap Surface.dueAtRepaint := by
  obtain ⟨_, c, _, hrepaint, hret, rfl⟩ := Exec.bind_eq_ok.mp hstep
  cases hret
  obtain ⟨ss, _, bytes, _, _, hlist, -, -, rfl, -⟩ := Compositor.repaint_cases hrepaint
  obtain rfl : s.surfaces = ss := by rw [surfaces, hlist, contents_map_some]
  have hlaid : ∀ x ∈ Compositor.relaid s.mCompositor.mDisplayHeight s.surfaces, x.Consistent :=
    Compositor.forall_relaid (fun z y hz => ⟨hz.frontReady, hz.backReady, hz.filled⟩) hcons _
  have hdue : ∀ (x : Surface) y, (x.setY y).dueAtRepaint = x.dueAtRepaint := fun _ _ => rfl
  calc answered (_ ++ [.drawBuffer bytes, .timerUpdate repaintDelay] ++ [])
      = (List.map (fun x => answered (x.repainted s.shm).2)
          (Compositor.relaid s.mCompositor.mDisplayHeight s.surfaces)).flatten := by
        rw [List.append_nil, answered_append, answered_repaintedCalls]
        exact List.append_nil _
    _ = ((Compositor.relaid s.mCompositor.mDisplayHeight s.surfaces).map
          Surface.dueAtRepaint).flatten := by
        rw [List.map_congr_left fun x hx => Surface.answered_repainted (hlaid x hx)]
    _ = (s.surfaces.map Surface.dueAtRepaint).flatten := by rw [Compositor.map_relaid hdue]
    _ = s.surfaces.flatMap Surface.dueAtRepaint := List.flatMap_def.symm

/-- **What an action answers.** -/
theorem answered_serve (hcons : ∀ x ∈ s.surfaces, x.Consistent) {act : ServeAction}
    (hstep : s.serve blend act = ⟨ds, .ok t⟩) : answered ds = s.due act := by
  cases act with
  | connect =>
    cases hstep
    rfl
  | move x y =>
    obtain rfl : ds = [] := (congrArg Exec.calls hstep).symm.trans (silent_move x y)
    rfl
  | repaint => exact answered_repaint hcons hstep
  | request q =>
    by_cases hq : ∃ r, q = .surfaceCommit r
    · obtain ⟨r, rfl⟩ := hq
      show _ = ((s.wrapperAt .surface r).bind fun p => s.surface? p.1).elim [] Surface.dueAtCommit
      rcases surfaceCommit_cases hstep with ⟨hr, rfl, -⟩ | ⟨a, c, x, hr, hx, rfl, -⟩
      · rw [hr]
        rfl
      · rw [Surface.answered_surfaceCommit (hcons x (List.mem_of_find?_eq_some hx)), hr,
          Option.bind_some, hx, Option.elim_some]
    · rw [due_request fun r hr => hq ⟨r, hr⟩]
      have hh : Handled s q ⟨ds, .ok t⟩ := .eq hstep
      cases hh with
      | ignored => rfl
      | bound g hc => rfl
      | surfaceCreated hr => rfl
      | regionCreated hr => rfl
      | pointerCreated hr => rfl
      | shellSurfaceSet c hx => exact answered_deleteCalls _
      | cursorSet hps => rfl
      | attached x y hz hb =>
        rw [Surface.surfaceAttach_calls]
        rfl
      | framed c hz => rfl
      | committed hr hx => exact absurd ⟨_, rfl⟩ hq
      | bufferCreated b hc => rfl
      | bufferDestroyed hr => rfl

/-! ## The table of resources -/

/-- The entries of the table stay, and new ones are live. -/
def Grows (s t : Server) : Prop := ∀ r, t.data r = s.data r ∨ s.data r = none ∧ t.live r = true

theorem Grows.refl (s : Server) : s.Grows s := fun _ => .inl rfl

/-- Only the table matters. -/
theorem Grows.congr {u : Server} (h : s.Grows t) (hu : u.resources = t.resources) : s.Grows u := by
  intro r
  rw [data_congr hu, live_congr hu]
  exact h r

theorem grows_addResource (hx : x.live = true) : s.Grows (s.addResource x) := by
  intro r
  rw [data_addResource]
  by_cases hr : r = s.resources.length
  · rw [hr]
    exact .inr ⟨data_length, live_new hx⟩
  · exact .inl (if_neg hr)

theorem grows_create (s : Server) (kind : WrapperClass) (c : WlClient) :
    s.Grows (s.create kind c) := fun r =>
  grows_addResource (s := { s with nextAddress := s.nextAddress + 1 }) rfl r

theorem grows_serve {act : ServeAction} (hstep : s.serve blend act = ⟨ds, .ok t⟩) : s.Grows t := by
  cases act with
  | connect =>
    cases hstep
    exact Grows.refl s
  | repaint =>
    obtain ⟨_, c, _, -, hret, -⟩ := Exec.bind_eq_ok.mp hstep
    cases hret
    exact Grows.refl s
  | move x y => exact move_induct (I := s.Grows) (fun _ _ _ _ h => h.congr rfl) (Grows.refl s) hstep
  | request q =>
    have hq : Handled s q ⟨ds, .ok t⟩ := .eq hstep
    cases hq with
    | ignored => exact Grows.refl s
    | bound g hc => exact grows_addResource rfl
    | surfaceCreated hr => exact (grows_create s _ _).congr rfl
    | regionCreated hr => exact (grows_create s _ _).congr rfl
    | pointerCreated hr => exact (grows_create s _ _).congr rfl
    | shellSurfaceSet c hx =>
      intro r
      rw [data_disarm, live_disarm]
      exact grows_create s .shellSurface c r
    | cursorSet hps => exact Grows.refl s
    | attached x y hz hb => exact (Grows.refl s).congr rfl
    | framed c hz =>
      have hadd : s.Grows (s.addResource { client := c, userData := .null }) :=
        grows_addResource rfl
      exact hadd.congr rfl
    | committed hr hx => exact (Grows.refl s).congr rfl
    | bufferCreated b hc => exact grows_addResource rfl
    | bufferDestroyed hr => exact fun r => .inl data_bury

/-- The handle is of a `wl_callback` that a frame request made. -/
def Callback (s : Server) (r : WlResource) : Prop := s.data r = some .null

theorem Grows.callback (h : s.Grows t) (hr : s.Callback r) : t.Callback r := by
  rcases h r with hdata | ⟨hnone, -⟩
  · exact hdata.trans hr
  · exact nomatch hnone.symm.trans hr

/-- No callback is destroyed. -/
theorem callback_lives {act : ServeAction} (ho : Owned cs s) (hr : s.Callback r)
    (hlive : s.live r = true) (hstep : s.serve blend act = ⟨ds, .ok t⟩) : t.live r = true := by
  rcases ho.serve_live hstep hlive with ht | rfl
  · exact ht
  · cases hstep
    rw [destroyBuffer, if_neg ?_]
    · exact hlive
    · intro hbuffer
      obtain ⟨x, hx, hb⟩ := (Option.any_eq_true _ _).mp hbuffer
      have hnull : some x.userData = some .null := by
        rw [← hr, data, (resource?_eq_some.mp hx).1, Option.map_some]
      rw [Option.some.inj hnull] at hb
      cases hb

/-! ## Runs -/

/-- All callbacks are live; the surfaces hold callbacks, and what is answered were callbacks. -/
structure Calling (cs : List Call) (s : Server) : Prop where
  live : ∀ r, s.Callback r → s.live r = true
  held : ∀ x ∈ s.surfaces, ∀ cb, x.Holds cb → s.Callback cb
  answered : ∀ cb ∈ answered cs, s.Callback cb

theorem calling_start (width height : Int) : Calling [] (start width height) where
  live _ hr := nomatch hr
  held _ hx := absurd hx List.not_mem_nil
  answered _ hcb := absurd hcb List.not_mem_nil

theorem due_held {act : ServeAction} {cb : WlResource} (h : cb ∈ s.due act) :
    ∃ x ∈ s.surfaces, x.Holds cb := by
  cases act with
  | repaint =>
    obtain ⟨x, hx, hcb⟩ := List.mem_flatMap.mp h
    exact ⟨x, hx, Surface.holds_of_dueAtRepaint hcb⟩
  | request q =>
    cases q with
    | surfaceCommit r =>
      change cb ∈ ((s.wrapperAt .surface r).bind fun p => s.surface? p.1).elim [] _ at h
      cases hx : (s.wrapperAt .surface r).bind fun p => s.surface? p.1 with
      | none =>
        rw [hx] at h
        cases h
      | some x =>
        rw [hx] at h
        obtain ⟨p, -, hp⟩ := Option.bind_eq_some_iff.mp hx
        exact ⟨x, List.mem_of_find?_eq_some hp, Surface.holds_of_dueAtCommit h⟩
    | _ => cases h
  | connect => cases h
  | move x y => cases h

/-- **Where held callbacks come from**: a surface held them before, or a frame request just made
them. -/
theorem holds_of_serve {act : ServeAction} (hcons : ∀ x ∈ s.surfaces, x.Consistent)
    (hstep : s.serve blend act = ⟨ds, .ok t⟩) :
    ∀ y ∈ t.surfaces, ∀ cb, y.Holds cb →
      (∃ x ∈ s.surfaces, x.Holds cb) ∨ t.Callback cb ∧ t.live cb = true := by
  have hboth : ∀ y ∈ t.surfaces, y.Consistent ∧ ∀ cb, y.Holds cb →
      (∃ x ∈ s.surfaces, x.Holds cb) ∨ t.Callback cb ∧ t.live cb = true := by
    refine serve_surfaces (fun a r c l => ?_) (fun x p hx => ?_) (fun x op hop hx => ?_)
      (fun x hx => ⟨hcons x hx, fun cb hcb => .inl ⟨x, hx, hcb⟩⟩) hstep
    · exact ⟨Surface.consistent_construct a r c l,
        fun cb hcb => by rcases hcb with h | h <;> cases h⟩
    · exact ⟨⟨hx.1.frontReady, hx.1.backReady, hx.1.filled⟩, hx.2⟩
    · refine ⟨hx.1.perform s.shm op, fun cb hcb => ?_⟩
      rcases Surface.holds_perform hx.1 hcb with hold | hframe
      · exact hx.2 cb hold
      · obtain ⟨hnew, c, ht⟩ := hop (some cb) hframe
        obtain rfl := Option.some.inj hnew
        refine .inr ⟨?_, ?_⟩
        · rw [Callback, data_congr (t := t) (s := s.addResource _) ht, data_addResource, if_pos rfl]
        · exact (live_congr (t := t) (s := s.addResource _) ht).trans (live_new rfl)
  exact fun y hy => (hboth y hy).2

theorem Calling.serve {act : ServeAction} (h : Calling cs s) (ho : Owned cs s)
    (hcons : ∀ x ∈ s.surfaces, x.Consistent) (hstep : s.serve blend act = ⟨ds, .ok t⟩) :
    Calling (cs ++ ds) t := by
  have hgrows := grows_serve hstep
  refine ⟨fun r hr => ?_, fun y hy cb hcb => ?_, fun cb hcb => ?_⟩
  · rcases hgrows r with hdata | ⟨-, hlive⟩
    · have hold : s.Callback r := hdata.symm.trans hr
      exact callback_lives ho hold (h.live r hold) hstep
    · exact hlive
  · rcases holds_of_serve hcons hstep y hy cb hcb with ⟨x, hx, hold⟩ | ⟨hnew, -⟩
    · exact hgrows.callback (h.held x hx cb hold)
    · exact hnew
  · rw [answered_append] at hcb
    rcases List.mem_append.mp hcb with hcb | hcb
    · exact hgrows.callback (h.answered cb hcb)
    · rw [answered_serve hcons hstep] at hcb
      obtain ⟨x, hx, hold⟩ := due_held hcb
      exact hgrows.callback (h.held x hx cb hold)

theorem reaches_calling {width height : Int} {as : List ServeAction}
    (h : (requestMachine blend width height).Reaches as cs s) : Calling cs s := by
  refine h.induct (P := fun _ cs s => Calling cs s) (calling_start width height) ?_
  intro as cs s act ds t hreach hs hstep
  exact hs.serve (reaches_held hreach).1 (reaches_consistent hreach) hstep

/-- The live callbacks are the ones that are not answered. -/
def Reclaimed (cs : List Call) (s : Server) : Prop :=
  ∀ r, s.Callback r → (s.live r = true ↔ .callbackSendDone r ∉ cs)

/-- The live callbacks are the unanswered ones as long as no callback is answered. -/
theorem Calling.reclaimed_iff (h : Calling cs s) :
    Reclaimed cs s ↔ WaylandTest.answered cs = [] := by
  constructor
  · intro hrec
    apply List.eq_nil_iff_forall_not_mem.mpr
    intro cb hcb
    have hcall := h.answered cb hcb
    exact (hrec cb hcall).mp (h.live cb hcall) (mem_answered.mp hcb)
  · intro hnone r hr
    refine ⟨fun _ hsent => ?_, fun _ => h.live r hr⟩
    rw [← mem_answered, hnone] at hsent
    cases hsent

/-- **When callback resources do not accumulate.** In every state of a run the live callbacks are
the ones that are not answered, exactly if no step of the run that does not fault has a callback to
answer. -/
theorem callbacks_reclaimed_iff (blend : Blend) (width height : Int) (as : List ServeAction) :
    (requestMachine blend width height).Always Reclaimed as ↔
      (requestMachine blend width height).Along
        (fun s act => (∃ ds t, s.serve blend act = ⟨ds, .ok t⟩) → s.due act = []) as := by
  refine Machine.always_iff_along ?_ ?_ ?_ as
  · exact (calling_start width height).reclaimed_iff.mpr rfl
  · intro as cs s act ds t hreach h hquiet hstep
    have hsent := (reaches_calling hreach).reclaimed_iff.mp h
    refine (reaches_calling (hreach.snoc hstep)).reclaimed_iff.mpr ?_
    rw [answered_append, hsent, answered_serve (reaches_consistent hreach) hstep]
    exact hquiet ⟨ds, t, hstep⟩
  · intro as cs s act hreach h hdue
    obtain ⟨⟨ds, t, hstep⟩, hne⟩ := Classical.not_imp.mp hdue
    refine ⟨ds, t, hstep, fun hrec => hne ?_⟩
    have hsent := (reaches_calling (hreach.snoc hstep)).reclaimed_iff.mp hrec
    rw [answered_append, answered_serve (reaches_consistent hreach) hstep] at hsent
    exact (List.append_eq_nil_iff.mp hsent).2

/-- A client's first commit answers its callback, which stays live. -/
theorem answered_callback_stays :
    ¬ ∀ blend width height as, (requestMachine blend width height).Always Reclaimed as := by
  intro h
  have hrec := h (fun bg _ _ => bg) 1 1
    [.connect, .request (.bind 0 .compositor),
      .request (.createBuffer 0 (some ⟨1, 1, 4, .argb8888, [1, 2, 3, 4]⟩)),
      .request (.createSurface 0), .request (.surfaceAttach 2 (some 1) 0 0),
      .request (.surfaceFrame 2), .request (.surfaceCommit 2)] _ List.prefix_rfl _ _ rfl
  exact (hrec 3 rfl).mp rfl (mem_answered.mp List.mem_cons_self)

end Server

end WaylandTest
