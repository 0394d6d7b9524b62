import WaylandTest.Server.DestroyRequest

/-!
# Buffers that are used are live

A client may destroy a `wl_buffer` whenever it likes, and no surface hears of it. What a surface
passes to libwayland later, when it is locked, unlocked or committed, is the buffer of its front
state. So all handles the server uses are live as long as all front buffers are (`FrontsLive`), and
`buffers_live_iff` says which runs keep them live: those in which no front buffer is destroyed, and
no commit makes a destroyed buffer the front one.
-/

set_option autoImplicit false

namespace WaylandTest

open Lib

/-- The buffer a call passes to libwayland, by its handle. -/
def Call.buffer? : Call → Option WlResource
  | .shmBufferGet b => b
  | .queueRelease b => some b
  | _ => none

/-- The buffers the calls `cs` pass to libwayland. -/
def usedBuffers (cs : List Call) : List WlResource := cs.filterMap Call.buffer?

theorem mem_usedBuffers {cs : List Call} {b : WlResource} :
    b ∈ usedBuffers cs ↔ ∃ call ∈ cs, call.buffer? = some b := List.mem_filterMap

theorem usedBuffers_append (cs ds : List Call) :
    usedBuffers (cs ++ ds) = usedBuffers cs ++ usedBuffers ds := List.filterMap_append

namespace Surface

variable {x : Surface} {shm : ShmTable} {b : WlResource}

theorem usedBuffers_sendDone (st : SurfaceState) : usedBuffers st.sendDone.2 = [] := by
  rw [SurfaceState.sendDone]
  cases st.callbackDone with
  | none => rfl
  | some cb => rfl

/-- What a surface passes to libwayland by itself. -/
def uses (x : Surface) (shm : ShmTable) : List WlResource :=
  usedBuffers ((x.lockBuffer shm).2 ++ x.unlockBuffer.2 ++ x.surfaceCommit.2)

theorem front_of_lockBuffer (h : b ∈ usedBuffers (x.lockBuffer shm).2) :
    x.mFront.buffer = some b := by
  obtain ⟨call, hcall, hb⟩ := mem_usedBuffers.mp h
  rw [lockBuffer] at hcall
  split at hcall
  · simp only [List.mem_cons, List.not_mem_nil, or_false] at hcall
    rcases hcall with rfl | rfl
    · exact hb
    · cases hb
  · cases hcall

theorem usedBuffers_unlockBuffer : usedBuffers x.unlockBuffer.2 = x.mFront.buffer.toList := by
  rw [unlockBuffer]
  cases x.mFront.buffer with
  | none => rfl
  | some b =>
    show b :: usedBuffers x.mFront.sendDone.2 = [b]
    rw [usedBuffers_sendDone]

/-- A commit releases the front buffer of before. -/
theorem front_of_surfaceCommit (h : b ∈ usedBuffers x.surfaceCommit.2) :
    x.mFront.buffer = some b := by
  have hfill : usedBuffers x.fillBack.2 = [] := by
    rw [fillBack]
    simp only
    split
    · exact usedBuffers_sendDone _
    · rfl
  rw [surfaceCommit] at h
  split at h
  · cases h
  · have h' : b ∈ usedBuffers (x.fillBack.2 ++ x.fillBack.1.swapBuffers.releaseBack.2) := h
    rw [usedBuffers_append, hfill, List.nil_append, releaseBack] at h'
    split at h'
    · cases h'
    · next f hf =>
      have hused : b ∈ f :: usedBuffers (SurfaceState.sendDone _).2 := h'
      rw [usedBuffers_sendDone] at hused
      rw [List.mem_singleton.mp hused, ← hf, ← x.fillBack_mFront]
      rfl

/-- **What a surface passes to libwayland** is its front buffer, and that it does pass. -/
theorem mem_uses : b ∈ x.uses shm ↔ x.mFront.buffer = some b := by
  rw [uses, usedBuffers_append, usedBuffers_append, usedBuffers_unlockBuffer]
  constructor
  · intro h
    rcases List.mem_append.mp h with h | h
    · rcases List.mem_append.mp h with h | h
      · exact front_of_lockBuffer h
      · exact Option.mem_toList.mp h
    · exact front_of_surfaceCommit h
  · intro h
    apply List.mem_append_left
    apply List.mem_append_right
    exact Option.mem_toList.mpr h

theorem surfaceCommit_front :
    x.surfaceCommit.1.mFront.buffer = x.mBack.buffer.or x.mFront.buffer := by
  rw [surfaceCommit]
  split
  · next hb => rw [hb, Option.none_or]
  · next hb =>
    show x.fillBack.1.swapBuffers.releaseBack.1.mFront.buffer = _
    rw [releaseBack_mFront, hb, Option.some_or, ← hb]
    exact fillBack_mBack_buffer

end Surface

theorem usedBuffers_deleteCalls (ws : List (Wrapper × WlResource)) :
    usedBuffers (deleteCalls ws) = [] := by
  induction ws with
  | nil => rfl
  | cons w ws ih => exact ih

namespace Server

variable {s t : Server} {r b : WlResource} {cs ds : List Call} {blend : Blend}
  {width height : Int}

/-! ## The front buffers -/

/-- The buffers of the front states, in the order of the list. -/
def fronts (s : Server) : List (Option WlResource) := s.surfaces.map (·.mFront.buffer)

theorem mem_fronts : some b ∈ s.fronts ↔ ∃ x ∈ s.surfaces, x.mFront.buffer = some b :=
  List.mem_map

theorem fronts_updateSurface {a : Address} {f : Surface → Surface}
    (hf : ∀ x, (f x).mFront.buffer = x.mFront.buffer) :
    (s.updateSurface a f).fronts = s.fronts := by
  rw [fronts, fronts, surfaces_updateSurface, List.map_map]
  apply List.map_congr_left
  intro x _
  rw [Function.comp_apply]
  split
  · exact hf x
  · rfl

theorem fronts_move {x y : Int} (h : s.move x y = ⟨ds, .ok t⟩) : t.fronts = s.fronts :=
  move_induct (I := fun u => u.fronts = s.fronts)
    (fun _ _ _ _ hu => Eq.trans (fronts_updateSurface fun _ => by rfl) hu) rfl h

theorem fronts_repaint (h : s.repaint blend = ⟨ds, .ok t⟩) : t.fronts = s.fronts := by
  obtain ⟨_, c, _, hrepaint, hret, -⟩ := Exec.bind_eq_ok.mp h
  cases hret
  obtain ⟨ss, _, _, _, _, hlist, -, -, -, rfl⟩ := Compositor.repaint_cases hrepaint
  have hold : s.surfaces = ss := by rw [surfaces, hlist, contents_map_some]
  have hrepainted : ∀ x : Surface, (x.repainted s.shm).1.mFront.buffer = x.mFront.buffer := by
    intro x
    rw [Surface.repainted]
    split
    · exact Surface.unlockBuffer_mFront_buffer
    · rfl
  rw [fronts, fronts, hold,
    ← Compositor.map_relaid (fun _ _ => rfl) s.mCompositor.mDisplayHeight ss]
  show (contents (List.map _ (List.map some _))).map _ = _
  rw [contents_map, contents_map_some, List.map_map]
  apply List.map_congr_left
  intro x _
  exact hrepainted x

/-- The front buffers with the surface at `a` changed. -/
theorem mem_fronts_updateSurface {x : Surface} (nodup : (s.wrappers.map (·.1.address)).Nodup)
    {a : Address} (hx : s.surface? a = some x) {f : Surface → Surface} :
    some b ∈ (s.updateSurface a f).fronts ↔
      (f x).mFront.buffer = some b ∨ ∃ y ∈ s.surfaces, y.this ≠ a ∧ y.mFront.buffer = some b := by
  obtain ⟨hxa, before, after, hsplit, hbefore, hafter⟩ := surfaces_split nodup hx
  rw [mem_fronts, surfaces_updateSurface]
  constructor
  · rintro ⟨y, hy, hfront⟩
    obtain ⟨z, hz, rfl⟩ := List.mem_map.mp hy
    split at hfront
    · next hthis =>
      have hzx : z = x := by
        rw [hsplit] at hz
        rcases List.mem_append.mp hz with hz | hz
        · exact absurd hthis (hbefore z hz)
        · rcases List.mem_cons.mp hz with hz | hz
          · exact hz
          · exact absurd hthis (hafter z hz)
      exact .inl (hzx ▸ hfront)
    · next hthis => exact .inr ⟨z, hz, hthis, hfront⟩
  · rintro (hfront | ⟨y, hy, hthis, hfront⟩)
    · exact ⟨f x, List.mem_map.mpr ⟨x, List.mem_of_find?_eq_some hx, if_pos hxa⟩, hfront⟩
    · exact ⟨y, List.mem_map.mpr ⟨y, hy, if_neg hthis⟩, hfront⟩

/-- A commit of the surface at `a` shows its pending buffer. -/
theorem fronts_commit {x : Surface} (nodup : (s.wrappers.map (·.1.address)).Nodup)
    {a : Address} (hx : s.surface? a = some x)
    (hb : some b ∈ (s.updateSurface x.this fun y => y.surfaceCommit.1).fronts) :
    some b ∈ s.fronts ∨ x.mBack.buffer = some b := by
  rw [surface?_this hx] at hb
  rcases (mem_fronts_updateSurface nodup hx).mp hb with hfront | ⟨y, hy, -, hfront⟩
  · rw [Surface.surfaceCommit_front] at hfront
    rcases Option.or_eq_some_iff.mp hfront with hback | ⟨-, hfront⟩
    · exact .inr hback
    · exact .inl (mem_fronts.mpr ⟨x, List.mem_of_find?_eq_some hx, hfront⟩)
  · exact .inl (mem_fronts.mpr ⟨y, hy, hfront⟩)

/-- **Where front buffers come from**: a surface keeps the one it has, or a commit shows its pending
one. -/
theorem Owned.serve_fronts (h : Owned cs s) {act : ServeAction}
    (hstep : s.serve blend act = ⟨ds, .ok t⟩) (hb : some b ∈ t.fronts) :
    some b ∈ s.fronts ∨ ∃ r a c x, act = .request (.surfaceCommit r) ∧
      s.wrapperAt .surface r = some (a, c) ∧ s.surface? a = some x ∧ x.mBack.buffer = some b := by
  have hsame : t.fronts = s.fronts → some b ∈ s.fronts := fun he => he ▸ hb
  cases act with
  | connect =>
    cases hstep
    exact .inl hb
  | repaint => exact .inl (hsame (fronts_repaint hstep))
  | move x y => exact .inl (hsame (fronts_move hstep))
  | request q =>
    have hq : Handled s q ⟨ds, .ok t⟩ := .eq hstep
    cases hq with
    | ignored => exact .inl hb
    | bound g hc => exact .inl hb
    | surfaceCreated hr =>
      obtain ⟨x, hx, hfront⟩ := mem_fronts.mp hb
      rcases List.mem_append.mp (mem_contents.mp hx) with hx | hx
      · exact .inl (mem_fronts.mpr ⟨x, mem_contents.mpr hx, hfront⟩)
      · cases List.mem_singleton.mp hx
        cases hfront
    | regionCreated hr => exact .inl hb
    | pointerCreated hr => exact .inl hb
    | shellSurfaceSet c hx =>
      exact .inl (hsame (fronts_updateSurface (s := s.create .shellSurface c) fun _ => rfl))
    | cursorSet hps => exact .inl hb
    | @attached _ _ _ _ b' x y hz hbuffer =>
      refine .inl (hsame (fronts_updateSurface fun z => ?_))
      rw [Surface.surfaceAttach_mFront]
    | framed c hz => exact .inl (hsame (fronts_updateSurface fun _ => rfl))
    | @committed r a c x hr hx =>
      rcases fronts_commit h.nodup hx hb with hold | hback
      · exact .inl hold
      · exact .inr ⟨r, a, c, x, rfl, hr, hx, hback⟩
    | bufferCreated b' hc => exact .inl hb
    | bufferDestroyed hr => exact .inl hb

/-! ## The buffers in use -/

/-- What a repaint passes to libwayland, whether it completes or not, are front buffers. -/
theorem front_of_repaint (h : b ∈ usedBuffers (s.repaint blend).calls) : some b ∈ s.fronts := by
  obtain ⟨call, hcall, hb⟩ := mem_usedBuffers.mp h
  rw [Server.repaint, Exec.calls_bind_pure] at hcall
  rcases Compositor.mem_calls_repaint hcall with ⟨ss, hlist, hpainted⟩ | ⟨_, rfl⟩ | rfl
  · obtain ⟨p, hp, hpcall⟩ := List.mem_flatMap.mp hpainted
    obtain ⟨x, hx, rfl⟩ := List.mem_map.mp hp
    have hfront : x.mFront.buffer = some b := by
      have hused : b ∈ x.uses s.shm := by
        rw [Option.elim_some, Surface.repainted] at hpcall
        split at hpcall
        · exact mem_usedBuffers.mpr ⟨call, List.mem_append_left _ hpcall, hb⟩
        · cases hpcall
      exact Surface.mem_uses.mp hused
    have hold : s.surfaces = ss := by rw [surfaces, hlist, contents_map_some]
    rw [fronts, hold,
      ← Compositor.map_relaid (fun _ _ => rfl) s.mCompositor.mDisplayHeight ss]
    exact List.mem_map.mpr ⟨x, hx, hfront⟩
  · cases hb
  · cases hb

/-- **What a request passes to libwayland** is live by its dispatch, or a front buffer. -/
theorem used_of_request {q : ClientRequest} (h : b ∈ usedBuffers (s.request q).calls) :
    some b ∈ s.fronts ∨ s.live b = true := by
  have hq := handled s q
  generalize s.request q = out at h hq
  cases hq with
  | ignored => cases h
  | faulted => cases h
  | bound g hc => cases h
  | surfaceCreated hr => cases h
  | regionCreated hr => cases h
  | pointerCreated hr => cases h
  | @shellSurfaceSet _ _ _ x c hx =>
    have h' : b ∈ usedBuffers (deleteCalls (x.mShellSurface.toList.map ShellSurface.wrapper)) := h
    rw [usedBuffers_deleteCalls] at h'
    cases h'
  | cursorSet hps => cases h
  | @attached _ _ _ z b' x y hz hbuffer =>
    rw [Surface.surfaceAttach_calls] at h
    obtain ⟨_, hcall, hb⟩ := mem_usedBuffers.mp h
    cases List.mem_singleton.mp hcall
    obtain rfl : b' = some b := hb
    obtain ⟨y, hy, -⟩ := (Option.any_eq_true _ _).mp hbuffer
    exact .inr (live_of_resource? hy)
  | framed c hz => cases h
  | @committed _ _ _ x hr hx =>
    have hfront : x.mFront.buffer = some b := Surface.front_of_surfaceCommit h
    exact .inl (mem_fronts.mpr ⟨x, List.mem_of_find?_eq_some hx, hfront⟩)
  | bufferCreated b' hc => cases h
  | bufferDestroyed hr => cases h

theorem used_of_serve {act : ServeAction} (h : b ∈ usedBuffers (s.serve blend act).calls) :
    some b ∈ s.fronts ∨ s.live b = true := by
  cases act with
  | connect => cases h
  | request q => exact used_of_request h
  | repaint => exact .inl (front_of_repaint h)
  | move x y =>
    have hcalls : (s.move x y).calls = [] := silent_move x y
    change b ∈ usedBuffers (s.move x y).calls at h
    rw [hcalls] at h
    cases h

/-! ## Runs -/

/-- Every front buffer is live. -/
def FrontsLive (s : Server) : Prop := ∀ b, some b ∈ s.fronts → s.live b = true

/-- Every buffer is live that a surface, locked, unlocked or committed now, would pass to
libwayland, and every one that an action now does pass. -/
def HandlesLive (blend : Blend) (s : Server) : Prop :=
  (∀ x ∈ s.surfaces, ∀ b ∈ x.uses s.shm, s.live b = true) ∧
    ∀ act, ∀ b ∈ usedBuffers (s.serve blend act).calls, s.live b = true

theorem handlesLive_iff : s.HandlesLive blend ↔ s.FrontsLive := by
  constructor
  · intro h b hb
    obtain ⟨x, hx, hfront⟩ := mem_fronts.mp hb
    exact h.1 x hx b (Surface.mem_uses.mpr hfront)
  · intro h
    constructor
    · intro x hx b hb
      exact h b (mem_fronts.mpr ⟨x, hx, Surface.mem_uses.mp hb⟩)
    · intro act b hb
      rcases used_of_serve hb with hfront | hlive
      · exact h b hfront
      · exact hlive

/-- The action destroys no front buffer, and shows no destroyed one. -/
def KeepsBuffers (s : Server) : ServeAction → Prop
  | .request (.destroyBuffer r) =>
    (s.resource? r).any (·.userData.isBuffer) = true → some r ∉ s.fronts
  | .request (.surfaceCommit r) =>
    ∀ a c x b, s.wrapperAt .surface r = some (a, c) → s.surface? a = some x →
      x.mBack.buffer = some b → s.live b = true
  | _ => True

/-- Only the destruction of a buffer ends a handle. -/
theorem Owned.serve_live (h : Owned cs s) {act : ServeAction}
    (hstep : s.serve blend act = ⟨ds, .ok t⟩) (hb : s.live b = true) :
    t.live b = true ∨ act = .request (.destroyBuffer b) := by
  rcases serve_cases h.nodup hstep with ⟨gone, born, hm, -⟩ | ⟨r, hact, -, rfl, -⟩
  · apply Or.inl
    apply hm.live
    cases born with
    | none => exact hb
    | some p => exact live_addResource hb
  · by_cases hr : b = r
    · exact .inr (hr ▸ hact)
    · apply Or.inl
      rw [live_bury, hb, Bool.true_and]
      exact decide_eq_true hr

theorem FrontsLive.serve (h : s.FrontsLive) (ho : Owned cs s) {act : ServeAction}
    (ha : s.KeepsBuffers act) (hstep : s.serve blend act = ⟨ds, .ok t⟩) : t.FrontsLive := by
  intro b hb
  have hfront := ho.serve_fronts hstep hb
  have hlive : s.live b = true := by
    rcases hfront with hold | ⟨r, a, c, x, rfl, hr, hx, hback⟩
    · exact h b hold
    · exact ha a c x b hr hx hback
  rcases ho.serve_live hstep hlive with ht | rfl
  · exact ht
  · rcases hfront with hold | ⟨_, _, _, _, hact, -⟩
    · cases hstep
      rw [destroyBuffer, if_neg fun hbuffer => ha hbuffer hold]
      exact hlive
    · cases hact

/-- An action that destroys a front buffer, or shows a destroyed one, leaves a front buffer that is
not live. -/
theorem not_frontsLive_serve (blend : Blend) {act : ServeAction} (ha : ¬ s.KeepsBuffers act) :
    ∃ ds t, s.serve blend act = ⟨ds, .ok t⟩ ∧ ¬ t.FrontsLive := by
  cases act with
  | connect => exact absurd trivial ha
  | repaint => exact absurd trivial ha
  | move x y => exact absurd trivial ha
  | request q =>
    cases q with
    | destroyBuffer r =>
      simp only [KeepsBuffers, not_forall, not_not] at ha
      obtain ⟨hbuffer, hfront⟩ := ha
      refine ⟨[], s.destroyBuffer r, rfl, fun ht => ?_⟩
      rw [destroyBuffer, if_pos hbuffer] at ht
      have hdead := ht r hfront
      rw [live_bury] at hdead
      simp at hdead
    | surfaceCommit r =>
      simp only [KeepsBuffers, not_forall] at ha
      obtain ⟨a, c, x, b, hr, hx, hback, hdead⟩ := ha
      refine ⟨_, _, surfaceCommit_eq hr hx, fun ht => ?_⟩
      apply hdead
      apply ht b
      apply mem_fronts.mpr
      refine ⟨x.surfaceCommit.1, ?_, ?_⟩
      · rw [surfaces_updateSurface]
        exact List.mem_map.mpr ⟨x, List.mem_of_find?_eq_some hx, if_pos rfl⟩
      · rw [Surface.surfaceCommit_front, hback, Option.some_or]
    | bind c g => exact absurd trivial ha
    | createSurface r => exact absurd trivial ha
    | createRegion r => exact absurd trivial ha
    | getShellSurface r surface => exact absurd trivial ha
    | getPointer r => exact absurd trivial ha
    | setCursor r surface x y => exact absurd trivial ha
    | surfaceDestroy r => exact absurd trivial ha
    | surfaceAttach r b x y => exact absurd trivial ha
    | surfaceFrame r => exact absurd trivial ha
    | createBuffer c b => exact absurd trivial ha

/-- **When the server only uses live buffers.** In every state of a run all the buffers are live
that the server would pass to libwayland, exactly if no step of the run destroys a front buffer or
commits a destroyed one. -/
theorem buffers_live_iff (blend : Blend) (width height : Int) (as : List ServeAction) :
    (requestMachine blend width height).Always (fun _ s => s.HandlesLive blend) as ↔
      (requestMachine blend width height).Along KeepsBuffers as := by
  refine Machine.always_iff_along ?_ ?_ ?_ as
  · apply handlesLive_iff.mpr
    intro b hb
    cases hb
  · intro as cs s act ds t hreach h ha hstep
    exact handlesLive_iff.mpr ((handlesLive_iff.mp h).serve (reaches_held hreach).1 ha hstep)
  · intro as cs s act hreach h ha
    obtain ⟨ds, t, hstep, ht⟩ := not_frontsLive_serve blend ha
    exact ⟨ds, t, hstep, fun hlive => ht (handlesLive_iff.mp hlive)⟩

/-- A client shows a buffer and destroys it: the next repaint locks the dead handle. -/
theorem destroyed_buffer_used :
    ¬ ∀ blend width height as,
      (requestMachine blend width height).Always (fun _ s => s.HandlesLive blend) as := by
  intro h
  have hlive := (h (fun bg _ _ => bg) 1 1
    [.connect, .request (.bind 0 .compositor),
      .request (.createBuffer 0 (some ⟨1, 1, 4, .argb8888, [1, 2, 3, 4]⟩)),
      .request (.createSurface 0), .request (.surfaceAttach 2 (some 1) 0 0),
      .request (.surfaceCommit 2), .request (.destroyBuffer 1)] _ List.prefix_rfl _ _ rfl).2
    .repaint 1
  have hdead := hlive (List.mem_cons_self)
  cases hdead

end Server

end WaylandTest
