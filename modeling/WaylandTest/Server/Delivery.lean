import WaylandTest.Server.Projection

/-!
# What a server sends its clients

What holds of the callbacks and of the buffers of a single surface holds of each surface of a
server, by `surfaces_run_alone`'s histories (`reaches_history`). The handles of callbacks are new at
each frame request (`reaches_frames`), so over all surfaces no callback is answered twice, and the
answers of one surface can be told from those of the others (`server_callbacks_in_order`). A buffer
may be attached to several surfaces, so its releases are told apart by the tags of the events
(`server_shows_last_commit`).
-/

set_option autoImplicit false

namespace WaylandTest

open Lib

/-- The callback that an event answers. -/
def Event.callback? : Event → Option WlResource
  | .done cb => some cb
  | .release _ => none

/-- The buffer that an event releases. -/
def Event.buffer? : Event → Option WlResource
  | .done _ => none
  | .release b => some b

/-- The callback that an operation requests. -/
def SurfaceOp.callback? : SurfaceOp → Option WlResource
  | .frame cb => cb
  | _ => none

theorem callbacks_wireEvents (cs : List Call) :
    (wireEvents cs).filterMap Event.callback? = answered cs := by
  unfold wireEvents answered
  rw [List.filterMap_filterMap]
  apply List.filterMap_congr
  intro call _
  cases call <;> rfl

theorem buffers_wireEvents (cs : List Call) :
    (wireEvents cs).filterMap Event.buffer? = releases cs := by
  unfold wireEvents releases
  rw [List.filterMap_filterMap]
  apply List.filterMap_congr
  intro call _
  cases call <;> rfl

theorem framed_eq (ops : List SurfaceOp) : ops.filterMap SurfaceOp.callback? = framed ops := by
  apply List.filterMap_congr
  intro op _
  cases op <;> rfl

/-! ## Only requests count -/

section Requests

variable (shm : ShmTable) (ops : List SurfaceOp)

theorem Plain.after_requests :
    Plain.after shm (ops.filter (·.isRequest)) = Plain.after shm ops := by
  unfold Plain.after
  rw [List.foldl_filter]
  congr 1
  funext p op
  cases op <;> rfl

theorem PlainFrames.after_requests :
    PlainFrames.after shm (ops.filter (·.isRequest)) = PlainFrames.after shm ops := by
  unfold PlainFrames.after
  rw [List.foldl_filter]
  congr 1
  funext p op
  cases op <;> rfl

end Requests

namespace Server

variable {s t : Server} {cs ds : List Call} {blend : Blend} {act : LifetimeAction}

/-! ## The handles of callbacks -/

theorem Keeps.length_le (h : s.Keeps t) : s.resources.length ≤ t.resources.length := by
  by_contra hlt
  have hdata : ∃ u, s.data t.resources.length = some u := by
    unfold data
    rw [List.getElem?_eq_getElem (by omega), Option.map_some]
    exact ⟨_, rfl⟩
  obtain ⟨u, hu⟩ := hdata
  have ht := h _ u hu
  rw [data_length] at ht
  cases ht

/-- A frame request makes a handle, and asks for the callback behind it. -/
theorem dispatched_frames (hstep : s.lifetime blend act = ⟨ds, .ok t⟩) :
    framed ((s.dispatched act).map Prod.snd) = [] ∨
      framed ((s.dispatched act).map Prod.snd) = [s.resources.length] ∧
        s.resources.length < t.resources.length := by
  by_cases hframe : s.running = true ∧ ∃ r, act = .serve (.request (.surfaceFrame r))
  · obtain ⟨hrun, r, rfl⟩ := hframe
    unfold Server.lifetime at hstep
    rw [if_pos hrun] at hstep
    simp only [dispatched, hrun, if_true, requested]
    rcases onSurface_cases hstep with ⟨hr, -, -⟩ | ⟨z, c, hz, hr, hdo⟩
    · simp [hr, framed]
    · rw [performOn_eq] at hdo
      cases hdo
      right
      constructor
      · simp [hr, framed]
      · show _ < (s.resources ++ [_]).length
        simp
  · left
    unfold dispatched
    split
    · next q =>
      split
      · next hrun =>
        cases q with
        | surfaceFrame r => exact absurd ⟨hrun, r, rfl⟩ hframe
        | surfaceAttach r b x y =>
          simp only [requested]
          cases s.wrapperAt .surface r with
          | none => rfl
          | some p =>
            simp only [Option.bind_some]
            split <;> rfl
        | surfaceCommit r =>
          simp only [requested]
          cases s.wrapperAt .surface r <;> rfl
        | _ => rfl
      · rfl
    · rfl

/-- The callbacks that a run asks for have new handles, one after the other. -/
theorem reaches_frames {width height : Int} {as : List LifetimeAction}
    (h : (lifetimeMachine blend width height).Reaches as cs s) :
    (framed (((lifetimeMachine blend width height).trace dispatched as).map Prod.snd)).Pairwise
        (· < ·) ∧
      ∀ cb ∈ framed (((lifetimeMachine blend width height).trace dispatched as).map Prod.snd),
        cb < s.resources.length := by
  refine h.induct (P := fun as _ s =>
    (framed (((lifetimeMachine blend width height).trace dispatched as).map Prod.snd)).Pairwise
        (· < ·) ∧
      ∀ cb ∈ framed (((lifetimeMachine blend width height).trace dispatched as).map Prod.snd),
        cb < s.resources.length) ?_ ?_
  · exact ⟨List.Pairwise.nil, fun cb hcb => absurd hcb List.not_mem_nil⟩
  · intro as cs s act ds t hs ⟨hsorted, hlt⟩ hstep
    have hle := ((reaches_owned hs).keeps_lifetime hstep).length_le
    rw [Machine.trace_snoc hs, List.map_append, framed_append]
    rcases dispatched_frames hstep with hnone | ⟨hone, hnew⟩
    · rw [hnone, List.append_nil]
      exact ⟨hsorted, fun cb hcb => Nat.lt_of_lt_of_le (hlt cb hcb) hle⟩
    · rw [hone]
      refine ⟨List.pairwise_append.mpr ⟨hsorted, List.pairwise_singleton _ _, ?_⟩, ?_⟩
      · intro cb hcb cb' hcb'
        rw [List.mem_singleton.mp hcb']
        exact hlt cb hcb
      · intro cb hcb
        rcases List.mem_append.mp hcb with hcb | hcb
        · exact Nat.lt_of_lt_of_le (hlt cb hcb) hle
        · rw [List.mem_singleton.mp hcb]
          exact hnew

/-- The requests that a run dispatches to the surface at `a`, in order. -/
def requestsTo (blend : Blend) (width height : Int) (as : List LifetimeAction) (a : Address) :
    List SurfaceOp :=
  untag a ((lifetimeMachine blend width height).trace dispatched as)

section Owners

variable {width height : Int} {as : List LifetimeAction}
  (h : (lifetimeMachine blend width height).Reaches as cs s)

include h

/-- No two requests of a run ask for the same callback. -/
theorem nodup_framed (a : Address) : (framed (requestsTo blend width height as a)).Nodup := by
  have hall := (reaches_frames h).1.imp Nat.ne_of_lt
  rw [← framed_eq, ← map_pick] at hall
  rw [← framed_eq, requestsTo, ← untag_pick]
  exact nodup_untag hall a

/-- Only one surface was asked for a callback. -/
theorem requestsTo_unique {a b : Address} {cb : WlResource}
    (ha : cb ∈ framed (requestsTo blend width height as a))
    (hb : cb ∈ framed (requestsTo blend width height as b)) : a = b := by
  have hall := (reaches_frames h).1.imp Nat.ne_of_lt
  rw [← framed_eq, ← map_pick] at hall
  rw [← framed_eq, requestsTo, ← untag_pick] at ha hb
  exact tag_unique hall ha hb

end Owners

/-! ## What a history says -/

section Histories

variable {shm : ShmTable} {a : Address} {reqs ops : List SurfaceOp} {events : List Event}
  {z : Surface}

theorem History.answers (h : History shm s a reqs events ops ds z) :
    z.Answers ds (PlainFrames.after shm reqs) := by
  obtain ⟨ds', z', hrun, ha⟩ := Surface.reaches_answers shm a 0 0 none ops
  obtain ⟨rfl, rfl⟩ := hrun.det h.alone
  rw [← PlainFrames.after_requests, h.requests] at ha
  exact ha

theorem History.refines (h : History shm s a reqs events ops ds z) :
    z.Refines ds (Plain.after shm reqs) := by
  have ha := h.answers.refines
  rwa [PlainFrames.after_plain] at ha

/-- What is answered was taken. -/
theorem History.callbacks (h : History shm s a reqs events ops ds z) :
    (events.filterMap Event.callback?).Sublist (PlainFrames.after shm reqs).taken := by
  rw [← h.sent, callbacks_wireEvents, ← h.answers.taken]
  exact List.sublist_append_left _ _

/-- All committed buffers but the last are released, and the last is shown. -/
theorem History.buffers (h : History shm s a reqs events ops ds z) :
    events.filterMap Event.buffer? = (Plain.after shm reqs).committed.dropLast ∧
      z.mFront.buffer = (Plain.after shm reqs).committed.getLast? := by
  rw [← h.sent, buffers_wireEvents, ← h.refines.shown]
  cases hf : z.mFront.buffer with
  | none =>
    have hnone : (Plain.after shm reqs).committed = [] := by
      have hcurrent := h.refines.current
      simpa [hf] using hcurrent
    have hshown := h.refines.shown
    rw [hf, hnone, Option.toList_none, List.append_nil] at hshown
    simp [hshown]
  | some b => simp

end Histories

end Server

open Server

/-- **Callbacks of a server.** In every run of the server, over all clients and surfaces: no
callback is answered twice; those of one surface are answered in the order in which it was asked for
them; and each answered callback was asked for by a surface before a commit that found a buffer
pending there. -/
theorem server_callbacks_in_order (blend : Blend) (width height : Int) (as : List LifetimeAction)
    (cs : List Call) (s : Server) (h : (lifetimeMachine blend width height).Reaches as cs s) :
    (answered cs).Nodup ∧
      (∀ a, ((answered cs).filter (· ∈ framed (requestsTo blend width height as a))).Sublist
        (framed (requestsTo blend width height as a))) ∧
      ∀ cb ∈ answered cs, ∃ a before middle rest,
        requestsTo blend width height as a =
            before ++ .frame (some cb) :: (middle ++ .commit :: rest) ∧
          (Plain.after s.shm (before ++ .frame (some cb) :: middle)).pending ≠ none := by
  obtain ⟨log, hlog, hall⟩ := reaches_history h fun _ _ _ => rfl
  obtain ⟨done, hdone⟩ : ∃ done, done = pick Event.callback? log := ⟨_, rfl⟩
  have hanswered : done.map Prod.snd = answered cs := by
    rw [hdone, map_pick, hlog, callbacks_wireEvents]
  have htaken : ∀ a, (untag a done).Sublist
      (PlainFrames.after s.shm (requestsTo blend width height as a)).taken := by
    intro a
    obtain ⟨ops, ds, z, hz⟩ := hall a
    rw [hdone, untag_pick]
    exact hz.callbacks
  have hsub : ∀ a, (untag a done).Sublist (framed (requestsTo blend width height as a)) :=
    fun a => ((htaken a).trans (List.sublist_append_left _ _)).trans
      (PlainFrames.taken_sublist s.shm _)
  have howner : ∀ e ∈ done, ∀ a, e.2 ∈ framed (requestsTo blend width height as a) ↔ e.1 = a := by
    intro e he a
    have hmem := (hsub e.1).subset (mem_untag.mpr he)
    exact ⟨fun ha => requestsTo_unique h hmem ha, fun ha => ha ▸ hmem⟩
  refine ⟨?_, fun a => ?_, fun cb hcb => ?_⟩
  · rw [← hanswered]
    refine nodup_of_untag (fun a => (hsub a).nodup (nodup_framed h a)) fun a b cb ha hb => ?_
    exact requestsTo_unique h ((hsub a).subset ha) ((hsub b).subset hb)
  · rw [← hanswered, filter_eq_untag fun e he => ?_]
    · exact hsub a
    · simp [howner e he a]
  · rw [← hanswered] at hcb
    obtain ⟨e, he, rfl⟩ := List.mem_map.mp hcb
    have hmem := (htaken e.1).subset (mem_untag.mpr he)
    exact ⟨e.1, PlainFrames.taken_committed hmem⟩

theorem server_callbacks_in_order_twoFramed :
    ∃ cs s, (lifetimeMachine integerBlend 1 1).Reaches twoFramed cs s ∧ answered cs = [7, 6] ∧
      (answered cs).Nodup ∧
      (∀ a, ((answered cs).filter (· ∈ framed (requestsTo integerBlend 1 1 twoFramed a))).Sublist
        (framed (requestsTo integerBlend 1 1 twoFramed a))) ∧
      ∀ cb ∈ answered cs, ∃ a before middle rest,
        requestsTo integerBlend 1 1 twoFramed a =
            before ++ .frame (some cb) :: (middle ++ .commit :: rest) ∧
          (Plain.after s.shm (before ++ .frame (some cb) :: middle)).pending ≠ none :=
  ⟨_, _, rfl, rfl, server_callbacks_in_order integerBlend 1 1 twoFramed _ _ rfl⟩

/-- **Buffers of a server.** In every run of the server, the releases it sends can be told apart by
the surface they are sent for. For each surface, also one that is destroyed, they are the buffers of
its effective commits, in order, but for the last; and as long as the surface exists, it shows that
one, and holds the one attached since. -/
theorem server_shows_last_commit (blend : Blend) (width height : Int) (as : List LifetimeAction)
    (cs : List Call) (s : Server) (h : (lifetimeMachine blend width height).Reaches as cs s) :
    ∃ released : List (Address × WlResource), released.map Prod.snd = releases cs ∧
      ∀ a p, p = Plain.after s.shm (requestsTo blend width height as a) →
        untag a released = p.committed.dropLast ∧
        ∀ w ∈ s.surfaces, w.this = a →
          w.mFront.buffer = p.committed.getLast? ∧ w.mBack.buffer = p.pending := by
  obtain ⟨log, hlog, hall⟩ := reaches_history h fun _ _ _ => rfl
  refine ⟨pick Event.buffer? log, ?_, ?_⟩
  · rw [map_pick, hlog, buffers_wireEvents]
  · rintro a p rfl
    obtain ⟨ops, ds, z, hz⟩ := hall a
    change History s.shm s a (requestsTo blend width height as a) _ ops ds z at hz
    obtain ⟨hreleased, hshown⟩ := hz.buffers
    refine ⟨(untag_pick).trans hreleased, fun w hw hthis => ?_⟩
    have hcore := hz.now w hw hthis
    constructor
    · rw [← hshown, ← hcore]
      rfl
    · rw [← hz.refines.pending, ← hcore]
      rfl

/-- A client attaches a buffer and commits, then another one, to a surface that is then
destroyed. -/
def twoCommits : List LifetimeAction :=
  [.serve .connect, .serve (.request (.bind 0 .compositor)),
    .serve (.request (.createSurface 0)),
    .serve (.request (.createBuffer 0 (some ⟨1, 1, 4, .argb8888, [1, 2, 3, 4]⟩))),
    .serve (.request (.createBuffer 0 (some ⟨1, 1, 4, .argb8888, [5, 6, 7, 8]⟩))),
    .serve (.request (.surfaceAttach 1 (some 2) 0 0)), .serve (.request (.surfaceCommit 1)),
    .serve (.request (.surfaceAttach 1 (some 3) 0 0)), .serve (.request (.surfaceCommit 1)),
    .destroyResource 1]

theorem server_shows_last_commit_twoCommits :
    ∃ cs s, (lifetimeMachine integerBlend 1 1).Reaches twoCommits cs s ∧ releases cs = [2] ∧
      ∃ released : List (Address × WlResource), released.map Prod.snd = releases cs ∧
        ∀ a p, p = Plain.after s.shm (requestsTo integerBlend 1 1 twoCommits a) →
          untag a released = p.committed.dropLast ∧
          ∀ w ∈ s.surfaces, w.this = a →
            w.mFront.buffer = p.committed.getLast? ∧ w.mBack.buffer = p.pending :=
  ⟨_, _, rfl, rfl, server_shows_last_commit integerBlend 1 1 twoCommits _ _ rfl⟩

end WaylandTest
