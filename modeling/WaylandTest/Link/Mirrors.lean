import WaylandTest.Link.Ownership

/-!
# The same connection under other names

Two connections mirror each other if they are the same but for the handles of callbacks and for
where the surface is placed. Neither end looks at these: a client takes any `done` for an answer,
and the layout places surfaces without asking their clients. So the actions keep connections mirrors
of each other, and a buffer is in the same places in both.
-/

set_option autoImplicit false

namespace WaylandTest

open Lib Client

/-- A state without the handle of its callback. Whether there is one is kept: a commit and a repaint
answer it. -/
def SurfaceState.anon (st : SurfaceState) : SurfaceState :=
  { st with callbackDone := st.callbackDone.map fun _ => 0 }

/-- An event without the handle of a callback. -/
def Event.anon : Event → Event
  | .done _ => .done 0
  | .release b => .release b

/-- A release shows which buffer it is of also without the callbacks. -/
theorem Event.anon_release {e : Event} {b : WlResource} : e.anon = .release b ↔ e = .release b := by
  cases e <;> simp [Event.anon]

/-- The surfaces are the same, but for the handles of callbacks and where they are placed. -/
structure Surface.Mirrors (z z' : Surface) : Prop where
  front : z.mFront.anon = z'.mFront.anon
  back : z.mBack.anon = z'.mBack.anon
  filled : z.mBuffersFilled = z'.mBuffersFilled

/-- The two send the same events in the same order, but for the handles of callbacks. Other calls of
libwayland are not compared, as no client sees them. -/
def SendAlike (cs ds : List Call) : Prop :=
  (wireEvents cs).map Event.anon = (wireEvents ds).map Event.anon

namespace Surface.Mirrors

variable {z z' : Surface}

/-- Which of the two is looked at first does not matter. -/
theorem symm (h : z.Mirrors z') : z'.Mirrors z := ⟨h.front.symm, h.back.symm, h.filled.symm⟩

/-- The same buffer is shown. -/
theorem frontBuffer (h : z.Mirrors z') : z.mFront.buffer = z'.mFront.buffer :=
  (congrArg SurfaceState.buffer h.front :)

/-- The same buffer is attached. -/
theorem backBuffer (h : z.Mirrors z') : z.mBack.buffer = z'.mBack.buffer :=
  (congrArg SurfaceState.buffer h.back :)

/-- What `Consistent` says is said without callbacks and places, so mirrors have it both. -/
theorem consistent (h : z.Mirrors z') (hz : z.Consistent) : z'.Consistent where
  frontReady := by
    have hready : z.mFront.isReady = z'.mFront.isReady := (congrArg SurfaceState.isReady h.front :)
    rw [← hready, ← h.frontBuffer, hz.frontReady]
  backReady := by
    have hready : z.mBack.isReady = z'.mBack.isReady := (congrArg SurfaceState.isReady h.back :)
    rw [← hready, hz.backReady]
  filled := by rw [← h.filled, ← h.frontBuffer, hz.filled]

/-- States that are the same but for the callback have one both, or none. -/
theorem sendDone {st st' : SurfaceState} (h : st.anon = st'.anon) :
    SendAlike st.sendDone.2 st'.sendDone.2 := by
  have hdone : ∀ o : Option WlResource, (o.toList.map Event.done).map Event.anon =
      (o.map fun _ => 0).toList.map Event.done := by
    intro o
    cases o <;> rfl
  have hcb : st.callbackDone.map _ = st'.callbackDone.map _ :=
    congrArg SurfaceState.callbackDone h
  rw [SendAlike, st.wireEvents_sendDone, st'.wireEvents_sendDone, hdone, hdone, hcb]

/-- An attach, with buffers that the two servers know. The positions may differ before it, and are
the same after it in the back states. -/
theorem surfaceAttach {shm shm' : ShmTable} (h : z.Mirrors z') {b : WlResource}
    (hb : (shm b).isSome) (hb' : (shm' b).isSome) (x y : Int) :
    (z.surfaceAttach shm (some b) x y).1.Mirrors (z'.surfaceAttach shm' (some b) x y).1 ∧
      SendAlike (z.surfaceAttach shm (some b) x y).2 (z'.surfaceAttach shm' (some b) x y).2 := by
  have heq : z.surfaceAttach shm (some b) x y = _ := Link.serve_attach hb x y
  have heq' : z'.surfaceAttach shm' (some b) x y = _ := Link.serve_attach hb' x y
  rw [heq, heq']
  exact ⟨⟨h.front, congrArg (fun st : SurfaceState => { st with x := x, y := y, buffer := some b })
    h.back, h.filled⟩, rfl⟩

/-- A frame request, whatever handle libwayland gives the callback on either side. -/
theorem surfaceFrame (h : z.Mirrors z') (cb cb' : WlResource) :
    (z.surfaceFrame (some cb)).Mirrors (z'.surfaceFrame (some cb')) :=
  ⟨h.front, congrArg (fun st : SurfaceState => { st with callbackDone := some 0 }) h.back, h.filled⟩

/-- A commit, in the three cases of a consistent surface: nothing is attached, nothing was shown
before, or a buffer is replaced. Whether a callback is answered depends on there being one, not on
its handle. -/
theorem surfaceCommit (h : z.Mirrors z') (hz : z.Consistent) :
    z.surfaceCommit.1.Mirrors z'.surfaceCommit.1 ∧
      SendAlike z.surfaceCommit.2 z'.surfaceCommit.2 := by
  have hz' := h.consistent hz
  cases hb : z.mBack.buffer with
  | none =>
    rw [Surface.surfaceCommit_idle hb, Surface.surfaceCommit_idle (h.backBuffer ▸ hb)]
    exact ⟨h, rfl⟩
  | some b =>
    have hb' : z'.mBack.buffer = some b := h.backBuffer ▸ hb
    cases hf : z.mFront.buffer with
    | none =>
      rw [Surface.surfaceCommit_first hz hb hf,
        Surface.surfaceCommit_first hz' hb' (h.frontBuffer ▸ hf)]
      exact ⟨⟨congrArg (fun st : SurfaceState => { st with isReady := true, callbackDone := none })
        h.back, h.front, rfl⟩, sendDone h.back⟩
    | some f =>
      rw [Surface.surfaceCommit_next hz hb hf,
        Surface.surfaceCommit_next hz' hb' (h.frontBuffer ▸ hf)]
      refine ⟨⟨congrArg (fun st : SurfaceState => { st with isReady := true }) h.back,
        congrArg (fun st : SurfaceState =>
          { st with buffer := none, callbackDone := none, isReady := false }) h.front, rfl⟩, ?_⟩
      exact congrArg (Event.release f :: ·) (sendDone h.front)

/-- A repaint by either server, wherever the two have placed the surface and whatever is in their
buffers. -/
theorem repainted (h : z.Mirrors z') (shm shm' : ShmTable) (hz : z.Consistent) :
    (z.repainted shm).1.Mirrors (z'.repainted shm').1 ∧
      SendAlike (z.repainted shm).2 (z'.repainted shm').2 := by
  have hz' := h.consistent hz
  cases hf : z.mFront.buffer with
  | none =>
    rw [Surface.repainted_idle hz hf, Surface.repainted_idle hz' (h.frontBuffer ▸ hf)]
    exact ⟨h, rfl⟩
  | some f =>
    obtain ⟨hsurface, hevents⟩ := Surface.repainted_shown shm hz hf
    obtain ⟨hsurface', hevents'⟩ := Surface.repainted_shown shm' hz' (h.frontBuffer ▸ hf)
    rw [hsurface, hsurface', SendAlike, hevents, hevents', ← SurfaceState.wireEvents_sendDone,
      ← SurfaceState.wireEvents_sendDone]
    exact ⟨⟨congrArg (fun st : SurfaceState => { st with callbackDone := none }) h.front, h.back,
      h.filled⟩, sendDone h.front⟩

end Surface.Mirrors

/-- The connections are the same, but for the handles of callbacks and where the surface is. -/
structure Link.Mirrors (l l' : Link) : Prop where
  buffers : l.buffers = l'.buffers
  nextCallback : l.nextCallback = l'.nextCallback
  requests : l.requests = l'.requests
  surface : l.surface.Mirrors l'.surface
  events : l.events.map Event.anon = l'.events.map Event.anon

namespace Link

variable {l : Link}

/-- A redraw is the client's business; the server learns of it by the requests. -/
theorem surface_redraw (b : WlResource) : (l.redraw b).1.surface = l.surface := by
  unfold redraw
  split <;> rfl

/-- And so is an event that arrives. -/
theorem surface_deliverEvent : l.deliverEvent.surface = l.surface := by
  unfold deliverEvent
  split
  · rfl
  · next e es _ => cases e <;> rfl

end Link

namespace Link.Mirrors

variable {l l' : Link} {b : WlResource}

/-- A buffer is in the same places in both. -/
theorem places (h : l.Mirrors l') (b : WlResource) : l.places b = l'.places b := by
  have hrelease : ∀ es : List Event, (es.filter (· = .release b)).map (fun _ => Place.release) =
      ((es.map Event.anon).filter (· = .release b)).map fun _ => Place.release := by
    intro es
    rw [List.filter_map, List.map_map]
    have hsame : ((fun e : Event => decide (e = .release b)) ∘ Event.anon) =
        fun e => decide (e = .release b) := by
      funext e
      exact decide_eq_decide.mpr Event.anon_release
    rw [hsame]
    rfl
  unfold Link.places
  rw [hrelease, hrelease l'.events, h.buffers, h.requests, h.surface.frontBuffer,
    h.surface.backBuffer, h.events]

/-- The client may draw into the same buffers. -/
theorem ready (h : l.Mirrors l') : l.Ready b ↔ l'.Ready b := by
  unfold Link.Ready
  rw [h.buffers]

/-- A redraw sends the same frame, with the same new callback, and is seen alike. -/
theorem redraw (h : l.Mirrors l') (b : WlResource) :
    (l.redraw b).1.Mirrors (l'.redraw b).1 ∧ (l.redraw b).2 = (l'.redraw b).2 := by
  unfold Link.redraw Link.update
  rw [h.buffers, h.nextCallback]
  split
  · exact ⟨h, rfl⟩
  · exact ⟨⟨rfl, rfl, by rw [h.requests], h.surface, h.events⟩, rfl⟩

/-- The server's end does something, and sends what comes of it. -/
theorem served (h : l.Mirrors l') {z z' : Surface} {cs ds : List Call} (rs : List Request)
    (hz : z.Mirrors z') (hsent : SendAlike cs ds) :
    ({ l with requests := rs, surface := z, events := l.events ++ wireEvents cs } : Link).Mirrors
      { l' with requests := rs, surface := z', events := l'.events ++ wireEvents ds } := by
  refine ⟨h.buffers, h.nextCallback, rfl, hz, ?_⟩
  rw [List.map_append, List.map_append, h.events, hsent]

/-- An event arrives. Either both have a release of the same buffer in front, or both a `done`, and
which callback it answers is nothing to the client. -/
theorem deliverEvent (h : l.Mirrors l') : l.deliverEvent.Mirrors l'.deliverEvent := by
  have hevents := h.events
  cases he : l.events with
  | nil =>
    rw [he, List.map_nil, eq_comm, List.map_eq_nil_iff] at hevents
    rw [deliverEvent_nil he, deliverEvent_nil hevents]
    exact h
  | cons e es =>
    rw [he, List.map_cons, eq_comm, List.map_eq_cons_iff] at hevents
    obtain ⟨e', es', he', hsame, hrest⟩ := hevents
    cases e with
    | release c =>
      obtain rfl := Event.anon_release.mp hsame
      rw [deliverEvent_release he, deliverEvent_release he']
      refine ⟨?_, h.nextCallback, h.requests, h.surface, hrest.symm⟩
      unfold Link.update
      rw [h.buffers]
    | done cb =>
      cases e' with
      | release c => cases hsame
      | done cb' =>
        rw [deliverEvent_done he, deliverEvent_done he']
        exact ⟨h.buffers, h.nextCallback, h.requests, h.surface, hrest.symm⟩

end Link.Mirrors

end WaylandTest
