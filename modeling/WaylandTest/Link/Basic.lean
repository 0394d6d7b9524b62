import WaylandTest.Client

/-!
# A client and a server surface on one connection

A client with its buffers, the server's surface, the requests in flight to the server and the
events in flight to the client, each queue in order. A request is handled when it arrives; what the
surface sends joins the events. A repaint may come at any time.

`linkMachine` is the connection under a client that redraws when it likes. The operations are
shared with the clients that redraw when a callback is answered (`Link/Turns.lean`).
-/

set_option autoImplicit false

namespace WaylandTest

open Lib Client

/-- What is seen of a run: the client draws into a buffer, a request is sent, the server reads the
buffer it shows. -/
inductive Mark
  | draw (buffer : WlResource)
  | send (request : Request)
  | repaint
deriving DecidableEq, Repr

/-- Both ends of the connection and the two queues between them. -/
structure Link where
  buffers : List WaylandBuffer
  nextCallback : WlResource
  requests : List Request := []
  surface : Surface
  events : List Event := []
deriving DecidableEq, Repr

/-- The buffers of a client, distinct and in shared memory, and the surface the server made for
it. -/
structure Setup (shm : ShmTable) where
  handles : List WlResource
  nodup : handles.Nodup
  isShm : ∀ b ∈ handles, (shm b).isSome
  firstCallback : WlResource
  this : Address
  resource : WlResource
  client : WlClient
  listener : Option DestroyListener

namespace Link

/-- The start: every buffer is ready, the surface is new, nothing is in flight. -/
def start {shm : ShmTable} (u : Setup shm) : Link where
  buffers := u.handles.map fun b => { mBuffer := b }
  nextCallback := u.firstCallback
  surface := Surface.construct u.this u.resource u.client u.listener

/-- Replace the buffer object of the handle `b`. -/
def update (l : Link) (b : WlResource) (f : WaylandBuffer → WaylandBuffer) : List WaylandBuffer :=
  l.buffers.map fun w => if w.mBuffer = b then f w else w

/-- The client redraws with the buffer `b`. -/
def redraw (l : Link) (b : WlResource) : Link × List Mark :=
  match (l.buffers.find? fun w => w.mBuffer = b).bind (·.redraw l.nextCallback) with
  | none => (l, [])
  | some (w, sent) =>
    ({ l with
        buffers := l.update b fun _ => w
        nextCallback := l.nextCallback + 1
        requests := l.requests ++ sent },
      .draw b :: sent.map .send)

/-- The server's surface handles a request. -/
def serve (shm : ShmTable) (s : Surface) (r : Request) : Surface × List Call :=
  match r.op with
  | none => (s, [])
  | some op => s.perform shm op

/-- The first request in flight arrives. -/
def deliverRequest (shm : ShmTable) (l : Link) : Link :=
  match l.requests with
  | [] => l
  | r :: rs =>
    { l with
      requests := rs
      surface := (serve shm l.surface r).1
      events := l.events ++ wireEvents (serve shm l.surface r).2 }

/-- The client takes in an event: a release makes its buffer ready again. What a `done` makes the
client do is the client's choice. -/
def receive (l : Link) : Event → Link
  | .release b => { l with buffers := l.update b WaylandBuffer.release }
  | .done _ => l

/-- The first event in flight arrives. -/
def deliverEvent (l : Link) : Link :=
  match l.events with
  | [] => l
  | e :: es => { l with events := es }.receive e

/-- The server repaints. -/
def repaint (shm : ShmTable) (l : Link) : Link :=
  { l with
    surface := (l.surface.repainted shm).1
    events := l.events ++ wireEvents (l.surface.repainted shm).2 }

/-- The client may draw into `b`. -/
def Ready (l : Link) (b : WlResource) : Prop :=
  ∃ w ∈ l.buffers, w.mBuffer = b ∧ w.mReadyToDraw = true

instance (l : Link) (b : WlResource) : Decidable (l.Ready b) :=
  inferInstanceAs (Decidable (∃ w ∈ l.buffers, _))

end Link

/-- What can happen next on a connection whose client redraws when it likes. -/
inductive LinkAction
  | redraw (buffer : WlResource)
  | deliverRequest
  | deliverEvent
  | repaint
deriving DecidableEq, Repr

/-- One action on the connection. -/
def Link.act (shm : ShmTable) (l : Link) : LinkAction → Link × List Mark
  | .redraw b => l.redraw b
  | .deliverRequest => (l.deliverRequest shm, [])
  | .deliverEvent => (l.deliverEvent, [])
  | .repaint => (l.repaint shm, [.repaint])

/-- A client that redraws when it likes, and the server. -/
def linkMachine {shm : ShmTable} (u : Setup shm) : Machine Mark Fault Link LinkAction where
  init := Link.start u
  step l a := Exec.done (l.act shm a)

/-! ## What each action does -/

namespace Link

variable {shm : ShmTable} {l : Link} {b : WlResource}

/-- The handles of the client's buffers, in order. -/
def handles (l : Link) : List WlResource := l.buffers.map (·.mBuffer)

theorem update_handles {f : WaylandBuffer → WaylandBuffer}
    (hf : ∀ w ∈ l.buffers, w.mBuffer = b → (f w).mBuffer = b) :
    (l.update b f).map (·.mBuffer) = l.handles := by
  unfold update handles
  rw [List.map_map]
  refine List.map_congr_left fun w hw => ?_
  by_cases hb : w.mBuffer = b
  · simp only [Function.comp_apply, hb, if_true, hf w hw hb]
  · simp only [Function.comp_apply, if_neg hb]

/-- With distinct handles, the object found under a handle is the one in the list. -/
theorem find_of_mem (nodup : l.handles.Nodup) {w : WaylandBuffer} (hw : w ∈ l.buffers) :
    (l.buffers.find? fun v => v.mBuffer = w.mBuffer) = some w := by
  unfold handles at nodup
  generalize l.buffers = ws at nodup hw
  induction ws with
  | nil => cases hw
  | cons v vs ih =>
    rw [List.map_cons, List.nodup_cons] at nodup
    rcases List.mem_cons.mp hw with rfl | hw
    · exact List.find?_cons_of_pos (by simp)
    · have hne : v.mBuffer ≠ w.mBuffer := fun h => nodup.1 (h ▸ List.mem_map_of_mem hw)
      rw [List.find?_cons_of_neg (by simpa using hne)]
      exact ih nodup.2 hw

/-- A redraw with a ready buffer. -/
theorem redraw_ready (nodup : l.handles.Nodup) (hr : l.Ready b) :
    l.redraw b =
      ({ l with
          buffers := l.update b fun _ => { mBuffer := b, mReadyToDraw := false }
          nextCallback := l.nextCallback + 1
          requests := l.requests ++ frameRequests b l.nextCallback },
        .draw b :: (frameRequests b l.nextCallback).map .send) := by
  obtain ⟨w, hw, rfl, hready⟩ := hr
  unfold redraw
  rw [find_of_mem nodup hw]
  simp only [Option.bind_some, WaylandBuffer.redraw, hready, if_true,
    WaylandBuffer.setReadyToDraw]

/-- A redraw with a buffer that is not ready does nothing. -/
theorem redraw_not_ready (hr : ¬ l.Ready b) : l.redraw b = (l, []) := by
  unfold redraw
  cases hf : l.buffers.find? fun w => w.mBuffer = b with
  | none => rfl
  | some w =>
    have hb : w.mBuffer = b := by simpa using List.find?_some hf
    have hready : w.mReadyToDraw = false := by
      by_contra h
      exact hr ⟨w, List.mem_of_find?_eq_some hf, hb, by simpa using h⟩
    simp only [Option.bind_some, WaylandBuffer.redraw, hready, Bool.false_eq_true, if_false]

theorem deliverRequest_nil (hr : l.requests = []) : l.deliverRequest shm = l := by
  unfold deliverRequest
  rw [hr]

theorem deliverRequest_cons {r : Request} {rs : List Request} (hr : l.requests = r :: rs) :
    l.deliverRequest shm =
      { l with
        requests := rs
        surface := (serve shm l.surface r).1
        events := l.events ++ wireEvents (serve shm l.surface r).2 } := by
  unfold deliverRequest
  rw [hr]

theorem deliverEvent_nil (he : l.events = []) : l.deliverEvent = l := by
  unfold deliverEvent
  rw [he]

theorem deliverEvent_release {es : List Event} (he : l.events = .release b :: es) :
    l.deliverEvent = { l with buffers := l.update b WaylandBuffer.release, events := es } := by
  unfold deliverEvent
  rw [he]
  rfl

theorem deliverEvent_done {cb : WlResource} {es : List Event} (he : l.events = .done cb :: es) :
    l.deliverEvent = { l with events := es } := by
  unfold deliverEvent
  rw [he]
  rfl

/-- An attach of a buffer in shared memory. -/
theorem serve_attach {s : Surface} (hb : (shm b).isSome) (x y : Int) :
    serve shm s (.attach b x y) =
      ({ s with mBack := { s.mBack with x := x, y := y, buffer := some b } },
        [.shmBufferGet (some b)]) := by
  obtain ⟨buf, hbuf⟩ := Option.isSome_iff_exists.mp hb
  show s.surfaceAttach shm (some b) x y = _
  unfold Surface.surfaceAttach ShmTable.get
  simp only [Option.bind_some, hbuf]

end Link

end WaylandTest
