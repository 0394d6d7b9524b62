import WaylandTest.Link.Ownership

/-!
# Clients that redraw when their callback is answered

A client that sends one frame and then waits for its `done` has at most one frame under way. The
frame is first a remainder of its requests together with what the back state has taken of them
(`FrameLeft`); the commit ends it, and then the callback is either answered or waits in the front
state. The two lemmas about a commit say which: the first frame is answered at once
(`serve_commit_first`), a later one waits for a repaint (`serve_commit_next`).
-/

set_option autoImplicit false

namespace WaylandTest

open Lib Client

/-- The rest of one frame's requests, with the buffer and the callback the back state holds. -/
inductive FrameLeft : List Request → Option WlResource → Option WlResource → Prop
  | all (b cb : WlResource) : FrameLeft (frameRequests b cb) none none
  | attached (b cb : WlResource) :
      FrameLeft [.damage 0 0 mWidth mHeight, .frame cb, .commit] (some b) none
  | damaged (b cb : WlResource) : FrameLeft [.frame cb, .commit] (some b) none
  | framed (b cb : WlResource) : FrameLeft [.commit] (some b) (some cb)

theorem FrameLeft.ne_nil {rs : List Request} {b cb : Option WlResource} (h : FrameLeft rs b cb) :
    rs ≠ [] := by
  cases h <;> exact List.cons_ne_nil _ _

/-- At its commit, the back state holds the whole frame. -/
theorem FrameLeft.commit_cases {rs : List Request} {buffer callback : Option WlResource}
    (h : FrameLeft (.commit :: rs) buffer callback) :
    ∃ b cb, buffer = some b ∧ callback = some cb ∧ rs = [] := by
  cases h with
  | framed b cb => exact ⟨b, cb, rfl, rfl, rfl⟩

namespace Link

variable {shm : ShmTable} {l : Link}

/-- The first event in flight arrives; if it is a `done`, the client redraws with `b`
(`hookFrameDone`). -/
def answer (l : Link) (b : WlResource) : Link × List Mark :=
  match l.events with
  | .done _ :: es => { l with events := es }.redraw b
  | _ => (l.deliverEvent, [])

theorem answer_nil {b : WlResource} (he : l.events = []) : l.answer b = (l, []) := by
  unfold answer
  simp only [he]
  rw [deliverEvent_nil he]

theorem answer_release {b c : WlResource} {es : List Event} (he : l.events = .release c :: es) :
    l.answer b = ({ l with buffers := l.update c WaylandBuffer.release, events := es }, []) := by
  unfold answer
  simp only [he]
  rw [deliverEvent_release he]

theorem answer_done {b cb : WlResource} {es : List Event} (he : l.events = .done cb :: es) :
    l.answer b = { l with events := es }.redraw b := by
  unfold answer
  simp only [he]

/-- What a request of a frame short of its commit does at the server: the surface takes it, and
nothing is sent. -/
theorem serve_frameLeft {s : Surface} {r : Request} {rs : List Request}
    (h : FrameLeft (r :: rs) s.mBack.buffer s.mBack.callbackDone)
    (isShm : ∀ b, r.buffer? = some b → (shm b).isSome) (hr : r ≠ .commit) :
    FrameLeft rs (serve shm s r).1.mBack.buffer (serve shm s r).1.mBack.callbackDone ∧
      (serve shm s r).1.mFront = s.mFront ∧ wireEvents (serve shm s r).2 = [] := by
  generalize hb : s.mBack.buffer = back at h
  generalize hc : s.mBack.callbackDone = callback at h
  cases h with
  | all b cb =>
    rw [serve_attach (isShm b rfl)]
    refine ⟨?_, rfl, rfl⟩
    show FrameLeft _ (some b) s.mBack.callbackDone
    rw [hc]
    exact .attached b cb
  | attached b cb =>
    refine ⟨?_, rfl, rfl⟩
    show FrameLeft _ s.mBack.buffer s.mBack.callbackDone
    rw [hb, hc]
    exact .damaged b cb
  | damaged b cb =>
    refine ⟨?_, rfl, rfl⟩
    show FrameLeft _ s.mBack.buffer (some cb)
    rw [hb]
    exact .framed b cb
  | framed b cb => exact absurd rfl hr

/-- The commit of the first frame: it is shown, and its callback is answered at once. -/
theorem serve_commit_first (shm : ShmTable) {s : Surface} (hs : s.Consistent) {b cb : WlResource}
    (hb : s.mBack.buffer = some b) (hc : s.mBack.callbackDone = some cb)
    (hf : s.mFront.buffer = none) (hfc : s.mFront.callbackDone = none) :
    (serve shm s .commit).1.mFront.buffer = some b ∧
      (serve shm s .commit).1.mFront.callbackDone = none ∧
      (serve shm s .commit).1.mBack.buffer = none ∧
      (serve shm s .commit).1.mBack.callbackDone = none ∧
      wireEvents (serve shm s .commit).2 = [.done cb] := by
  have hserve : serve shm s .commit = s.surfaceCommit := rfl
  rw [hserve, Surface.surfaceCommit_first hs hb hf]
  refine ⟨hb, rfl, hf, hfc, ?_⟩
  rw [hc]
  rfl

/-- The commit of a later frame whose predecessor is answered: it is shown, the buffer shown before
is released, and its callback waits. -/
theorem serve_commit_next (shm : ShmTable) {s : Surface} (hs : s.Consistent) {b f cb : WlResource}
    (hb : s.mBack.buffer = some b) (hc : s.mBack.callbackDone = some cb)
    (hf : s.mFront.buffer = some f) (hfc : s.mFront.callbackDone = none) :
    (serve shm s .commit).1.mFront.buffer = some b ∧
      (serve shm s .commit).1.mFront.callbackDone = some cb ∧
      (serve shm s .commit).1.mBack.buffer = none ∧
      (serve shm s .commit).1.mBack.callbackDone = none ∧
      wireEvents (serve shm s .commit).2 = [.release f] := by
  have hserve : serve shm s .commit = s.surfaceCommit := rfl
  rw [hserve, Surface.surfaceCommit_next hs hb hf]
  refine ⟨hb, hc, rfl, rfl, ?_⟩
  rw [hfc]
  rfl

/-- A repaint that has no callback to answer changes nothing. -/
theorem repaint_quiet (hs : l.surface.Consistent) (hc : l.surface.mFront.callbackDone = none) :
    l.repaint shm = l := by
  cases hf : l.surface.mFront.buffer with
  | none =>
    unfold repaint
    rw [Surface.repainted_idle hs hf]
    simp only [wireEvents_nil, List.append_nil]
  | some f =>
    obtain ⟨hsurf, hev⟩ := Surface.repainted_shown shm hs hf
    have hsame : ({ l.surface.mFront with callbackDone := none } : SurfaceState) =
        l.surface.mFront := by
      rw [← hc]
    unfold repaint
    rw [hev, hsurf, hsame, hc]
    simp only [Option.toList_none, List.map_nil, List.append_nil]

/-- A repaint of a shown surface answers the callback its front holds. -/
theorem repaint_answers (hs : l.surface.Consistent) {f cb : WlResource}
    (hf : l.surface.mFront.buffer = some f) (hc : l.surface.mFront.callbackDone = some cb) :
    l.repaint shm =
      { l with
        surface := { l.surface with mFront := { l.surface.mFront with callbackDone := none } }
        events := l.events ++ [.done cb] } := by
  obtain ⟨hsurf, hev⟩ := Surface.repainted_shown shm hs hf
  unfold repaint
  rw [hev, hsurf, hc]
  rfl

end Link

end WaylandTest
