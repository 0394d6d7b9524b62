import Mathlib.Data.List.Nodup
import Mathlib.Data.List.Count
import WaylandTest.Link.Basic

/-!
# Every buffer is in exactly one place

A buffer of the client is ready at the client, attached by a request in flight, in the back state
of the server's surface with its commit in flight, in the front state, or in a release event in
flight. `Link.places` lists where a buffer is, once for every time it is there; the claim is that
the list has one entry.

`Committed` reads the stream of requests: between an attach and the next one there is a commit. The
conserved quantity is `Link.tally`, the length of `places`; each action keeps it, and it is one at
the start.
-/

set_option autoImplicit false

namespace WaylandTest

open Lib Client

/-- Where a buffer of the client can be. -/
inductive Place
  | client
  | request
  | back
  | front
  | release
deriving DecidableEq, Repr

/-- The buffer a request attaches. -/
def Client.Request.buffer? : Request → Option WlResource
  | .attach b _ _ => some b
  | _ => none

/-- **The request stream is well formed** with `pending` attached at the server: every attach is
committed before the next one. -/
def Committed : Option WlResource → List Request → Prop
  | pending, [] => pending = none
  | pending, .attach b _ _ :: rs => pending = none ∧ Committed (some b) rs
  | pending, .commit :: rs => pending ≠ none ∧ Committed none rs
  | pending, .damage _ _ _ _ :: rs => Committed pending rs
  | pending, .frame _ :: rs => Committed pending rs

/-- What is attached has its commit in flight, ahead of every other attach. -/
theorem Committed.commit_ahead {b : WlResource} {rs : List Request} (h : Committed (some b) rs) :
    ∃ before after, rs = before ++ .commit :: after ∧ ∀ r ∈ before, r.buffer? = none := by
  induction rs with
  | nil => cases h
  | cons r rs ih =>
    cases r with
    | attach b' x y => cases h.1
    | commit => exact ⟨[], rs, rfl, fun r hr => nomatch hr⟩
    | damage x y w h' =>
      obtain ⟨before, after, rfl, hnone⟩ := ih h
      refine ⟨_ :: before, after, rfl, ?_⟩
      intro r hr
      rcases List.mem_cons.mp hr with rfl | hr
      · rfl
      · exact hnone r hr
    | frame cb =>
      obtain ⟨before, after, rfl, hnone⟩ := ih h
      refine ⟨_ :: before, after, rfl, ?_⟩
      intro r hr
      rcases List.mem_cons.mp hr with rfl | hr
      · rfl
      · exact hnone r hr

/-- Another frame at the end of the stream. -/
theorem Committed.append_frame {pending : Option WlResource} {rs : List Request}
    (h : Committed pending rs) (b cb : WlResource) :
    Committed pending (rs ++ frameRequests b cb) := by
  induction rs generalizing pending with
  | nil =>
    obtain rfl : pending = none := h
    exact ⟨rfl, Option.some_ne_none b, rfl⟩
  | cons r rs ih =>
    cases r with
    | attach b' x y => exact ⟨h.1, ih h.2⟩
    | commit => exact ⟨h.1, ih h.2⟩
    | damage x y w h' => exact @ih pending h
    | frame cb' => exact @ih pending h

namespace Link

/-- The places `b` is in, with multiplicity. -/
def places (l : Link) (b : WlResource) : List Place :=
  (l.buffers.filter fun w => w.mBuffer = b ∧ w.mReadyToDraw).map (fun _ => .client) ++
  (l.requests.filter fun r => r.buffer? = some b).map (fun _ => .request) ++
  (l.surface.mBack.buffer.toList.filter (· = b)).map (fun _ => .back) ++
  (l.surface.mFront.buffer.toList.filter (· = b)).map (fun _ => .front) ++
  (l.events.filter (· = .release b)).map (fun _ => .release)

/-- How many places `b` is in. -/
def tally (l : Link) (b : WlResource) : Nat :=
  l.buffers.countP (fun w => w.mBuffer = b ∧ w.mReadyToDraw) +
  l.requests.countP (fun r => r.buffer? = some b) +
  l.surface.mBack.buffer.toList.countP (· = b) +
  l.surface.mFront.buffer.toList.countP (· = b) +
  l.events.countP (· = .release b)

theorem length_places (l : Link) (b : WlResource) : (l.places b).length = l.tally b := by
  simp only [places, tally, List.length_append, List.length_map, List.countP_eq_length_filter]

variable {shm : ShmTable} {u : Setup shm} {l : Link}

/-- What holds of a connection in every reachable state. -/
structure Owned (u : Setup shm) (l : Link) : Prop where
  handles : l.handles = u.handles
  consistent : l.surface.Consistent
  stream : Committed l.surface.mBack.buffer l.requests
  attached : ∀ r ∈ l.requests, ∀ b, r.buffer? = some b → b ∈ u.handles
  single : ∀ b ∈ u.handles, l.tally b = 1

/-- The ready objects of another handle, after an object is replaced. -/
theorem countP_update_ne {b c : WlResource} (hc : c ≠ b) {f : WaylandBuffer → WaylandBuffer}
    (hf : ∀ w : WaylandBuffer, w.mBuffer = b → (f w).mBuffer = b) :
    (l.update b f).countP (fun w => w.mBuffer = c ∧ w.mReadyToDraw) =
      l.buffers.countP (fun w => w.mBuffer = c ∧ w.mReadyToDraw) := by
  unfold update
  rw [List.countP_map]
  refine List.countP_congr fun w _ => ?_
  by_cases hwb : w.mBuffer = b
  · simp [hwb, hf w hwb, hc.symm]
  · simp [hwb]

/-- The ready objects of a handle, after its object is replaced: there is one object. -/
theorem countP_update_self (nodup : u.handles.Nodup) (hh : l.handles = u.handles) {b : WlResource}
    (hb : b ∈ u.handles) {f : WaylandBuffer → WaylandBuffer} {ready : Bool}
    (hf : ∀ w : WaylandBuffer, w.mBuffer = b → (f w).mBuffer = b ∧ (f w).mReadyToDraw = ready) :
    (l.update b f).countP (fun w => w.mBuffer = b ∧ w.mReadyToDraw) = ready.toNat := by
  have hcount : l.buffers.countP (fun w => w.mBuffer == b) = 1 := by
    have hone : u.handles.count b = 1 := List.count_eq_one_of_mem nodup hb
    rw [← hh, Link.handles, List.count, List.countP_map] at hone
    exact hone
  have heq : ∀ w ∈ l.buffers,
      (((fun w : WaylandBuffer => decide (w.mBuffer = b ∧ w.mReadyToDraw = true)) ∘
        fun w => if w.mBuffer = b then f w else w) w = true ↔
        (w.mBuffer == b && ready) = true) := by
    intro w _
    by_cases hwb : w.mBuffer = b
    · simp [hwb, hf w hwb]
    · simp [hwb]
  unfold update
  rw [List.countP_map, List.countP_congr heq]
  cases ready with
  | false => simp
  | true => simpa using hcount

/-! ## What each action keeps -/

theorem owned_start (u : Setup shm) : Owned u (start u) where
  handles := by
    simp only [Link.handles, start, List.map_map]
    exact List.map_id _
  consistent := Surface.consistent_construct _ _ _ _
  stream := rfl
  attached := fun r hr => nomatch hr
  single := by
    intro b hb
    have hcount : u.handles.count b = 1 := List.count_eq_one_of_mem u.nodup hb
    have hready : (u.handles.map fun b => ({ mBuffer := b } : WaylandBuffer)).countP
        (fun w => w.mBuffer = b ∧ w.mReadyToDraw) = u.handles.count b := by
      rw [List.countP_map]
      exact List.countP_congr fun c _ => by simp
    show _ + 0 + 0 + 0 + 0 = 1
    rw [← hcount, ← hready]
    rfl

/-- A ready buffer is nowhere else. -/
theorem Owned.ready_elsewhere (h : Owned u l) {b : WlResource} (hr : l.Ready b) :
    l.buffers.countP (fun w => w.mBuffer = b ∧ w.mReadyToDraw) = 1 ∧
      l.surface.mFront.buffer ≠ some b := by
  obtain ⟨w, hw, hwb, hwr⟩ := hr
  have hpos : 0 < l.buffers.countP (fun w => w.mBuffer = b ∧ w.mReadyToDraw) :=
    List.countP_pos_iff.mpr ⟨w, hw, by simp [hwb, hwr]⟩
  have hmem : b ∈ u.handles := by
    rw [← h.handles, ← hwb]
    exact List.mem_map_of_mem hw
  have hone := h.single b hmem
  unfold tally at hone
  refine ⟨by omega, ?_⟩
  intro hf
  rw [hf] at hone
  simp only [Option.toList_some, List.countP_singleton, decide_true, if_true] at hone
  omega

theorem Owned.redraw (h : Owned u l) (b : WlResource) : Owned u (l.redraw b).1 := by
  by_cases hr : l.Ready b
  · have hnodup : l.handles.Nodup := h.handles ▸ u.nodup
    have hmem : b ∈ u.handles := by
      obtain ⟨w, hw, hwb, _⟩ := hr
      rw [← h.handles, ← hwb]
      exact List.mem_map_of_mem hw
    have hone := h.ready_elsewhere hr
    rw [redraw_ready hnodup hr]
    refine ⟨?_, h.consistent, h.stream.append_frame b _, ?_, ?_⟩
    · rw [← h.handles]
      exact update_handles fun w _ _ => rfl
    · intro r hr' c hc
      rcases List.mem_append.mp hr' with hr' | hr'
      · exact h.attached r hr' c hc
      · simp only [frameRequests, List.mem_cons, List.not_mem_nil, or_false] at hr'
        rcases hr' with rfl | rfl | rfl | rfl
        · obtain rfl : b = c := Option.some.inj hc
          exact hmem
        · cases hc
        · cases hc
        · cases hc
    · intro c hc
      have hframe : (frameRequests b l.nextCallback).countP (fun r => r.buffer? = some c) =
          if c = b then 1 else 0 := by
        by_cases hcb : c = b
        · subst hcb
          rw [if_pos rfl]
          simp [frameRequests, Request.buffer?]
        · rw [if_neg hcb]
          simp [frameRequests, Request.buffer?, Ne.symm hcb]
      have hsingle := h.single c hc
      simp only [tally, List.countP_append, hframe] at hsingle ⊢
      by_cases hcb : c = b
      · subst hcb
        rw [countP_update_self u.nodup h.handles hmem (fun w _ => ⟨rfl, rfl⟩), if_pos rfl,
          Bool.toNat_false]
        omega
      · rw [countP_update_ne hcb (fun w _ => rfl), if_neg hcb]
        exact hsingle
  · rw [redraw_not_ready hr]
    exact h

theorem Owned.repaint (h : Owned u l) : Owned u (l.repaint shm) := by
  have hs := h.consistent
  cases hf : l.surface.mFront.buffer with
  | none =>
    have he : l.repaint shm = l := by
      unfold Link.repaint
      rw [Surface.repainted_idle hs hf]
      simp only [wireEvents_nil, List.append_nil]
    rw [he]
    exact h
  | some f =>
    obtain ⟨hsurf, hev⟩ := Surface.repainted_shown shm hs hf
    refine ⟨h.handles, hs.repainted, ?_, h.attached, ?_⟩
    · show Committed (l.surface.repainted shm).1.mBack.buffer _
      rw [hsurf]
      exact h.stream
    · intro c hc
      have hsingle := h.single c hc
      have hdone : (wireEvents (l.surface.repainted shm).2).countP (· = .release c) = 0 := by
        rw [hev, List.countP_eq_zero]
        intro e he
        obtain ⟨cb, _, rfl⟩ := List.mem_map.mp he
        simp
      unfold tally at hsingle ⊢
      simp only [Link.repaint, List.countP_append, hdone, hsurf]
      exact hsingle

theorem Owned.deliverEvent (h : Owned u l) : Owned u l.deliverEvent := by
  cases he : l.events with
  | nil =>
    rw [deliverEvent_nil he]
    exact h
  | cons e es =>
    cases e with
    | done cb =>
      rw [deliverEvent_done he]
      refine ⟨h.handles, h.consistent, h.stream, h.attached, ?_⟩
      intro c hc
      have hsingle := h.single c hc
      unfold tally at hsingle ⊢
      rw [he, List.countP_cons_of_neg (by simp)] at hsingle
      exact hsingle
    | release b =>
      rw [deliverEvent_release he]
      refine ⟨?_, h.consistent, h.stream, h.attached, ?_⟩
      · rw [← h.handles]
        exact update_handles fun w _ hw => hw
      · intro c hc
        have hsingle := h.single c hc
        simp only [tally, he] at hsingle ⊢
        by_cases hcb : c = b
        · subst hcb
          rw [List.countP_cons_of_pos (by simp)] at hsingle
          rw [countP_update_self (f := WaylandBuffer.release) u.nodup h.handles hc
            (fun w hw => ⟨hw, rfl⟩), Bool.toNat_true]
          -- the release in flight was the one place of the buffer
          omega
        · rw [List.countP_cons_of_neg (by simpa using Ne.symm hcb)] at hsingle
          rw [countP_update_ne (f := WaylandBuffer.release) hcb (fun w hw => hw)]
          exact hsingle

/-- A commit at the server moves the attached buffer to the front, and the one shown until then
into a release event. -/
theorem commit_moves {s : Surface} (hs : s.Consistent) {b : WlResource}
    (hb : s.mBack.buffer = some b) (c : WlResource) :
    s.surfaceCommit.1.mBack.buffer = none ∧
      s.surfaceCommit.1.mFront.buffer.toList.countP (· = c) +
          (wireEvents s.surfaceCommit.2).countP (· = .release c) =
        s.mBack.buffer.toList.countP (· = c) + s.mFront.buffer.toList.countP (· = c) := by
  have hdone : ∀ st : SurfaceState,
      (wireEvents (st.callbackDone.toList.map Call.callbackSendDone)).countP
        (· = .release c) = 0 := by
    intro st
    cases st.callbackDone <;> simp [wireEvents, Call.event?]
  cases hf : s.mFront.buffer with
  | none =>
    rw [Surface.surfaceCommit_first hs hb hf]
    refine ⟨hf, ?_⟩
    simp only [hdone]
    rfl
  | some f =>
    rw [Surface.surfaceCommit_next hs hb hf]
    refine ⟨rfl, ?_⟩
    have hrel : (wireEvents (.queueRelease f ::
        s.mFront.callbackDone.toList.map Call.callbackSendDone)).countP (· = .release c) =
        [f].countP (· = c) := by
      show (Event.release f :: wireEvents _).countP _ = _
      rw [List.countP_cons, hdone, List.countP_singleton]
      simp
    rw [hrel]
    rfl

theorem Owned.deliverRequest (h : Owned u l) : Owned u (l.deliverRequest shm) := by
  have hs := h.consistent
  cases hr : l.requests with
  | nil =>
    rw [deliverRequest_nil hr]
    exact h
  | cons r rs =>
    have hstream := h.stream
    rw [hr] at hstream
    have hattached : ∀ q ∈ rs, ∀ b, q.buffer? = some b → b ∈ u.handles :=
      fun q hq => h.attached q (by rw [hr]; exact List.mem_cons_of_mem r hq)
    rw [deliverRequest_cons hr]
    cases r with
    | attach b x y =>
      obtain ⟨hback, hrest⟩ := hstream
      have hmem : b ∈ u.handles :=
        h.attached (.attach b x y) (by rw [hr]; exact List.mem_cons_self) b rfl
      rw [serve_attach (u.isShm b hmem)]
      refine ⟨h.handles, ⟨hs.frontReady, hs.backReady, hs.filled⟩, hrest, hattached, ?_⟩
      intro c hc
      have hsingle := h.single c hc
      have hquiet : wireEvents [.shmBufferGet (some b)] = [] := rfl
      simp only [tally, hr, hback, hquiet, List.append_nil, Option.toList_none, List.countP_nil,
        Option.toList_some] at hsingle ⊢
      by_cases hcb : b = c
      · subst hcb
        rw [List.countP_cons_of_pos (by simp [Request.buffer?])] at hsingle
        rw [List.countP_singleton, if_pos (by simp)]
        omega
      · rw [List.countP_cons_of_neg (by simpa [Request.buffer?] using hcb)] at hsingle
        rw [List.countP_singleton, if_neg (by simpa using hcb)]
        exact hsingle
    | damage x y w h' =>
      refine ⟨h.handles, hs, hstream, hattached, ?_⟩
      intro c hc
      have hsingle := h.single c hc
      unfold tally at hsingle ⊢
      rw [hr, List.countP_cons_of_neg (by simp [Request.buffer?])] at hsingle
      simp only [serve, Request.op, wireEvents_nil, List.append_nil]
      exact hsingle
    | frame cb =>
      refine ⟨h.handles, hs.surfaceFrame (some cb), hstream, hattached, ?_⟩
      intro c hc
      have hsingle := h.single c hc
      unfold tally at hsingle ⊢
      rw [hr, List.countP_cons_of_neg (by simp [Request.buffer?])] at hsingle
      simp only [serve, Request.op, Surface.perform, Surface.surfaceFrame, wireEvents_nil,
        List.append_nil]
      exact hsingle
    | commit =>
      obtain ⟨hback, hrest⟩ := hstream
      obtain ⟨b, hb⟩ := Option.ne_none_iff_exists'.mp hback
      have hserve : serve shm l.surface .commit = l.surface.surfaceCommit := rfl
      rw [hserve]
      refine ⟨h.handles, hs.surfaceCommit, ?_, hattached, ?_⟩
      · rw [(commit_moves hs hb b).1]
        exact hrest
      · intro c hc
        have hsingle := h.single c hc
        obtain ⟨hnone, hmoved⟩ := commit_moves hs hb c
        simp only [tally, hr] at hsingle ⊢
        rw [List.countP_cons_of_neg (by simp [Request.buffer?])] at hsingle
        rw [hnone, List.countP_append, Option.toList_none, List.countP_nil]
        omega

/-- Every action keeps every buffer in one place. -/
theorem Owned.act (h : Owned u l) (a : LinkAction) : Owned u (l.act shm a).1 := by
  cases a with
  | redraw b => exact h.redraw b
  | deliverRequest => exact h.deliverRequest
  | deliverEvent => exact h.deliverEvent
  | repaint => exact h.repaint

/-- Every run of the connection can go on, and keeps every buffer in one place. -/
theorem reaches_owned (u : Setup shm) (as : List LinkAction) :
    ∃ ms l, (linkMachine u).Reaches as ms l ∧ Owned u l := by
  induction as using List.reverseRecOn with
  | nil => exact ⟨[], _, rfl, owned_start u⟩
  | append_singleton as a ih =>
    obtain ⟨ms, l, hl, ho⟩ := ih
    exact ⟨_, _, hl.snoc rfl, ho.act a⟩

end Link

/-- **Buffer ownership is exact across client and server.** For any buffers, in every state any
schedule of redraws, deliveries and repaints reaches: each buffer is in exactly one place, once;
one that is in the back state has its commit in flight ahead of every other attach; and whatever
the client does next, it does not draw into the buffer the server shows. -/
theorem buffers_in_one_place {shm : ShmTable} (u : Setup shm) (as : List LinkAction) :
    ∃ ms l, (linkMachine u).Reaches as ms l ∧
      (∀ b ∈ u.handles, ∃ p, l.places b = [p]) ∧
      (∀ b, l.surface.mBack.buffer = some b → ∃ before after,
        l.requests = before ++ .commit :: after ∧ ∀ r ∈ before, r.buffer? = none) ∧
      ∀ a b, .draw b ∈ (l.act shm a).2 → l.surface.mFront.buffer ≠ some b := by
  obtain ⟨ms, l, hl, ho⟩ := Link.reaches_owned u as
  refine ⟨ms, l, hl, ?_, ?_, ?_⟩
  · intro b hb
    exact List.length_eq_one_iff.mp ((l.length_places b).trans (ho.single b hb))
  · intro b hb
    have hstream := ho.stream
    rw [hb] at hstream
    exact hstream.commit_ahead
  · intro a b hd
    cases a with
    | redraw c =>
      by_cases hr : l.Ready c
      · have hd' : Mark.draw b ∈ (l.redraw c).2 := hd
        rw [Link.redraw_ready (ho.handles ▸ u.nodup) hr] at hd'
        obtain rfl : b = c := by simpa [frameRequests] using hd'
        exact (ho.ready_elsewhere hr).2
      · have hd' : Mark.draw b ∈ (l.redraw c).2 := hd
        rw [Link.redraw_not_ready hr] at hd'
        cases hd'
    | deliverRequest => cases hd
    | deliverEvent => cases hd
    | repaint => exact absurd (List.mem_singleton.mp hd) (by simp)

end WaylandTest
