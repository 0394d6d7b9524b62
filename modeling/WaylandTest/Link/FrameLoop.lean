import WaylandTest.Link.Turns

/-!
# The repository's client against the repository's server

`client::WaylandSurface` has one buffer. Its constructor redraws; from then on `hookFrameDone`
redraws. The server shows the buffer, answers the first callback at once, and releases a buffer
only when another one replaces it, so the answer finds the one buffer not ready and `redraw`
returns before it asks for another frame.

`Link.Due` is what keeps the loop alive. A run has it in every state exactly if no `done` is
delivered while the buffer is not ready (`frameLoop_due_iff`). But the one buffer is never ready
again after the constructor's redraw (`frameLoop_busy`), so this asks that no `done` is delivered at
all (`findsReady_iff_undelivered`), and nothing is due once the first one is.
-/

set_option autoImplicit false

namespace WaylandTest

open Lib Client

/-- The setting of `client::WaylandSurface`: one buffer. -/
structure OneBuffer (shm : ShmTable) extends Setup shm where
  buffer : WlResource
  only : handles = [buffer]

/-- What can happen next between the repository's client and server. -/
inductive LoopAction
  | deliverRequest
  | deliverEvent
  | repaint
deriving DecidableEq, Repr

/-- One action between the client that owns the buffer `b` and the server. -/
def Link.loop (shm : ShmTable) (b : WlResource) (l : Link) : LoopAction → Link × List Mark
  | .deliverRequest => (l.deliverRequest shm, [])
  | .deliverEvent => l.answer b
  | .repaint => (l.repaint shm, [.repaint])

/-- `client::WaylandSurface`, from its constructor's redraw, and the server. -/
def frameLoop {shm : ShmTable} (u : OneBuffer shm) : Machine Mark Fault Link LoopAction where
  init := ((Link.start u.toSetup).redraw u.buffer).1
  step l a := Exec.done (l.loop shm u.buffer a)

namespace Link

/-- Something is due: a message is in flight, or the surface holds a callback to answer. -/
def Due (l : Link) : Prop :=
  l.requests ≠ [] ∨ l.events ≠ [] ∨ l.surface.mFront.callbackDone ≠ none ∨
    l.surface.mBack.callbackDone ≠ none

/-- The action does not deliver a `done` while the client's buffer is not ready to draw. -/
def FindsReady (b : WlResource) (l : Link) (a : LoopAction) : Prop :=
  a = .deliverEvent → (∃ cb es, l.events = .done cb :: es) → l.Ready b

/-- The action delivers a `done` to the client. -/
def DeliversDone (l : Link) (a : LoopAction) : Prop :=
  a = .deliverEvent ∧ ∃ cb es, l.events = .done cb :: es

/-- The one frame is under way: nothing is shown and nothing was sent back. -/
structure FirstSending {shm : ShmTable} (u : OneBuffer shm) (l : Link) : Prop where
  consistent : l.surface.Consistent
  left : FrameLeft l.requests l.surface.mBack.buffer l.surface.mBack.callbackDone
  attached : ∀ r ∈ l.requests, ∀ b, r.buffer? = some b → b = u.buffer
  hidden : l.surface.mFront.buffer = none
  unasked : l.surface.mFront.callbackDone = none
  silent : l.events = []
  busy : ¬ l.Ready u.buffer

/-- The one frame is shown, and its `done` is in flight. -/
structure FirstAnswered {shm : ShmTable} (u : OneBuffer shm) (l : Link) : Prop where
  consistent : l.surface.Consistent
  sent : l.requests = []
  front : l.surface.mFront.callbackDone = none
  back : l.surface.mBack.callbackDone = none
  answer : ∃ cb, l.events = [.done cb]
  busy : ¬ l.Ready u.buffer

/-- The `done` of the one frame was delivered, and nothing is left to happen. -/
structure Stalled {shm : ShmTable} (u : OneBuffer shm) (l : Link) : Prop where
  consistent : l.surface.Consistent
  sent : l.requests = []
  silent : l.events = []
  front : l.surface.mFront.callbackDone = none
  back : l.surface.mBack.callbackDone = none
  busy : ¬ l.Ready u.buffer

variable {shm : ShmTable} {u : OneBuffer shm} {l : Link}

theorem firstSending_start : FirstSending u (frameLoop u).init := by
  have hnodup : (start u.toSetup).handles.Nodup := by
    rw [(owned_start u.toSetup).handles]
    exact u.nodup
  have hready : (start u.toSetup).Ready u.buffer :=
    ⟨{ mBuffer := u.buffer }, by simp [start, u.only], rfl, rfl⟩
  have hinit : (frameLoop u).init = _ := congrArg Prod.fst (redraw_ready hnodup hready)
  rw [hinit]
  refine ⟨Surface.consistent_construct _ _ _ _, .all u.buffer u.firstCallback, ?_, rfl, rfl, rfl,
    ?_⟩
  · intro r hr b hb
    have hr' : r ∈ frameRequests u.buffer u.firstCallback := hr
    simp only [frameRequests, List.mem_cons, List.not_mem_nil, or_false] at hr'
    rcases hr' with rfl | rfl | rfl | rfl
    · exact (Option.some.inj hb).symm
    · cases hb
    · cases hb
    · cases hb
  · rintro ⟨w, hw, hwb, hwr⟩
    obtain ⟨v, hv, rfl⟩ := List.mem_map.mp hw
    by_cases hvb : v.mBuffer = u.buffer
    · rw [if_pos hvb] at hwr
      cases hwr
    · rw [if_neg hvb] at hwb
      exact hvb hwb

theorem FirstSending.deliverRequest (h : FirstSending u l) :
    FirstSending u (l.deliverRequest shm) ∨ FirstAnswered u (l.deliverRequest shm) := by
  cases hr : l.requests with
  | nil => exact absurd hr h.left.ne_nil
  | cons r rs =>
    have hleft := h.left
    rw [hr] at hleft
    rw [deliverRequest_cons hr]
    by_cases hc : r = .commit
    · subst hc
      right
      obtain ⟨b, cb, hb, hcb, rfl⟩ := hleft.commit_cases
      obtain ⟨_, hfront, _, hback, hev⟩ :=
        serve_commit_first shm h.consistent hb hcb h.hidden h.unasked
      refine ⟨h.consistent.surfaceCommit, rfl, hfront, hback, ⟨cb, ?_⟩, h.busy⟩
      show l.events ++ _ = _
      rw [h.silent, hev, List.nil_append]
    · left
      have hshm : ∀ b, r.buffer? = some b → (shm b).isSome := by
        intro b hb
        rw [h.attached r (by rw [hr]; exact List.mem_cons_self) b hb]
        exact u.isShm u.buffer (by rw [u.only]; exact List.mem_singleton_self _)
      obtain ⟨hleft', hfront, hev⟩ := serve_frameLeft hleft hshm hc
      have hcons : (serve shm l.surface r).1.Consistent := by
        unfold serve
        cases r.op with
        | none => exact h.consistent
        | some op => exact h.consistent.perform shm op
      refine ⟨hcons, hleft', ?_, ?_, ?_, ?_, h.busy⟩
      · exact fun q hq => h.attached q (by rw [hr]; exact List.mem_cons_of_mem r hq)
      · show (serve shm l.surface r).1.mFront.buffer = none
        rw [hfront]
        exact h.hidden
      · show (serve shm l.surface r).1.mFront.callbackDone = none
        rw [hfront]
        exact h.unasked
      · show l.events ++ _ = _
        rw [h.silent, hev, List.nil_append]

theorem FirstSending.due (h : FirstSending u l) : l.Due := .inl h.left.ne_nil

theorem FirstAnswered.due (h : FirstAnswered u l) : l.Due := by
  obtain ⟨cb, he⟩ := h.answer
  exact .inr (.inl (by rw [he]; exact List.cons_ne_nil _ _))

theorem Stalled.not_due (h : Stalled u l) : ¬ l.Due := by
  rintro (hd | hd | hd | hd)
  · exact hd h.sent
  · exact hd h.silent
  · exact hd h.front
  · exact hd h.back

/-- While the frame is under way, only its commit ends the situation. -/
theorem FirstSending.loop (h : FirstSending u l) (a : LoopAction) :
    FirstSending u (l.loop shm u.buffer a).1 ∨ FirstAnswered u (l.loop shm u.buffer a).1 := by
  cases a with
  | deliverRequest => exact h.deliverRequest
  | deliverEvent =>
    left
    show FirstSending u (l.answer u.buffer).1
    rw [answer_nil h.silent]
    exact h
  | repaint =>
    left
    show FirstSending u (l.repaint shm)
    rw [repaint_quiet h.consistent h.unasked]
    exact h

/-- The `done` of the one frame arrives: the buffer is not ready, so the client does not redraw. -/
theorem FirstAnswered.answer_stalls (h : FirstAnswered u l) :
    Stalled u (l.loop shm u.buffer .deliverEvent).1 := by
  obtain ⟨cb, he⟩ := h.answer
  have hbusy : ¬ Link.Ready { l with events := [] } u.buffer := h.busy
  show Stalled u (l.answer u.buffer).1
  rw [answer_done he, redraw_not_ready hbusy]
  exact ⟨h.consistent, h.sent, rfl, h.front, h.back, h.busy⟩

/-- Until then nothing changes. -/
theorem FirstAnswered.loop (h : FirstAnswered u l) {a : LoopAction} (ha : a ≠ .deliverEvent) :
    (l.loop shm u.buffer a).1 = l := by
  cases a with
  | deliverRequest => exact deliverRequest_nil h.sent
  | deliverEvent => exact absurd rfl ha
  | repaint => exact repaint_quiet h.consistent h.front

/-- And from then on nothing changes. -/
theorem Stalled.loop (h : Stalled u l) (a : LoopAction) : (l.loop shm u.buffer a).1 = l := by
  cases a with
  | deliverRequest => exact deliverRequest_nil h.sent
  | deliverEvent => exact congrArg Prod.fst (answer_nil h.silent)
  | repaint => exact repaint_quiet h.consistent h.front

/-- Every reached state is one of the three situations. -/
theorem frameLoop_turn {as : List LoopAction} {ms : List Mark}
    (h : (frameLoop u).Reaches as ms l) :
    FirstSending u l ∨ FirstAnswered u l ∨ Stalled u l := by
  refine h.invariant (P := fun l => FirstSending u l ∨ FirstAnswered u l ∨ Stalled u l)
    (.inl firstSending_start) ?_
  intro s a ds t hturn hstep
  obtain ⟨-, rfl⟩ := Exec.done_eq_ok.mp hstep
  rcases hturn with hturn | hturn | hturn
  · exact (hturn.loop a).imp_right .inl
  · by_cases ha : a = .deliverEvent
    · subst ha
      exact .inr (.inr hturn.answer_stalls)
    · rw [hturn.loop ha]
      exact .inr (.inl hturn)
  · rw [hturn.loop a]
    exact .inr (.inr hturn)

/-- The buffer of the first redraw stays with the server, which has no other to replace it. -/
theorem frameLoop_busy {as : List LoopAction} {ms : List Mark}
    (h : (frameLoop u).Reaches as ms l) : ¬ l.Ready u.buffer := by
  rcases frameLoop_turn h with hturn | hturn | hturn
  · exact hturn.busy
  · exact hturn.busy
  · exact hturn.busy

/-- So a client that finds its buffer ready at each `done` is one that no `done` is delivered to. -/
theorem findsReady_iff_undelivered (u : OneBuffer shm) (as : List LoopAction) :
    (frameLoop u).Along (FindsReady u.buffer) as ↔
      (frameLoop u).Along (fun l a => ¬ l.DeliversDone a) as := by
  apply Machine.along_congr
  intro bs a _ ms l hl
  constructor
  · rintro hfinds ⟨ha, hdone⟩
    exact frameLoop_busy hl (hfinds ha hdone)
  · intro hnone ha hdone
    exact absurd ⟨ha, hdone⟩ hnone

end Link

/-- **When the repository's frame loop is alive.** Over any run of the repository's client and
server, something is due in every state exactly if no `done` is delivered to a client whose buffer
is not ready to draw. -/
theorem frameLoop_due_iff {shm : ShmTable} (u : OneBuffer shm) (as : List LoopAction) :
    (frameLoop u).Always (fun _ l => l.Due) as ↔
      (frameLoop u).Along (Link.FindsReady u.buffer) as := by
  refine Machine.always_iff_along Link.firstSending_start.due ?_ ?_ as
  · intro as ms l a ds t hl hdue hfinds hstep
    obtain ⟨-, rfl⟩ := Exec.done_eq_ok.mp hstep
    rcases Link.frameLoop_turn hl with hturn | hturn | hturn
    · rcases hturn.loop a with ht | ht
      · exact ht.due
      · exact ht.due
    · by_cases ha : a = .deliverEvent
      · obtain ⟨cb, he⟩ := hturn.answer
        exact absurd (hfinds ha ⟨cb, [], he⟩) (Link.frameLoop_busy hl)
      · rw [hturn.loop ha]
        exact hdue
    · exact absurd hdue hturn.not_due
  · intro as ms l a hl hdue hmiss
    refine ⟨_, _, rfl, ?_⟩
    have hmiss' : l.DeliversDone a := by
      by_contra hno
      refine hmiss fun ha he => absurd ⟨ha, he⟩ hno
    obtain ⟨rfl, cb, es, he⟩ := hmiss'
    rcases Link.frameLoop_turn hl with hturn | hturn | hturn
    · rw [hturn.silent] at he
      cases he
    · exact hturn.answer_stalls.not_due
    · exact absurd hdue hturn.not_due

/-- One buffer in shared memory, under the handle `0`. -/
def oneBuffer : OneBuffer fun _ => some ⟨480, 360, 1920, .xrgb8888, []⟩ where
  handles := [0]
  nodup := List.nodup_singleton 0
  isShm := fun _ _ => rfl
  firstCallback := 1
  this := 0
  resource := 2
  client := 0
  listener := some .compositor
  buffer := 0
  only := rfl

/-- The loop dies at its first answer: the four requests of the first frame arrive, its `done`
arrives, and nothing is due any more. -/
theorem frameLoop_stalls :
    ¬ ∀ as, (frameLoop oneBuffer).Always (fun _ l => l.Due) as := by
  intro h
  have hdue := h [.deliverRequest, .deliverRequest, .deliverRequest, .deliverRequest,
    .deliverEvent] _ List.prefix_rfl _ _ rfl
  rcases hdue with hd | hd | hd | hd
  all_goals exact hd rfl

end WaylandTest
