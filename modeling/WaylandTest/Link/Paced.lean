import WaylandTest.Link.Turns

/-!
# Clients with two buffers are paced and never starve

What `MAX_BUFFERS = 2` and the immediate first `done` are for. The client sends one frame at the
start and one for each `done`, each with a buffer that is ready. At any time exactly one of three
things is under way, which `Turn` spells out: a frame is being sent, its `done` is in flight, or
its callback waits in the front state for a repaint. `Turn` also counts: a commit beyond the
second needs a repaint.

That a buffer is ready when a `done` arrives is not part of `Turn`: the paced client is one of the
clients of `linkMachine` (`paced_simulation`), so its buffers are each in one place, and only one
of them can be in front.
-/

set_option autoImplicit false

namespace WaylandTest

open Lib Client

/-- The setting of a client with two or more buffers; `first` is the one it starts with. -/
structure TwoBuffers (shm : ShmTable) extends Setup shm where
  two : 2 ≤ handles.length
  first : WlResource
  first_mem : first ∈ handles

/-- What can happen next between a paced client and the server. `choice` is the buffer the client
takes if the event is a `done`. -/
inductive PacedAction
  | deliverRequest
  | deliverEvent (choice : WlResource)
  | repaint
deriving DecidableEq, Repr

/-- One action between a paced client and the server. The client chooses a ready buffer; a schedule
that has it choose another one is not one of its schedules, and does nothing. -/
def Link.pace (shm : ShmTable) (l : Link) : PacedAction → Link × List Mark
  | .deliverRequest => (l.deliverRequest shm, [])
  | .deliverEvent b =>
    match l.events with
    | .done _ :: _ => if l.Ready b then l.answer b else (l, [])
    | _ => l.answer b
  | .repaint => (l.repaint shm, [.repaint])

/-- A paced client, from its first redraw, and the server. -/
def paced {shm : ShmTable} (u : TwoBuffers shm) : Machine Mark Fault Link PacedAction where
  init := ((Link.start u.toSetup).redraw u.first).1
  step l a := Exec.done (l.pace shm a)

/-- All that is seen of a run, its first redraw included. -/
def marks {shm : ShmTable} (u : TwoBuffers shm) (ms : List Mark) : List Mark :=
  ((Link.start u.toSetup).redraw u.first).2 ++ ms

namespace Link

variable {shm : ShmTable} {u : TwoBuffers shm} {l : Link} {n r : Nat}

/-- Only releases are in flight to the client. -/
def Quiet (es : List Event) : Prop := ∀ e ∈ es, ∃ b, e = .release b

/-- A frame is being sent; the one before it, if there is one, is shown and answered. -/
structure Sending (l : Link) (n r : Nat) : Prop where
  left : FrameLeft l.requests l.surface.mBack.buffer l.surface.mBack.callbackDone
  front : l.surface.mFront.callbackDone = none
  quiet : Quiet l.events
  commits : n ≤ r + 2
  first : l.surface.mFront.buffer = none → n = 1

/-- A frame is shown and its `done` is in flight, behind what was released before. -/
structure Answered (l : Link) (n r : Nat) : Prop where
  sent : l.requests = []
  pending : l.surface.mBack.buffer = none
  back : l.surface.mBack.callbackDone = none
  shown : l.surface.mFront.buffer ≠ none
  front : l.surface.mFront.callbackDone = none
  answer : ∃ es cb, l.events = es ++ [.done cb] ∧ Quiet es
  commits : n ≤ r + 1

/-- A frame is shown and its callback waits for a repaint. -/
structure Waiting (l : Link) (n r : Nat) : Prop where
  sent : l.requests = []
  pending : l.surface.mBack.buffer = none
  back : l.surface.mBack.callbackDone = none
  shown : l.surface.mFront.buffer ≠ none
  front : l.surface.mFront.callbackDone ≠ none
  quiet : Quiet l.events
  commits : n ≤ r + 2

/-- What is under way, after `n` commits and `r` repaints. -/
def Turn (l : Link) (n r : Nat) : Prop := Sending l n r ∨ Answered l n r ∨ Waiting l n r

theorem start_ready (u : TwoBuffers shm) : (start u.toSetup).Ready u.first :=
  ⟨{ mBuffer := u.first }, List.mem_map_of_mem u.first_mem, rfl, rfl⟩

theorem start_nodup (u : TwoBuffers shm) : (start u.toSetup).handles.Nodup := by
  rw [(owned_start u.toSetup).handles]
  exact u.nodup

/-- A redraw is seen as one commit and no repaint. -/
theorem count_redraw (nodup : l.handles.Nodup) {b : WlResource} (hr : l.Ready b) :
    (l.redraw b).2.count (.send .commit) = 1 ∧ (l.redraw b).2.count .repaint = 0 := by
  rw [redraw_ready nodup hr]
  constructor
  · simp [frameRequests]
  · simp [frameRequests]

theorem turn_start (u : TwoBuffers shm) : Turn (paced u).init 1 0 := by
  left
  have hinit : (paced u).init = _ :=
    congrArg Prod.fst (redraw_ready (start_nodup u) (start_ready u))
  rw [hinit]
  exact ⟨.all u.first u.firstCallback, rfl, (fun e he => nomatch he), by omega, fun _ => rfl⟩

/-! ## Deliveries to the server -/

theorem Sending.deliverRequest {v : Setup shm} (ho : Owned v l) (h : Sending l n r) :
    Turn (l.deliverRequest shm) n r := by
  cases hr : l.requests with
  | nil => exact absurd hr h.left.ne_nil
  | cons q qs =>
    have hleft := h.left
    rw [hr] at hleft
    rw [deliverRequest_cons hr]
    by_cases hc : q = .commit
    · subst hc
      obtain ⟨b, cb, hb, hcb, rfl⟩ := hleft.commit_cases
      cases hf : l.surface.mFront.buffer with
      | none =>
        -- the first frame: answered at once
        obtain ⟨hbuf, hfront, hback, hbackcb, hev⟩ :=
          serve_commit_first shm ho.consistent hb hcb hf h.front
        have hn := h.first hf
        right; left
        refine ⟨rfl, hback, hbackcb, ?_, hfront, ⟨l.events, cb, ?_, h.quiet⟩, by omega⟩
        · simp only [hbuf]
          exact Option.some_ne_none b
        · simp only [hev]
      | some f =>
        obtain ⟨hbuf, hfront, hback, hbackcb, hev⟩ :=
          serve_commit_next shm ho.consistent hb hcb hf h.front
        right; right
        refine ⟨rfl, hback, hbackcb, ?_, ?_, ?_, h.commits⟩
        · simp only [hbuf]
          exact Option.some_ne_none b
        · simp only [hfront]
          exact Option.some_ne_none cb
        · intro e he
          simp only [hev, List.mem_append, List.mem_singleton] at he
          rcases he with he | rfl
          · exact h.quiet e he
          · exact ⟨f, rfl⟩
    · left
      have hshm : ∀ b, q.buffer? = some b → (shm b).isSome := fun b hb =>
        v.isShm b (ho.attached q (by rw [hr]; exact List.mem_cons_self) b hb)
      obtain ⟨hleft', hfront, hev⟩ := serve_frameLeft hleft hshm hc
      refine ⟨hleft', ?_, ?_, h.commits, ?_⟩
      · simp only [hfront]
        exact h.front
      · simp only [hev, List.append_nil]
        exact h.quiet
      · simp only [hfront]
        exact h.first

/-! ## Repaints -/

theorem Turn.repaint {v : Setup shm} (ho : Owned v l) (h : Turn l n r) :
    Turn (l.repaint shm) n (r + 1) := by
  rcases h with h | h | h
  · rw [repaint_quiet ho.consistent h.front]
    have hn := h.commits
    exact .inl ⟨h.left, h.front, h.quiet, by omega, h.first⟩
  · rw [repaint_quiet ho.consistent h.front]
    have hn := h.commits
    exact .inr (.inl ⟨h.sent, h.pending, h.back, h.shown, h.front, h.answer, by omega⟩)
  · obtain ⟨f, hf⟩ := Option.ne_none_iff_exists'.mp h.shown
    obtain ⟨cb, hcb⟩ := Option.ne_none_iff_exists'.mp h.front
    rw [repaint_answers ho.consistent hf hcb]
    have hn := h.commits
    exact .inr (.inl ⟨h.sent, h.pending, h.back, h.shown, rfl, ⟨l.events, cb, rfl, h.quiet⟩,
      by omega⟩)

/-! ## Deliveries to the client -/

/-- A release delivered changes nothing of what is under way. -/
theorem Turn.release (h : Turn l n r) {c : WlResource} {es : List Event}
    (he : l.events = .release c :: es) (ws : List WaylandBuffer) :
    Turn { l with buffers := ws, events := es } n r := by
  rcases h with h | h | h
  · have hq : Quiet es := fun e hes => h.quiet e (by rw [he]; exact List.mem_cons_of_mem _ hes)
    exact .inl ⟨h.left, h.front, hq, h.commits, h.first⟩
  · obtain ⟨ds, cb, hds, hq⟩ := h.answer
    rw [he] at hds
    cases ds with
    | nil => cases hds
    | cons d ds =>
      obtain ⟨-, rfl⟩ := List.cons.inj hds
      have hq' : Quiet ds := fun e hes => hq e (List.mem_cons_of_mem d hes)
      exact .inr (.inl ⟨h.sent, h.pending, h.back, h.shown, h.front, ⟨ds, cb, rfl, hq'⟩,
        h.commits⟩)
  · have hq : Quiet es := fun e hes => h.quiet e (by rw [he]; exact List.mem_cons_of_mem _ hes)
    exact .inr (.inr ⟨h.sent, h.pending, h.back, h.shown, h.front, hq, h.commits⟩)

/-- A `done` is delivered last of all that was sent, with the frame shown and answered. -/
theorem Turn.done (h : Turn l n r) {cb : WlResource} {es : List Event}
    (he : l.events = .done cb :: es) : Answered l n r ∧ es = [] := by
  have hno : ∀ es, ¬ Quiet (.done cb :: es) := by
    intro es hq
    obtain ⟨b, hb⟩ := hq (.done cb) List.mem_cons_self
    cases hb
  rcases h with h | h | h
  · exact absurd (he ▸ h.quiet) (hno es)
  · refine ⟨h, ?_⟩
    obtain ⟨ds, cb', hds, hq⟩ := h.answer
    rw [he] at hds
    cases ds with
    | nil =>
      obtain ⟨-, hes⟩ := List.cons.inj hds
      exact hes
    | cons d ds =>
      obtain ⟨rfl, -⟩ := List.cons.inj hds
      exact absurd hq (hno ds)
  · exact absurd (he ▸ h.quiet) (hno es)

/-- The next frame is sent when its predecessor's `done` arrives. -/
theorem Answered.redraw {v : Setup shm} (ho : Owned v l) (h : Answered l n r) {b : WlResource}
    (hr : l.Ready b) : Turn (({ l with events := [] } : Link).redraw b).1 (n + 1) r := by
  have hnodup : (l.handles).Nodup := ho.handles ▸ v.nodup
  have he := redraw_ready (l := { l with events := [] }) hnodup hr
  rw [he]
  have hn := h.commits
  left
  refine ⟨?_, h.front, (fun e he => nomatch he), by omega, fun hf => absurd hf h.shown⟩
  simp only [h.sent, h.pending, h.back, List.nil_append]
  exact .all b l.nextCallback

/-- When a `done` arrives, every buffer but the one shown is ready. -/
theorem Answered.ready {v : Setup shm} (ho : Owned v l) (h : Answered l n r) {cb : WlResource}
    (he : l.events = [.done cb]) {b : WlResource} (hb : b ∈ v.handles)
    (hf : l.surface.mFront.buffer ≠ some b) : l.Ready b := by
  have hsingle := ho.single b hb
  have hfront : l.surface.mFront.buffer.toList.countP (· = b) = 0 := by
    rw [List.countP_eq_zero]
    intro c hc
    have hc' : l.surface.mFront.buffer = some c := Option.mem_toList.mp hc
    have hne : c ≠ b := fun h => hf (h ▸ hc')
    simpa using hne
  have hev : ([.done cb] : List Event).countP (· = .release b) = 0 := by simp
  have hpos : 0 < l.buffers.countP (fun w => w.mBuffer = b ∧ w.mReadyToDraw) := by
    unfold tally at hsingle
    rw [h.sent, h.pending, hfront, he, hev, List.countP_nil, Option.toList_none,
      List.countP_nil] at hsingle
    omega
  obtain ⟨w, hw, hp⟩ := List.countP_pos_iff.mp hpos
  obtain ⟨hwb, hwr⟩ := of_decide_eq_true hp
  exact ⟨w, hw, hwb, hwr⟩

/-- And with two buffers there is one. -/
theorem Answered.exists_ready (ho : Owned u.toSetup l) (h : Answered l n r) {cb : WlResource}
    (he : l.events = [.done cb]) : ∃ b ∈ u.handles, l.Ready b := by
  obtain ⟨f, hf⟩ := Option.ne_none_iff_exists'.mp h.shown
  have hother : ∃ b ∈ u.handles, b ≠ f := by
    by_contra hno
    have hall : ∀ b ∈ u.handles, b = f := fun b hb => by
      by_contra hne
      exact hno ⟨b, hb, hne⟩
    have hlen := List.nodup_iff_count_le_one.mp u.nodup f
    rw [List.eq_replicate_of_mem hall, List.count_replicate_self] at hlen
    have htwo := u.two
    omega
  obtain ⟨b, hb, hne⟩ := hother
  refine ⟨b, hb, h.ready ho he hb ?_⟩
  rw [hf]
  exact fun heq => hne (Option.some.inj heq).symm

end Link

/-! ## The paced client is one of the clients of the connection -/

theorem linkMachine_redraw {shm : ShmTable} {v : Setup shm} (l : Link) (b : WlResource) :
    (linkMachine v).runFrom l [.redraw b] = ⟨(l.redraw b).2, .ok (l.redraw b).1⟩ :=
  Machine.runFrom_singleton.mpr (Exec.done_eq_ok.mpr ⟨rfl, rfl⟩)

/-- A delivery to the client, answered, is a delivery and at most one redraw. -/
theorem linkMachine_answer {shm : ShmTable} {v : Setup shm} (l : Link) (b : WlResource) :
    ∃ as ds, (linkMachine v).runFrom l as = ⟨ds, .ok (l.answer b).1⟩ := by
  have hdeliver : ∀ l' : Link, l.deliverEvent = l' →
      (linkMachine v).runFrom l [.deliverEvent] = ⟨[], .ok l'⟩ := fun l' hl' =>
    Machine.runFrom_singleton.mpr (Exec.done_eq_ok.mpr ⟨rfl, hl'⟩)
  cases he : l.events with
  | nil =>
    rw [Link.answer_nil he]
    exact ⟨[], [], rfl⟩
  | cons e es =>
    cases e with
    | release c =>
      rw [Link.answer_release he]
      exact ⟨[.deliverEvent], [], hdeliver _ (Link.deliverEvent_release he)⟩
    | done cb =>
      rw [Link.answer_done he]
      have hrun := Machine.runFrom_append.mpr
        ⟨[], _, _, hdeliver _ (Link.deliverEvent_done he), linkMachine_redraw _ b, rfl⟩
      exact ⟨_, _, hrun⟩

/-- **A paced run is a run of the connection.** -/
theorem paced_simulation {shm : ShmTable} (u : TwoBuffers shm) :
    Machine.Simulation (paced u) (linkMachine u.toSetup) Eq := by
  refine ⟨⟨[.redraw u.first], _, _, linkMachine_redraw _ u.first, rfl⟩, ?_⟩
  rintro l _ a cs l' rfl hstep
  obtain ⟨-, rfl⟩ := Exec.done_eq_ok.mp hstep
  cases a with
  | deliverRequest =>
    exact ⟨[.deliverRequest], [], _, Machine.runFrom_singleton.mpr rfl, rfl⟩
  | repaint => exact ⟨[.repaint], [.repaint], _, Machine.runFrom_singleton.mpr rfl, rfl⟩
  | deliverEvent b =>
    obtain ⟨as, ds, hrun⟩ := linkMachine_answer (v := u.toSetup) l b
    simp only [Link.pace]
    split
    · split
      · exact ⟨as, ds, _, hrun, rfl⟩
      · exact ⟨[], [], l, rfl, rfl⟩
    · exact ⟨as, ds, _, hrun, rfl⟩

theorem paced_owned {shm : ShmTable} {u : TwoBuffers shm} {as : List PacedAction} {ms : List Mark}
    {l : Link} (h : (paced u).Reaches as ms l) : Link.Owned u.toSetup l := by
  obtain ⟨bs, ds, _, hl, rfl⟩ := (paced_simulation u).reaches h
  obtain ⟨_, l', hl', ho⟩ := Link.reaches_owned u.toSetup bs
  obtain ⟨-, rfl⟩ := hl.det hl'
  exact ho

/-! ## Every paced run -/

/-- The commits the client has sent. -/
def commitsSent (ms : List Mark) : Nat := ms.count (.send .commit)

/-- The repaints so far. -/
def repaintsMade (ms : List Mark) : Nat := ms.count .repaint

theorem Link.Answered.pace_done {shm : ShmTable} {v : Setup shm} {l : Link} {n r : Nat}
    (ho : Owned v l) (h : Answered l n r) {cb b : WlResource} (he : l.events = [.done cb])
    (hb : l.Ready b) :
    Turn (l.answer b).1 (n + 1) r ∧ commitsSent (l.answer b).2 = 1 ∧
      repaintsMade (l.answer b).2 = 0 := by
  have hnodup : l.handles.Nodup := ho.handles ▸ v.nodup
  rw [answer_done he]
  exact ⟨h.redraw ho hb, count_redraw (l := { l with events := [] }) hnodup hb⟩

/-- **One action between a paced client and the server** keeps the turns and the count. -/
theorem Link.Turn.pace {shm : ShmTable} {v : Setup shm} {l : Link} {n r : Nat} (ho : Owned v l)
    (h : Turn l n r) (a : PacedAction) :
    Turn (l.pace shm a).1 (n + commitsSent (l.pace shm a).2)
      (r + repaintsMade (l.pace shm a).2) := by
  cases a with
  | deliverRequest =>
    show Turn (l.deliverRequest shm) n r
    rcases h with h | h | h
    · exact h.deliverRequest ho
    · rw [deliverRequest_nil h.sent]
      exact .inr (.inl h)
    · rw [deliverRequest_nil h.sent]
      exact .inr (.inr h)
  | repaint => exact h.repaint ho
  | deliverEvent b =>
    cases he : l.events with
    | nil =>
      have hpace : l.pace shm (.deliverEvent b) = (l, []) := by
        simp only [Link.pace, he, answer_nil he]
      rw [hpace]
      exact h
    | cons e es =>
      cases e with
      | release c =>
        have hpace : l.pace shm (.deliverEvent b) =
            ({ l with buffers := l.update c WaylandBuffer.release, events := es }, []) := by
          simp only [Link.pace, he, answer_release he]
        rw [hpace]
        exact h.release he _
      | done cb =>
        obtain ⟨hans, rfl⟩ := h.done he
        by_cases hb : l.Ready b
        · have hpace : l.pace shm (.deliverEvent b) = l.answer b := by
            simp only [Link.pace, he, if_pos hb]
          obtain ⟨hturn, hcommits, hrepaints⟩ := hans.pace_done ho he hb
          rw [hpace, hcommits, hrepaints]
          exact hturn
        · have hpace : l.pace shm (.deliverEvent b) = (l, []) := by
            simp only [Link.pace, he, if_neg hb]
          rw [hpace]
          exact h

theorem paced_turn {shm : ShmTable} (u : TwoBuffers shm) {as : List PacedAction} {ms : List Mark}
    {l : Link} (h : (paced u).Reaches as ms l) :
    l.Turn (commitsSent (marks u ms)) (repaintsMade (marks u ms)) := by
  refine h.induct
    (P := fun _ ms l => l.Turn (commitsSent (marks u ms)) (repaintsMade (marks u ms))) ?_ ?_
  · obtain ⟨hcommits, hrepaints⟩ :=
      Link.count_redraw (Link.start_nodup u) (Link.start_ready u)
    have hc : commitsSent (marks u []) = 1 := by rw [marks, List.append_nil]; exact hcommits
    have hr : repaintsMade (marks u []) = 0 := by rw [marks, List.append_nil]; exact hrepaints
    rw [hc, hr]
    exact Link.turn_start u
  · intro as ms l a ds l' hl hturn hstep
    obtain ⟨rfl, rfl⟩ := Exec.done_eq_ok.mp hstep
    have hmarks : marks u (ms ++ (l.pace shm a).2) = marks u ms ++ (l.pace shm a).2 :=
      (List.append_assoc _ _ _).symm
    have hkeep := hturn.pace (paced_owned hl) a
    unfold commitsSent repaintsMade at *
    rw [hmarks, List.count_append, List.count_append]
    exact hkeep

/-- No schedule of a paced client and the server faults. -/
theorem paced_reaches {shm : ShmTable} (u : TwoBuffers shm) (as : List PacedAction) :
    ∃ ms l, (paced u).Reaches as ms l :=
  Machine.exists_reaches (fun _ _ => ⟨_, _, rfl⟩) as

/-- **Two buffers are enough.** After every schedule: if a `done` is the next event to arrive, a
buffer of the client is ready for the frame it asks for; a request is in flight, or a `done` is in
flight, or the front state is ready and holds a callback that a repaint answers; and the client has
sent at most two commits more than the server has made repaints. -/
theorem paced_never_starves {shm : ShmTable} (u : TwoBuffers shm) (as : List PacedAction) :
    ∃ ms l, (paced u).Reaches as ms l ∧
      (∀ cb, l.events.head? = some (.done cb) → ∃ b ∈ u.handles, l.Ready b) ∧
      (l.requests ≠ [] ∨ (∃ cb, .done cb ∈ l.events) ∨
        l.surface.isReady = true ∧ ∃ cb, l.surface.mFront.callbackDone = some cb ∧
          .done cb ∈ (l.repaint shm).events) ∧
      commitsSent (marks u ms) ≤ repaintsMade (marks u ms) + 2 := by
  obtain ⟨ms, l, hl⟩ := paced_reaches u as
  have ho := paced_owned hl
  have hturn := paced_turn u hl
  refine ⟨ms, l, hl, ?_, ?_, ?_⟩
  · intro cb hcb
    obtain ⟨es, he⟩ := List.head?_eq_some_iff.mp hcb
    obtain ⟨hans, rfl⟩ := hturn.done he
    exact hans.exists_ready ho he
  · rcases hturn with h | h | h
    · exact .inl h.left.ne_nil
    · obtain ⟨es, cb, he, -⟩ := h.answer
      refine .inr (.inl ⟨cb, ?_⟩)
      rw [he]
      exact List.mem_append_right es (List.mem_singleton_self _)
    · obtain ⟨f, hf⟩ := Option.ne_none_iff_exists'.mp h.shown
      obtain ⟨cb, hcb⟩ := Option.ne_none_iff_exists'.mp h.front
      refine .inr (.inr ⟨?_, cb, hcb, ?_⟩)
      · show l.surface.mFront.isReady = true
        rw [ho.consistent.frontReady, hf]
        rfl
      · rw [Link.repaint_answers ho.consistent hf hcb]
        exact List.mem_append_right l.events (List.mem_singleton_self _)
  · rcases hturn with h | h | h
    · exact h.commits
    · exact Nat.le_succ_of_le h.commits
    · exact h.commits

/-- Two buffers in shared memory, under the handles `0` and `1`. -/
def twoBuffers : TwoBuffers fun _ => some ⟨480, 360, 1920, .xrgb8888, []⟩ where
  handles := [0, 1]
  nodup := by decide
  isShm := fun _ _ => rfl
  firstCallback := 2
  this := 0
  resource := 3
  client := 0
  listener := some .compositor
  two := Nat.le_refl 2
  first := 0
  first_mem := List.mem_cons_self

/-- Two frames arrive, the repaint answers the second, and the release of the first buffer is
delivered: the next event is a `done`. -/
def twoFrames : List PacedAction :=
  [.deliverRequest, .deliverRequest, .deliverRequest, .deliverRequest, .deliverEvent 1,
    .deliverRequest, .deliverRequest, .deliverRequest, .deliverRequest, .repaint, .deliverEvent 0]

theorem paced_never_starves_twoFrames :
    ∃ ms l, (paced twoBuffers).Reaches twoFrames ms l ∧ l.events = [.done 3] ∧
      (∃ b ∈ [0, 1], l.Ready b) ∧
      commitsSent (marks twoBuffers ms) = 2 ∧ repaintsMade (marks twoBuffers ms) = 1 := by
  obtain ⟨ms, l, hl, hready, -⟩ := paced_never_starves twoBuffers twoFrames
  cases hl
  exact ⟨_, _, rfl, rfl, hready 3 rfl, rfl, rfl⟩

end WaylandTest
