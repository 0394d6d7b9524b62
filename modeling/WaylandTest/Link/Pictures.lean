import Mathlib.Logic.Function.Basic
import WaylandTest.Link.Ownership

/-!
# What the server reads of a client that draws in place

`redraw` of `client/waylandsurface.hpp` counts `color` up, sets every byte of a buffer to it and
sends the frame. The buffer is memory the server reads as well. Here the two share it, and the
`memset` is taken byte by byte, so that requests arrive and the server repaints while it runs.

`Painted` says what is in the memory that is under way to the display: the buffer shown holds the
picture of the last frame whose commit arrived, the buffers attached since hold the next pictures,
in order, and the buffer that is drawn into is none of these.

With the memory left out, the client that draws in place and the one that draws at once have the
same runs: `reaches_link` is one direction, and `inPlace_simulation` the other, where a whole
`memset` is made of its bytes (`runFrom_redraw`).
-/

set_option autoImplicit false

namespace WaylandTest

open Lib Client

namespace Client

/-- The `size` that `createShmBuffer` maps. -/
def shmSize : Nat := (mWidth * 4 * mHeight).toNat

/-- How many bytes `redraw` sets. -/
def drawnBytes : Nat := (mWidth * mHeight * 4).toNat

/-- The bytes of the `n`-th frame: `color` is a byte, and counts over. -/
def picture (n : Nat) : List UInt8 := List.replicate drawnBytes (UInt8.ofNat n)

/-- The `memset` sets the bytes of the mapping and no others. -/
theorem drawnBytes_eq : drawnBytes = shmSize := by decide

/-- `memset`: the first `n` bytes are set to `c`. -/
def memset (n : Nat) (c : UInt8) (bytes : List UInt8) : List UInt8 :=
  List.replicate n c ++ bytes.drop n

/-- One byte more. -/
theorem set_memset {n : Nat} {c : UInt8} {bytes : List UInt8} (hn : n < bytes.length) :
    (memset n c bytes).set n c = memset (n + 1) c bytes := by
  have hlen : (List.replicate n c).length = n := List.length_replicate
  unfold memset
  rw [List.set_append_right _ _ (Nat.le_of_eq hlen), hlen, Nat.sub_self,
    List.drop_eq_getElem_cons hn, List.set_cons_zero, List.replicate_succ', List.append_assoc]
  rfl

/-- All bytes of a mapping. -/
theorem memset_all {c : UInt8} {bytes : List UInt8} (h : bytes.length = drawnBytes) :
    memset drawnBytes c bytes = List.replicate drawnBytes c := by
  unfold memset
  rw [List.drop_of_length_le (Nat.le_of_eq h), List.append_nil]

end Client

/-- A connection with the memory of its buffers. -/
structure Shared where
  link : Link
  color : UInt8 := 0
  memory : WlResource → List UInt8 := fun _ => List.replicate shmSize 0
  /-- The buffer the client is drawing into, and how many bytes are set. -/
  drawing : Option (WlResource × Nat) := none

/-- What can happen next: the client begins to draw, sets a byte, sends what it has drawn, or takes
in an event; a request arrives; the server repaints. -/
inductive SharedAction
  | beginRedraw (buffer : WlResource)
  | store
  | endRedraw
  | deliverRequest
  | deliverEvent
  | repaint
deriving DecidableEq, Repr

namespace Shared

/-- The start: the mapping of a new file is zero. -/
def start {shm : ShmTable} (u : Setup shm) : Shared := { link := Link.start u }

/-- The buffers as the server sees them. -/
def table (shm : ShmTable) (s : Shared) : ShmTable :=
  fun b => (shm b).map fun buffer => { buffer with data := s.memory b }

/-- `WaylandSurface::redraw` up to the `memset`. -/
def beginRedraw (s : Shared) (b : WlResource) : Shared :=
  if s.drawing = none ∧ s.link.Ready b then
    { s with color := s.color + 1, drawing := some (b, 0) }
  else
    s

/-- The next byte of the `memset`. -/
def store (s : Shared) : Shared :=
  match s.drawing with
  | none => s
  | some (b, k) =>
    if k < drawnBytes then
      { s with
        memory := Function.update s.memory b ((s.memory b).set k s.color)
        drawing := some (b, k + 1) }
    else
      s

/-- `WaylandSurface::redraw` after the `memset`. -/
def endRedraw (s : Shared) : Shared × List Mark :=
  match s.drawing with
  | none => (s, [])
  | some (b, k) =>
    if k = drawnBytes then
      ({ s with link := (s.link.redraw b).1, drawing := none }, (s.link.redraw b).2)
    else
      (s, [])

/-- An action that leaves the memory alone. -/
def pass (shm : ShmTable) (s : Shared) (a : LinkAction) : Shared × List Mark :=
  ({ s with link := (s.link.act (s.table shm) a).1 }, (s.link.act (s.table shm) a).2)

/-- One action. A client that is drawing takes in no event. -/
def act (shm : ShmTable) (s : Shared) : SharedAction → Shared × List Mark
  | .beginRedraw b => (s.beginRedraw b, [])
  | .store => (s.store, [])
  | .endRedraw => s.endRedraw
  | .deliverRequest => s.pass shm .deliverRequest
  | .deliverEvent => if s.drawing = none then s.pass shm .deliverEvent else (s, [])
  | .repaint => s.pass shm .repaint

end Shared

/-- A client that draws in place, and the server. -/
def sharedMachine {shm : ShmTable} (u : Setup shm) : Machine Mark Fault Shared SharedAction where
  init := Shared.start u
  step s a := Exec.done (s.act shm a)

/-- How many frames were drawn. -/
def drawn (ms : List Mark) : Nat :=
  ms.countP fun
    | .draw _ => true
    | _ => false

@[simp] theorem drawn_append (ms ns : List Mark) : drawn (ms ++ ns) = drawn ms + drawn ns :=
  List.countP_append

/-! ## The buffers on their way to the display -/

/-- What is attached has its commit in flight. -/
theorem Committed.count_commit {pending : Option WlResource} {rs : List Request}
    (h : Committed pending rs) :
    rs.count .commit = (pending.toList ++ rs.filterMap Request.buffer?).length := by
  induction rs generalizing pending with
  | nil =>
    obtain rfl : pending = none := h
    rfl
  | cons r rs ih =>
    cases r with
    | attach b x y =>
      obtain ⟨rfl, h⟩ := h
      simpa [Request.buffer?] using ih h
    | commit =>
      obtain ⟨hpending, h⟩ := h
      obtain ⟨b, rfl⟩ := Option.ne_none_iff_exists'.mp hpending
      have hrest := ih h
      simp only [Option.toList_none, List.nil_append] at hrest
      simp [List.filterMap_cons, Request.buffer?, hrest]
    | damage x y w h' => simpa [List.filterMap_cons, Request.buffer?] using @ih pending h
    | frame cb => simpa [List.filterMap_cons, Request.buffer?] using @ih pending h

namespace Link

variable {shm : ShmTable} {u : Setup shm} {l : Link} {b : WlResource}

/-- The buffers that were sent and are not shown yet, in the order in which they will be. -/
def pending (l : Link) : List WlResource :=
  l.surface.mBack.buffer.toList ++ l.requests.filterMap Request.buffer?

theorem Owned.ready_mem (h : Owned u l) (hr : l.Ready b) : b ∈ u.handles := by
  obtain ⟨w, hw, rfl, -⟩ := hr
  rw [← h.handles]
  exact List.mem_map_of_mem hw

/-- A ready buffer is the client's, and the server neither shows it nor is about to. -/
theorem Owned.ready_free (h : Owned u l) (hr : l.Ready b) :
    l.surface.mFront.buffer ≠ some b ∧ b ∉ l.pending := by
  obtain ⟨hclient, hfront⟩ := h.ready_elsewhere hr
  have hone := h.single b (h.ready_mem hr)
  unfold tally at hone
  refine ⟨hfront, fun hp => ?_⟩
  rcases List.mem_append.mp hp with hback | hreq
  · have hpos : 0 < l.surface.mBack.buffer.toList.countP (· = b) :=
      List.countP_pos_iff.mpr ⟨_, hback, by simp⟩
    omega
  · obtain ⟨r, hr, hb⟩ := List.mem_filterMap.mp hreq
    have hpos : 0 < l.requests.countP (fun r => r.buffer? = some b) :=
      List.countP_pos_iff.mpr ⟨r, hr, by simp [hb]⟩
    omega

theorem Owned.pending_redraw (h : Owned u l) (hr : l.Ready b) :
    (l.redraw b).1.pending = l.pending ++ [b] := by
  rw [redraw_ready (h.handles ▸ u.nodup) hr]
  simp [pending, frameRequests, Request.buffer?]

theorem Owned.drawn_redraw (h : Owned u l) (hr : l.Ready b) : drawn (l.redraw b).2 = 1 := by
  rw [redraw_ready (h.handles ▸ u.nodup) hr]
  rfl

theorem Owned.front_redraw (h : Owned u l) (hr : l.Ready b) :
    (l.redraw b).1.surface = l.surface := by
  rw [redraw_ready (h.handles ▸ u.nodup) hr]

/-- A request that arrives leaves what is pending and what is shown alone, or it is the commit that
shows the first pending buffer. -/
theorem Owned.pending_deliverRequest (h : Owned u l) :
    ((l.deliverRequest shm).pending = l.pending ∧
        (l.deliverRequest shm).surface.mFront.buffer = l.surface.mFront.buffer) ∨
      ∃ b, l.pending = b :: (l.deliverRequest shm).pending ∧
        (l.deliverRequest shm).surface.mFront.buffer = some b := by
  have hstream := h.stream
  have hs := h.consistent
  cases hr : l.requests with
  | nil =>
    rw [deliverRequest_nil hr]
    exact .inl ⟨rfl, rfl⟩
  | cons r rs =>
    rw [hr] at hstream
    rw [deliverRequest_cons hr]
    cases r with
    | attach b x y =>
      have hmem : b ∈ u.handles :=
        h.attached (.attach b x y) (by rw [hr]; exact List.mem_cons_self) b rfl
      rw [serve_attach (u.isShm b hmem)]
      refine .inl ⟨?_, rfl⟩
      simp [pending, hr, hstream.1, Request.buffer?]
    | damage x y w h' =>
      refine .inl ⟨?_, rfl⟩
      simp [pending, hr, serve, Request.op, List.filterMap_cons, Request.buffer?]
    | frame cb =>
      refine .inl ⟨?_, rfl⟩
      simp [pending, hr, serve, Request.op, List.filterMap_cons, Request.buffer?, Surface.perform,
        Surface.surfaceFrame]
    | commit =>
      obtain ⟨b, hb⟩ := Option.ne_none_iff_exists'.mp hstream.1
      have hserve : serve shm l.surface .commit = l.surface.surfaceCommit := rfl
      refine .inr ⟨b, ?_, ?_⟩
      · simp [pending, hr, hb, hserve, (commit_moves hs hb b).1, List.filterMap_cons,
          Request.buffer?]
      · show (serve shm l.surface .commit).1.mFront.buffer = some b
        rw [hserve]
        cases hf : l.surface.mFront.buffer with
        | none => rw [Surface.surfaceCommit_first hs hb hf, ← hb]
        | some f => rw [Surface.surfaceCommit_next hs hb hf, ← hb]

theorem pending_deliverEvent :
    l.deliverEvent.pending = l.pending ∧ l.deliverEvent.surface = l.surface := by
  cases he : l.events with
  | nil => simp [deliverEvent_nil he]
  | cons e es =>
    cases e with
    | done cb => simp [deliverEvent_done he, pending]
    | release c => simp [deliverEvent_release he, pending]

theorem Owned.pending_repaint (h : Owned u l) :
    (l.repaint shm).pending = l.pending ∧
      (l.repaint shm).surface.mFront.buffer = l.surface.mFront.buffer := by
  have hs := h.consistent
  cases hf : l.surface.mFront.buffer with
  | none => simp [Link.repaint, pending, Surface.repainted_idle hs hf, hf]
  | some f => simp [Link.repaint, pending, (Surface.repainted_shown shm hs hf).1, hf]

@[simp] theorem buffers_deliverRequest : (l.deliverRequest shm).buffers = l.buffers := by
  unfold deliverRequest
  cases l.requests <;> rfl

/-- A request is handled alike whatever the buffers hold. -/
theorem serve_congr {shm' : ShmTable} (h : ∀ b, (shm' b).isSome = (shm b).isSome) (s : Surface)
    (r : Request) : serve shm' s r = serve shm s r := by
  cases r with
  | attach b x y =>
    have hb := h b
    simp only [serve, Request.op, Surface.perform, Surface.surfaceAttach, ShmTable.get,
      Option.bind_some]
    cases hs : shm b with
    | none =>
      rw [hs, Option.isSome_none, Option.isSome_eq_false_iff, Option.isNone_iff_eq_none] at hb
      simp only [hb]
    | some buffer =>
      rw [hs, Option.isSome_some] at hb
      obtain ⟨buffer', hb⟩ := Option.isSome_iff_exists.mp hb
      simp only [hb]
  | damage x y w h' => rfl
  | frame cb => rfl
  | commit => rfl

/-- An action does the same whatever the buffers hold. -/
theorem act_congr {shm' : ShmTable} (h : ∀ b, (shm' b).isSome = (shm b).isSome) (l : Link)
    (a : LinkAction) : l.act shm' a = l.act shm a := by
  have hlock : (l.surface.lockBuffer shm').2 = (l.surface.lockBuffer shm).2 := by
    unfold Surface.lockBuffer
    split <;> rfl
  cases a with
  | redraw b => rfl
  | deliverRequest => simp only [act, deliverRequest, serve_congr h]
  | deliverEvent => rfl
  | repaint => simp only [act, repaint, Surface.repainted, hlock]

end Link

/-! ## What the memory holds -/

namespace Shared

variable {shm : ShmTable} {u : Setup shm} {m n : Nat} {s : Shared}

/-- `m` frames are drawn and the commits of `n` of them have arrived. -/
structure Painted (u : Setup shm) (m n : Nat) (s : Shared) : Prop where
  owned : Link.Owned u s.link
  count : n + s.link.pending.length = m
  color : s.color = UInt8.ofNat (m + s.drawing.toList.length)
  ours : ∀ b ∈ s.link.surface.mFront.buffer.toList ++ s.link.pending, b ∈ u.handles
  mapped : ∀ b, (s.memory b).length = drawnBytes
  shown : s.link.surface.mFront.buffer.map s.memory = if n = 0 then none else some (picture n)
  waiting : s.link.pending.map s.memory = (List.range' (n + 1) s.link.pending.length).map picture
  drawing : ∀ b k, s.drawing = some (b, k) →
    s.link.Ready b ∧ k ≤ drawnBytes ∧ (s.memory b).take k = List.replicate k s.color

theorem painted_start (u : Setup shm) : Painted u 0 0 (start u) where
  owned := Link.owned_start u
  count := rfl
  color := rfl
  ours _ h := nomatch h
  mapped _ := by rw [drawnBytes_eq]; exact List.length_replicate
  shown := rfl
  waiting := rfl
  drawing _ _ h := nomatch h

theorem Painted.beginRedraw (h : Painted u m n s) (b : WlResource) :
    Painted u m n (s.beginRedraw b) := by
  unfold Shared.beginRedraw
  by_cases hr : s.drawing = none ∧ s.link.Ready b
  · rw [if_pos hr]
    refine ⟨h.owned, h.count, ?_, h.ours, h.mapped, h.shown, h.waiting, ?_⟩
    · have hcolor := h.color
      rw [hr.1] at hcolor
      simp [hcolor]
    · rintro c k hd
      cases hd
      exact ⟨hr.2, Nat.zero_le _, by simp⟩
  · rw [if_neg hr]
    exact h

/-- A byte set in a list whose bytes before it are set. -/
theorem take_set {bytes : List UInt8} {k : Nat} {c : UInt8} (hk : k < bytes.length)
    (h : bytes.take k = List.replicate k c) :
    (bytes.set k c).take (k + 1) = List.replicate (k + 1) c := by
  rw [List.take_add_one, List.take_set_of_le (Nat.le_refl k), h, List.getElem?_set_self hk,
    List.replicate_succ']
  rfl

/-- The client sets a byte of a buffer that is not under way. -/
theorem Painted.store (h : Painted u m n s) : Painted u m n s.store := by
  unfold Shared.store
  cases hd : s.drawing with
  | none => exact h
  | some d =>
    obtain ⟨b, k⟩ := d
    obtain ⟨hready, -, hset⟩ := h.drawing b k hd
    obtain ⟨hfront, hpending⟩ := h.owned.ready_free hready
    by_cases hk : k < drawnBytes
    · simp only [hk, if_true]
      refine ⟨h.owned, h.count, ?_, h.ours, fun c => ?_, ?_, ?_, ?_⟩
      · rw [h.color, hd]
        rfl
      · by_cases hc : c = b
        · simp [hc, h.mapped]
        · simp [hc, h.mapped]
      · rw [← h.shown]
        refine Option.map_congr fun c hc => ?_
        exact Function.update_of_ne (fun hcb : c = b => hfront (hcb ▸ hc)) _ _
      · rw [← h.waiting]
        refine List.map_congr_left fun c hc => ?_
        exact Function.update_of_ne (fun hcb : c = b => hpending (hcb ▸ hc)) _ _
      · intro c j hj
        cases hj
        refine ⟨hready, hk, ?_⟩
        show (Function.update s.memory b _ b).take (k + 1) = List.replicate (k + 1) s.color
        rw [Function.update_self]
        exact take_set (by rw [h.mapped]; exact hk) hset
    · simp only [hk, if_false]
      exact h

/-- The client sends what it has drawn: one more picture is under way. -/
theorem Painted.endRedraw (h : Painted u m n s) :
    Painted u (m + drawn s.endRedraw.2) n s.endRedraw.1 := by
  unfold Shared.endRedraw
  cases hd : s.drawing with
  | none => exact h
  | some d =>
    obtain ⟨b, k⟩ := d
    obtain ⟨hready, -, hset⟩ := h.drawing b k hd
    have hcolor : s.color = UInt8.ofNat (m + 1) := by
      rw [h.color, hd]
      rfl
    by_cases hk : k = drawnBytes
    · subst hk
      have hwhole : s.memory b = picture (m + 1) := by
        rw [← h.mapped b, List.take_length, h.mapped b] at hset
        rw [hset, hcolor]
        rfl
      have hpending := h.owned.pending_redraw hready
      simp only [if_true, h.owned.drawn_redraw hready]
      refine ⟨h.owned.redraw b, ?_, hcolor, fun c hc => ?_, h.mapped, ?_, ?_,
        fun c j hj => nomatch hj⟩
      · rw [hpending, List.length_append, ← h.count]
        rfl
      · rw [hpending, h.owned.front_redraw hready, ← List.append_assoc] at hc
        rcases List.mem_append.mp hc with hc | hc
        · exact h.ours c hc
        · obtain rfl : c = b := List.mem_singleton.mp hc
          exact h.owned.ready_mem hready
      · rw [h.owned.front_redraw hready]
        exact h.shown
      · rw [hpending, List.map_append, h.waiting, List.length_append, List.length_singleton,
          List.range'_concat, List.map_append]
        simp only [List.map_singleton, hwhole, ← h.count, Nat.one_mul]
        congr 3
        omega
    · simp only [hk, if_false]
      exact h

theorem table_isSome (shm : ShmTable) (s : Shared) (b : WlResource) :
    (s.table shm b).isSome = (shm b).isSome := by
  simp [table]

/-- The connection goes on, and the buffers under way are the same. -/
theorem Painted.goOn (h : Painted u m n s) {l : Link} (ho : Link.Owned u l)
    (hpending : l.pending = s.link.pending)
    (hfront : l.surface.mFront.buffer = s.link.surface.mFront.buffer)
    (hready : ∀ b, s.drawing.isSome → s.link.Ready b → l.Ready b) :
    Painted u m n { s with link := l } := by
  refine ⟨ho, ?_, h.color, ?_, h.mapped, ?_, ?_, fun b k hd => ?_⟩
  · simpa only [hpending] using h.count
  · simpa only [hpending, hfront] using h.ours
  · simpa only [hfront] using h.shown
  · simpa only [hpending] using h.waiting
  · obtain ⟨hb, hset⟩ := h.drawing b k hd
    exact ⟨hready b (by simp [show s.drawing = some (b, k) from hd]) hb, hset⟩

/-- The server takes in a request: the buffers under way are the same, or the next one is shown. -/
theorem Painted.deliverRequest (h : Painted u m n s) :
    ∃ n', Painted u m n' (s.pass shm .deliverRequest).1 := by
  have hready : ∀ b, s.link.Ready b → (s.link.deliverRequest shm).Ready b := by
    intro b hb
    unfold Link.Ready
    rw [Link.buffers_deliverRequest]
    exact hb
  unfold pass
  rw [Link.act_congr (s.table_isSome shm)]
  rcases h.owned.pending_deliverRequest with ⟨hpending, hfront⟩ | ⟨b, hpending, hfront⟩
  · exact ⟨n, h.goOn h.owned.deliverRequest hpending hfront fun b _ => hready b⟩
  · have hcount := h.count
    have hours := h.ours
    have hwaiting := h.waiting
    rw [hpending, List.length_cons] at hcount hwaiting
    rw [hpending] at hours
    rw [List.range'_succ, List.map_cons, List.map_cons] at hwaiting
    obtain ⟨hfirst, hrest⟩ := List.cons.inj hwaiting
    refine ⟨n + 1, h.owned.deliverRequest, ?_, h.color, fun c hc => ?_, h.mapped, ?_, hrest, ?_⟩
    · show n + 1 + (s.link.deliverRequest shm).pending.length = m
      omega
    · refine hours c (List.mem_append_right _ ?_)
      have hc' : c ∈ (s.link.deliverRequest shm).surface.mFront.buffer.toList ++
        (s.link.deliverRequest shm).pending := hc
      simpa [hfront] using hc'
    · show (s.link.deliverRequest shm).surface.mFront.buffer.map s.memory = _
      rw [hfront, Option.map_some, hfirst]
      rfl
    · intro c k hd
      obtain ⟨hc, hset⟩ := h.drawing c k hd
      exact ⟨hready c hc, hset⟩

theorem Painted.repaint (h : Painted u m n s) : Painted u m n (s.pass shm .repaint).1 := by
  unfold pass
  rw [Link.act_congr (s.table_isSome shm)]
  obtain ⟨hpending, hfront⟩ := h.owned.pending_repaint
  exact h.goOn h.owned.repaint hpending hfront fun _ _ hb => hb

theorem Painted.deliverEvent (h : Painted u m n s) (hd : s.drawing = none) :
    Painted u m n (s.pass shm .deliverEvent).1 := by
  obtain ⟨hpending, hsurface⟩ := s.link.pending_deliverEvent
  have hfront := congrArg (·.mFront.buffer) hsurface
  refine h.goOn h.owned.deliverEvent hpending hfront fun b hsome => ?_
  rw [hd] at hsome
  cases hsome

/-- Every action keeps the pictures whole. -/
theorem Painted.act (h : Painted u m n s) (a : SharedAction) :
    ∃ n', Painted u (m + drawn (s.act shm a).2) n' (s.act shm a).1 := by
  cases a with
  | beginRedraw b => exact ⟨n, h.beginRedraw b⟩
  | store => exact ⟨n, h.store⟩
  | endRedraw => exact ⟨n, h.endRedraw⟩
  | deliverRequest => exact h.deliverRequest
  | deliverEvent =>
    by_cases hd : s.drawing = none
    · simpa only [Shared.act, if_pos hd] using ⟨n, h.deliverEvent hd⟩
    · simpa only [Shared.act, if_neg hd] using ⟨n, h⟩
  | repaint => exact ⟨n, h.repaint⟩

theorem reaches_painted (u : Setup shm) {as : List SharedAction} {ms : List Mark}
    (h : (sharedMachine u).Reaches as ms s) : ∃ n, Painted u (drawn ms) n s := by
  refine h.induct (P := fun _ ms s => ∃ n, Painted u (drawn ms) n s) ?_ ?_
  · exact ⟨0, painted_start u⟩
  · intro as ms s a ns t hs ih hstep
    obtain ⟨n, ih⟩ := ih
    cases hstep
    rw [drawn_append]
    exact ih.act a

/-- What `lockBuffer` gives the server: the memory of the buffer shown. -/
theorem Painted.lockBuffer (h : Painted u m n s) :
    (s.link.surface.lockBuffer (s.table shm)).1.map (·.data) =
      s.link.surface.mFront.buffer.map s.memory := by
  unfold Surface.lockBuffer
  rw [h.owned.consistent.frontReady]
  cases hf : s.link.surface.mFront.buffer with
  | none => rfl
  | some b =>
    have hmem : b ∈ u.handles := h.ours b (by simp [hf])
    obtain ⟨buffer, hb⟩ := Option.isSome_iff_exists.mp (u.isShm b hmem)
    simp [ShmTable.get, table, hb]

/-- An action does nothing on the connection, or it is one action there. -/
theorem act_link (shm : ShmTable) (s : Shared) (a : SharedAction) :
    s.link = (s.act shm a).1.link ∧ (s.act shm a).2 = [] ∨
      ∃ a', s.link.act shm a' = ((s.act shm a).1.link, (s.act shm a).2) := by
  have hpass : ∀ a', s.link.act shm a' = ((s.pass shm a').1.link, (s.pass shm a').2) := by
    intro a'
    simp only [pass, Link.act_congr (s.table_isSome shm)]
  cases a with
  | beginRedraw b =>
    refine .inl ⟨?_, rfl⟩
    simp only [act, beginRedraw]
    split <;> rfl
  | store =>
    refine .inl ⟨?_, rfl⟩
    simp only [act, store]
    split
    · rfl
    · split <;> rfl
  | endRedraw =>
    simp only [act, endRedraw]
    cases hd : s.drawing with
    | none => exact .inl ⟨rfl, rfl⟩
    | some d =>
      by_cases hk : d.2 = drawnBytes
      · simp only [hk, if_true]
        exact .inr ⟨.redraw d.1, rfl⟩
      · simp only [hk, if_false]
        exact .inl ⟨trivial, trivial⟩
  | deliverRequest => exact .inr ⟨_, hpass _⟩
  | deliverEvent =>
    by_cases hd : s.drawing = none
    · simp only [act, if_pos hd]
      exact .inr ⟨_, hpass _⟩
    · simp only [act, if_neg hd]
      exact .inl ⟨trivial, trivial⟩
  | repaint => exact .inr ⟨_, hpass _⟩

/-- Drawing byte by byte is not seen on the connection: a run is, with the memory left out, a run of
the client that draws at once. -/
theorem reaches_link (u : Setup shm) {as : List SharedAction} {ms : List Mark}
    (h : (sharedMachine u).Reaches as ms s) :
    ∃ as', (linkMachine u).Reaches as' ms s.link := by
  refine h.induct (P := fun _ ms s => ∃ as', (linkMachine u).Reaches as' ms s.link) ?_ ?_
  · exact ⟨[], rfl⟩
  · intro as ms s a ns t hs ih hstep
    obtain ⟨as', ih⟩ := ih
    cases hstep
    rcases s.act_link shm a with ⟨hlink, hquiet⟩ | ⟨a', ha⟩
    · exact ⟨as', by rw [hquiet, List.append_nil, ← hlink]; exact ih⟩
    · exact ⟨as' ++ [a'], ih.snoc (congrArg Exec.done ha)⟩

/-! ## A whole drawing -/

/-- The `memset` of a buffer that the client has begun to draw into, up to any byte. -/
theorem runFrom_store {b : WlResource} (hd : s.drawing = some (b, 0))
    (hlen : (s.memory b).length = drawnBytes) (n : Nat) (hn : n ≤ drawnBytes) :
    (sharedMachine u).runFrom s (List.replicate n .store) =
      ⟨[], .ok { s with
        memory := Function.update s.memory b (memset n s.color (s.memory b))
        drawing := some (b, n) }⟩ := by
  induction n with
  | zero =>
    have hmemory : Function.update s.memory b (memset 0 s.color (s.memory b)) = s.memory :=
      Function.update_eq_self b s.memory
    rw [hmemory, ← hd]
    rfl
  | succ n ih =>
    have hbyte : n < drawnBytes := hn
    rw [List.replicate_succ']
    refine Machine.runFrom_append.mpr ⟨[], _, [], ih (Nat.le_of_lt hbyte), ?_, rfl⟩
    apply Machine.runFrom_singleton.mpr
    apply Exec.done_eq_ok.mpr
    refine ⟨rfl, ?_⟩
    simp only [act, store, if_pos hbyte, Function.update_self, Function.update_idem]
    rw [set_memset (by rw [hlen]; exact hbyte)]

/-- What a client that draws in place does for one redraw. -/
def redrawActions (b : WlResource) : List SharedAction :=
  .beginRedraw b :: (List.replicate drawnBytes .store ++ [.endRedraw])

/-- A redraw, byte by byte, with nothing in between: the buffer holds the next picture, and the
frame is sent as by a client that draws at once. -/
theorem runFrom_redraw {b : WlResource} (hidle : s.drawing = none) (hready : s.link.Ready b)
    (hlen : (s.memory b).length = drawnBytes) :
    (sharedMachine u).runFrom s (redrawActions b) =
      ⟨(s.link.redraw b).2, .ok {
        link := (s.link.redraw b).1
        color := s.color + 1
        memory := Function.update s.memory b (List.replicate drawnBytes (s.color + 1))
        drawing := none }⟩ := by
  have hbegin : s.beginRedraw b = { s with color := s.color + 1, drawing := some (b, 0) } := by
    simp only [beginRedraw, if_pos (And.intro hidle hready)]
  have hstart : (sharedMachine u).runFrom s [.beginRedraw b] = ⟨[], .ok (s.beginRedraw b)⟩ :=
    Machine.runFrom_singleton.mpr rfl
  have hmemset := runFrom_store (u := u) (s := s.beginRedraw b) (b := b) (by rw [hbegin])
    (by rw [hbegin]; exact hlen) drawnBytes (Nat.le_refl _)
  rw [hbegin] at hstart hmemset
  simp only [memset_all hlen] at hmemset
  rw [redrawActions, ← List.singleton_append]
  refine Machine.runFrom_append.mpr ⟨[], _, _, hstart, ?_, (List.nil_append _).symm⟩
  refine Machine.runFrom_append.mpr ⟨[], _, _, hmemset, ?_, (List.nil_append _).symm⟩
  exact Machine.runFrom_singleton.mpr (congrArg Exec.done (if_pos rfl))

/-- **What a client that draws at once does, one that draws in place can do**: a redraw becomes the
whole `memset` between its two ends, and every other action stays what it is. -/
theorem inPlace_simulation (u : Setup shm) :
    Machine.Simulation (linkMachine u) (sharedMachine u) fun l s =>
      s.link = l ∧ s.drawing = none ∧ ∀ b, (s.memory b).length = drawnBytes := by
  have hmapped : ∀ b, ((start u).memory b).length = drawnBytes := (painted_start u).mapped
  refine ⟨⟨[], [], start u, rfl, rfl, rfl, hmapped⟩, ?_⟩
  rintro _ s a ms l' ⟨rfl, hidle, hlen⟩ hstep
  obtain ⟨-, rfl⟩ := Exec.done_eq_ok.mp hstep
  have hpass : ∀ a', s.act shm a' = s.pass shm a → ∃ as ns t,
      (sharedMachine u).runFrom s as = ⟨ns, .ok t⟩ ∧ t.link = (s.link.act shm a).1 ∧
        t.drawing = none ∧ ∀ b, (t.memory b).length = drawnBytes := by
    intro a' ha
    refine ⟨[a'], _, _, Machine.runFrom_singleton.mpr (congrArg Exec.done ha), ?_, hidle, hlen⟩
    rw [pass, Link.act_congr (s.table_isSome shm)]
  cases a with
  | redraw b =>
    -- a buffer that is not ready is not drawn into on either side
    by_cases hready : s.link.Ready b
    · refine ⟨_, _, _, runFrom_redraw hidle hready (hlen b), rfl, rfl, fun c => ?_⟩
      by_cases hc : c = b
      · simp [hc]
      · simp [hc, hlen]
    · refine ⟨[], [], s, rfl, ?_, hidle, hlen⟩
      exact (congrArg Prod.fst (Link.redraw_not_ready hready)).symm
  | deliverRequest => exact hpass .deliverRequest rfl
  | deliverEvent => exact hpass .deliverEvent (if_pos hidle)
  | repaint => exact hpass .repaint rfl

end Shared

/-- **No picture is torn.** The client draws in place, byte by byte, into memory the server reads,
and requests, events and repaints come at any time. In every state the server is given the whole
picture of the last frame whose commit arrived, or none before the first. -/
theorem server_reads_whole_pictures {shm : ShmTable} (u : Setup shm) (as : List SharedAction) :
    ∃ ms s, (sharedMachine u).Reaches as ms s ∧ ∃ n,
      n + s.link.requests.count .commit = drawn ms ∧
      (s.link.surface.lockBuffer (s.table shm)).1.map (·.data) =
        if n = 0 then none else some (picture n) := by
  obtain ⟨ms, s, hs⟩ := Machine.exists_reaches (m := sharedMachine u) (fun _ _ => ⟨_, _, rfl⟩) as
  obtain ⟨n, hp⟩ := Shared.reaches_painted u hs
  refine ⟨ms, s, hs, n, ?_, ?_⟩
  · rw [hp.owned.stream.count_commit]
    exact hp.count
  · rw [hp.lockBuffer, hp.shown]

end WaylandTest
