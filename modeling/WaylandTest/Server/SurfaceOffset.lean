import WaylandTest.Server.SurfaceHistory

/-!
# The offset of a surface

An attach carries an offset with the buffer, and a commit applies both. `PlainOffsets` says which
offset is applied, of the operations alone; `Surface.Offsets` says that the front state holds it.

But `Surface::x` and `Surface::y` read the back state. That one holds the offset of the last attach,
or of the effective commit before the last one. `offset_current_iff` says which runs do not show it:
those that attach at the origin only.
-/

set_option autoImplicit false

namespace WaylandTest

open Lib

/-- The plain surface, with the offset of the last accepted attach, and the offset that the last
effective commit applied. -/
structure PlainOffsets where
  plain : Plain := {}
  attached : Int × Int := (0, 0)
  applied : Option (Int × Int) := none
deriving DecidableEq, Repr

namespace PlainOffsets

/-- One operation. -/
def step (shm : ShmTable) (p : PlainOffsets) : SurfaceOp → PlainOffsets
  | .attach b x y =>
    { p with
      plain := p.plain.step shm (.attach b x y)
      attached := if (shm.get b).isSome then (x, y) else p.attached }
  | .commit =>
    { p with
      plain := p.plain.step shm .commit
      applied := if p.plain.pending.isSome then some p.attached else p.applied }
  | _ => p

/-- The plain surface and its offsets after the operations `ops`. -/
def after (shm : ShmTable) (ops : List SurfaceOp) : PlainOffsets := ops.foldl (step shm) {}

theorem after_snoc (shm : ShmTable) (ops : List SurfaceOp) (op : SurfaceOp) :
    after shm (ops ++ [op]) = (after shm ops).step shm op := by
  simp only [after, List.foldl_append, List.foldl_cons, List.foldl_nil]

end PlainOffsets

/-- The offset that the last effective commit of the operations `ops` applied. -/
def appliedOffset (shm : ShmTable) (ops : List SurfaceOp) : Option (Int × Int) :=
  (PlainOffsets.after shm ops).applied

namespace Surface

variable {shm : ShmTable} {s t : Surface} {cs : List Call} {p : PlainOffsets}

/-- The two states of a surface hold the two offsets: the back one as long as a buffer is
pending. -/
structure Offsets (s : Surface) (cs : List Call) (p : PlainOffsets) : Prop where
  refines : s.Refines cs p.plain
  back : s.mBack.buffer.isSome → p.attached = (s.mBack.x, s.mBack.y)
  front : p.applied = s.mFront.buffer.map fun _ => (s.mFront.x, s.mFront.y)

theorem offsets_construct (this : Address) (r : WlResource) (c : WlClient)
    (l : Option DestroyListener) : (construct this r c l).Offsets [] {} where
  refines := refines_construct this r c l
  back := nofun
  front := rfl

/-- An operation that changes neither buffers nor offsets. -/
theorem Offsets.frame {ds : List Call} (h : s.Offsets cs p) (ht : t.Refines (cs ++ ds) p.plain)
    (front : t.mFront = { s.mFront with callbackDone := t.mFront.callbackDone })
    (back : t.mBack = { s.mBack with callbackDone := t.mBack.callbackDone }) :
    t.Offsets (cs ++ ds) p where
  refines := ht
  back := by rw [back]; exact h.back
  front := by rw [front]; exact h.front

theorem Offsets.surfaceAttach (h : s.Offsets cs p) (b : Option WlResource) (x y : Int) :
    (s.surfaceAttach shm b x y).1.Offsets (cs ++ (s.surfaceAttach shm b x y).2)
      (p.step shm (.attach b x y)) := by
  have ht : (s.surfaceAttach shm b x y).1.Refines (cs ++ (s.surfaceAttach shm b x y).2)
      (p.plain.step shm (.attach b x y)) := h.refines.surfaceAttach b x y
  unfold Surface.surfaceAttach at ht ⊢
  cases hb : shm.get b with
  | none =>
    have hp : (p.step shm (.attach b x y)).attached = p.attached := by
      simp only [PlainOffsets.step, hb, Option.isSome_none, Bool.false_eq_true, if_false]
    rw [hb] at ht
    refine ⟨ht, ?_, h.front⟩
    rw [hp]
    exact h.back
  | some buf =>
    have hp : (p.step shm (.attach b x y)).attached = (x, y) := by
      simp only [PlainOffsets.step, hb, Option.isSome_some, if_true]
    rw [hb] at ht
    exact ⟨ht, fun _ => hp, h.front⟩

theorem Offsets.surfaceCommit (h : s.Offsets cs p) :
    s.surfaceCommit.1.Offsets (cs ++ s.surfaceCommit.2) (p.step shm .commit) := by
  have ht : s.surfaceCommit.1.Refines (cs ++ s.surfaceCommit.2) (p.plain.step shm .commit) :=
    h.refines.surfaceCommit
  have hpending := h.refines.pending
  have hcons := h.refines.consistent
  cases hb : s.mBack.buffer with
  | none =>
    have hp : (p.step shm .commit).applied = p.applied := by
      simp only [PlainOffsets.step, ← hpending, hb, Option.isSome_none, Bool.false_eq_true,
        if_false]
    rw [surfaceCommit_idle hb] at ht ⊢
    refine ⟨ht, h.back, ?_⟩
    rw [hp]
    exact h.front
  | some b =>
    have hattached := h.back (by rw [hb]; rfl)
    have hp : (p.step shm .commit).applied =
        s.mBack.buffer.map fun _ => (s.mBack.x, s.mBack.y) := by
      simp only [PlainOffsets.step, ← hpending, hb, Option.isSome_some, if_true, hattached,
        Option.map_some]
    cases hf : s.mFront.buffer with
    | none =>
      rw [surfaceCommit_first hcons hb hf] at ht ⊢
      have hshown : ¬ s.mFront.buffer.isSome = true := by simp [hf]
      exact ⟨ht, fun hback => absurd hback hshown, hp⟩
    | some f =>
      rw [surfaceCommit_next hcons hb hf] at ht ⊢
      exact ⟨ht, nofun, hp⟩

/-- One operation on a surface is one operation on the plain surface and its offsets. -/
theorem Offsets.perform (h : s.Offsets cs p) (op : SurfaceOp) :
    (s.perform shm op).1.Offsets (cs ++ (s.perform shm op).2) (p.step shm op) := by
  have ht : (s.perform shm op).1.Refines (cs ++ (s.perform shm op).2) (p.plain.step shm op) :=
    h.refines.perform op
  cases op with
  | attach b x y => exact h.surfaceAttach b x y
  | frame cb => exact h.frame ht rfl rfl
  | commit => exact h.surfaceCommit
  | lockBuffer => exact h.frame ht rfl rfl
  | unlockBuffer =>
    refine h.frame ht ?_ ?_
    · show s.unlockBuffer.1.mFront =
        { s.mFront with callbackDone := s.unlockBuffer.1.mFront.callbackDone }
      cases hf : s.mFront.buffer with
      | none => rw [unlockBuffer_idle hf]
      | some f => rw [unlockBuffer_shown hf]; rfl
    · show s.unlockBuffer.1.mBack =
        { s.mBack with callbackDone := s.unlockBuffer.1.mBack.callbackDone }
      rw [unlockBuffer_mBack]
  | setX x => exact h.frame ht rfl rfl
  | setY y => exact h.frame ht rfl rfl

/-- Both states of a surface are at the origin. -/
structure Centered (s : Surface) : Prop where
  front : s.mFront.x = 0 ∧ s.mFront.y = 0
  back : s.mBack.x = 0 ∧ s.mBack.y = 0

theorem Centered.x_eq (h : s.Centered) : s.x = s.mX := by
  rw [Surface.x, h.back.1, Int.add_zero]

theorem Centered.y_eq (h : s.Centered) : s.y = s.mY := by
  rw [Surface.y, h.back.2, Int.add_zero]

theorem Centered.surfaceCommit (hs : s.Consistent) (h : s.Centered) :
    s.surfaceCommit.1.Centered := by
  cases hb : s.mBack.buffer with
  | none =>
    rw [surfaceCommit_idle hb]
    exact h
  | some b =>
    cases hf : s.mFront.buffer with
    | none =>
      rw [surfaceCommit_first hs hb hf]
      exact ⟨h.back, h.front⟩
    | some f =>
      rw [surfaceCommit_next hs hb hf]
      exact ⟨h.back, h.front⟩

theorem Centered.unlockBuffer (h : s.Centered) : s.unlockBuffer.1.Centered := by
  cases hf : s.mFront.buffer with
  | none =>
    rw [unlockBuffer_idle hf]
    exact h
  | some f =>
    rw [unlockBuffer_shown hf]
    exact ⟨h.front, h.back⟩

end Surface

/-- An operation that attaches no buffer off the origin. -/
def SurfaceOp.Centered (shm : ShmTable) : SurfaceOp → Prop
  | .attach b x y => (shm.get b).isSome → x = 0 ∧ y = 0
  | _ => True

/-- Only an attach off the origin moves a surface from it. -/
theorem Surface.Centered.perform {shm : ShmTable} {s : Surface} {op : SurfaceOp} (h : s.Centered)
    (hs : s.Consistent) (hop : op.Centered shm) : (s.perform shm op).1.Centered := by
  cases op with
  | attach b x y =>
    show (s.surfaceAttach shm b x y).1.Centered
    unfold Surface.surfaceAttach
    cases hb : shm.get b with
    | none => exact h
    | some buf => exact ⟨h.front, hop (by rw [hb]; rfl)⟩
  | frame cb => exact ⟨h.front, h.back⟩
  | commit => exact h.surfaceCommit hs
  | lockBuffer => exact h
  | unlockBuffer => exact h.unlockBuffer
  | setX x => exact ⟨h.front, h.back⟩
  | setY y => exact ⟨h.front, h.back⟩

section Runs

variable {shm : ShmTable} {this : Address} {r : WlResource} {c : WlClient}
  {l : Option DestroyListener} {ops : List SurfaceOp} {cs : List Call} {s : Surface}

/-- The operations of a client before its commit. -/
def SurfaceOp.isPending : SurfaceOp → Bool
  | .attach _ _ _ => true
  | .frame _ => true
  | _ => false

/-- The offset in front is the one the last effective commit applied. -/
theorem reaches_offsets
    (h : (surfaceMachine shm (Surface.construct this r c l)).Reaches ops cs s) :
    s.Offsets cs (PlainOffsets.after shm ops) := by
  refine h.induct (P := fun ops cs s => s.Offsets cs (PlainOffsets.after shm ops))
    (Surface.offsets_construct this r c l) ?_
  intro ops cs s op ds t _ hs ht
  obtain ⟨rfl, rfl⟩ := Exec.done_eq_ok.mp ht
  rw [PlainOffsets.after_snoc]
  exact hs.perform op

theorem reaches_centered (hops : ∀ op ∈ ops, op.Centered shm)
    (h : (surfaceMachine shm (Surface.construct this r c l)).Reaches ops cs s) : s.Centered := by
  refine h.induct (P := fun ops _ s => (∀ op ∈ ops, op.Centered shm) → s.Centered)
    (fun _ => ⟨⟨rfl, rfl⟩, ⟨rfl, rfl⟩⟩) ?_ hops
  intro ops cs s op ds t hreach hs ht hops
  obtain ⟨rfl, rfl⟩ := Exec.done_eq_ok.mp ht
  exact (hs fun op' h' => hops op' (List.mem_append_left _ h')).perform
    (reaches_offsets hreach).refines.consistent (hops op (by simp))

/-- What waits for a commit changes neither the front state nor the place of the surface. -/
theorem runFrom_pending {m : Machine Call Fault Surface SurfaceOp} {rs : List SurfaceOp}
    {t : Surface} (hm : ∀ s op, m.step s op = Exec.done (s.perform shm op))
    (hrs : ∀ op ∈ rs, op.isPending = true) (h : m.runFrom s rs = ⟨cs, .ok t⟩) :
    t.mFront = s.mFront ∧ t.mX = s.mX ∧ t.mY = s.mY := by
  induction rs generalizing s cs with
  | nil =>
    cases h
    exact ⟨rfl, rfl, rfl⟩
  | cons op rs ih =>
    obtain ⟨_, u, _, hstep, hmore, -⟩ := Exec.bind_eq_ok.mp h
    rw [hm] at hstep
    obtain ⟨-, rfl⟩ := Exec.done_eq_ok.mp hstep
    obtain ⟨hfront, hx, hy⟩ := ih (fun op' h' => hrs op' (List.mem_cons_of_mem _ h')) hmore
    have hop : (s.perform shm op).1.mFront = s.mFront ∧ (s.perform shm op).1.mX = s.mX ∧
        (s.perform shm op).1.mY = s.mY := by
      have hpending := hrs op List.mem_cons_self
      cases op with
      | attach b x y =>
        show (s.surfaceAttach shm b x y).1.mFront = _ ∧ (s.surfaceAttach shm b x y).1.mX = _ ∧
          (s.surfaceAttach shm b x y).1.mY = _
        unfold Surface.surfaceAttach
        cases shm.get b <;> exact ⟨rfl, rfl, rfl⟩
      | frame cb => exact ⟨rfl, rfl, rfl⟩
      | commit => cases hpending
      | lockBuffer => cases hpending
      | unlockBuffer => cases hpending
      | setX x => cases hpending
      | setY y => cases hpending
    exact ⟨hfront.trans hop.1, hx.trans hop.2.1, hy.trans hop.2.2⟩

/-- An attach that leaves the place of the surface is at the origin. -/
theorem Surface.Centered.of_attach (hc : s.Centered) {b : Option WlResource} {x y : Int}
    (hx : (s.perform shm (.attach b x y)).1.x = s.x)
    (hy : (s.perform shm (.attach b x y)).1.y = s.y) : (SurfaceOp.attach b x y).Centered shm := by
  intro hb
  obtain ⟨buf, hbuf⟩ := Option.isSome_iff_exists.mp hb
  rw [hc.x_eq] at hx
  rw [hc.y_eq] at hy
  simp only [Surface.perform, Surface.surfaceAttach, hbuf, Surface.x, Surface.y] at hx hy
  exact ⟨by omega, by omega⟩

/-- Where every attach is at the origin, a ready surface is at its place plus the offset of the last
effective commit. -/
theorem applied_of_centered (hops : ∀ op ∈ ops, op.Centered shm)
    (hs : (surfaceMachine shm (Surface.construct this r c l)).Reaches ops cs s)
    (hready : s.isReady = true) :
    ∃ o, appliedOffset shm ops = some o ∧ s.x = s.mX + o.1 ∧ s.y = s.mY + o.2 := by
  have hc := reaches_centered hops hs
  have ho := reaches_offsets hs
  have hshown : s.mFront.buffer.isSome = true := by
    rw [← ho.refines.consistent.frontReady]
    exact hready
  obtain ⟨f, hf⟩ := Option.isSome_iff_exists.mp hshown
  refine ⟨(s.mFront.x, s.mFront.y), ?_, ?_, ?_⟩
  · rw [appliedOffset, ho.front, hf, Option.map_some]
  · rw [hc.x_eq, hc.front.1, Int.add_zero]
  · rw [hc.y_eq, hc.front.2, Int.add_zero]

/-- Where every attach is at the origin, what waits for a commit is not seen. -/
theorem pending_of_centered {rs : List SurfaceOp} {ds : List Call} {t : Surface}
    (hops : ∀ op ∈ ops ++ rs, op.Centered shm) (hrs : ∀ op ∈ rs, op.isPending = true)
    (hs : (surfaceMachine shm (Surface.construct this r c l)).Reaches ops cs s)
    (ht : (surfaceMachine shm (Surface.construct this r c l)).Reaches (ops ++ rs) ds t) :
    t.isReady = s.isReady ∧ (t.lockBuffer shm).1 = (s.lockBuffer shm).1 ∧
      t.x = s.x ∧ t.y = s.y := by
  obtain ⟨_, s', _, hs', hmore, -⟩ := Machine.runFrom_append.mp ht
  obtain ⟨-, rfl⟩ := hs.det hs'
  obtain ⟨hfront, hx, hy⟩ := runFrom_pending (fun _ _ => rfl) hrs hmore
  have hc := reaches_centered (fun op hop => hops op (List.mem_append_left _ hop)) hs
  have hc' := reaches_centered hops ht
  refine ⟨?_, ?_, ?_, ?_⟩
  · rw [Surface.isReady, hfront, Surface.isReady]
  · unfold Surface.lockBuffer
    rw [hfront]
  · rw [hc.x_eq, hc'.x_eq, hx]
  · rw [hc.y_eq, hc'.y_eq, hy]

/-- **The offset is double-buffered**, exactly if there is none. In every state of a run in which
the surface is ready, it is at its place plus the offset of the last effective commit, and no attach
and frame requests change whether it is ready, the buffer it shows, and where it is, if and only if
every accepted attach of the run is at the origin. -/
theorem offset_current_iff (shm : ShmTable) (this : Address) (r : WlResource) (c : WlClient)
    (l : Option DestroyListener) (ops : List SurfaceOp) :
    ((∀ bs cs s, bs <+: ops → (surfaceMachine shm (Surface.construct this r c l)).Reaches bs cs s →
        s.isReady = true →
        ∃ o, appliedOffset shm bs = some o ∧ s.x = s.mX + o.1 ∧ s.y = s.mY + o.2) ∧
      ∀ bs rs cs s ds t, bs ++ rs <+: ops → (∀ op ∈ rs, op.isPending = true) →
        (surfaceMachine shm (Surface.construct this r c l)).Reaches bs cs s →
        (surfaceMachine shm (Surface.construct this r c l)).Reaches (bs ++ rs) ds t →
        t.isReady = s.isReady ∧ (t.lockBuffer shm).1 = (s.lockBuffer shm).1 ∧
          t.x = s.x ∧ t.y = s.y) ↔
      ∀ op ∈ ops, op.Centered shm := by
  constructor
  · rintro ⟨-, hkept⟩
    induction ops using List.reverseRecOn with
    | nil => nofun
    | append_singleton ops op ih =>
      have hops : ∀ op ∈ ops, op.Centered shm :=
        ih fun bs rs cs s ds t hb => hkept bs rs cs s ds t (hb.trans (List.prefix_append ops [op]))
      intro op' hop'
      rcases List.mem_append.mp hop' with hop' | hop'
      · exact hops op' hop'
      obtain rfl := List.mem_singleton.mp hop'
      cases op' with
      | attach b x y =>
        obtain ⟨cs, s, hs⟩ := (surfaceMachine shm (Surface.construct this r c l)).exists_reaches
          (fun s op => ⟨_, _, rfl⟩) ops
        obtain ⟨-, -, hx, hy⟩ := hkept ops [.attach b x y] cs s _ _ List.prefix_rfl
          (by simp [SurfaceOp.isPending]) hs (hs.snoc rfl)
        exact (reaches_centered hops hs).of_attach hx hy
      | frame cb => exact trivial
      | commit => exact trivial
      | lockBuffer => exact trivial
      | unlockBuffer => exact trivial
      | setX x => exact trivial
      | setY y => exact trivial
  · intro hops
    refine ⟨fun bs cs s hb hs hready => ?_, fun bs rs cs s ds t hb hrs hs ht => ?_⟩
    · exact applied_of_centered (fun op hop => hops op (hb.subset hop)) hs hready
    · exact pending_of_centered (fun op hop => hops op (hb.subset hop)) hrs hs ht

/-- A buffer is attached off the origin and committed: the surface shows it at the origin. -/
theorem committed_offset_unseen :
    ∃ cs s, (surfaceMachine onePixel (Surface.construct 0 3 0 none)).Reaches
        [.attach (some 7) 1 0, .commit] cs s ∧ s.isReady = true ∧
      appliedOffset onePixel [.attach (some 7) 1 0, .commit] = some (1, 0) ∧ s.x ≠ s.mX + 1 :=
  ⟨_, _, rfl, rfl, rfl, by decide⟩

end Runs

end WaylandTest
