import WaylandTest.Server.Surface

/-!
# The swapped surface refines a plain one

`Plain` says what the two swapped states of a surface are for: a client attaches buffers, a commit
makes the last one attached current, and the one before it is given back. It reads the requests
alone and knows nothing of swaps, flags or counters.

`Surface.Refines` ties a surface and the calls it has made to the plain surface after the same
requests. `Refines.perform` is one request; `surface_refines_plain` is every run.
-/

set_option autoImplicit false

namespace WaylandTest

open Lib

/-- The plain surface: the buffer attached since the last effective commit, and the buffers of the
effective commits, oldest first. -/
structure Plain where
  pending : Option WlResource := none
  committed : List WlResource := []
deriving DecidableEq, Repr

namespace Plain

/-- One operation on the plain surface. Only an accepted attach and a commit matter to it. -/
def step (shm : ShmTable) (p : Plain) : SurfaceOp → Plain
  | .attach b _ _ => if (shm.get b).isSome then { p with pending := b } else p
  | .commit =>
    match p.pending with
    | none => p
    | some b => { pending := none, committed := p.committed ++ [b] }
  | _ => p

/-- The plain surface after the operations `ops`. -/
def after (shm : ShmTable) (ops : List SurfaceOp) : Plain := ops.foldl (step shm) {}

theorem after_snoc (shm : ShmTable) (ops : List SurfaceOp) (op : SurfaceOp) :
    after shm (ops ++ [op]) = (after shm ops).step shm op := by
  simp only [after, List.foldl_append, List.foldl_cons, List.foldl_nil]

end Plain

namespace Surface

/-- A surface and its calls show what the plain surface says. -/
structure Refines (s : Surface) (cs : List Call) (p : Plain) : Prop where
  consistent : s.Consistent
  shown : releases cs ++ s.mFront.buffer.toList = p.committed
  pending : s.mBack.buffer = p.pending
  current : s.mFront.buffer.isSome ↔ p.committed ≠ []

theorem refines_construct (this : Address) (r : WlResource) (c : WlClient)
    (l : Option DestroyListener) : (construct this r c l).Refines [] {} where
  consistent := consistent_construct this r c l
  shown := rfl
  pending := rfl
  current := by simp [construct]

variable {shm : ShmTable} {s : Surface} {cs : List Call} {p : Plain}

/-- An operation that touches neither buffer nor flag nor counter, and releases nothing. -/
theorem Refines.frame {t : Surface} {ds : List Call} (h : s.Refines cs p) (ht : t.Consistent)
    (front : t.mFront.buffer = s.mFront.buffer) (back : t.mBack.buffer = s.mBack.buffer)
    (quiet : releases ds = []) : t.Refines (cs ++ ds) p where
  consistent := ht
  shown := by rw [releases_append, quiet, List.append_nil, front, h.shown]
  pending := back.trans h.pending
  current := by rw [front]; exact h.current

theorem Refines.surfaceAttach (h : s.Refines cs p) (b : Option WlResource) (x y : Int) :
    (s.surfaceAttach shm b x y).1.Refines (cs ++ (s.surfaceAttach shm b x y).2)
      (p.step shm (.attach b x y)) := by
  have ht := h.consistent.surfaceAttach shm b x y
  cases hb : shm.get b with
  | none =>
    have hp : p.step shm (.attach b x y) = p := by
      simp only [Plain.step, hb, Option.isSome_none, Bool.false_eq_true, if_false]
    rw [hp]
    refine h.frame ht ?_ ?_ releases_surfaceAttach
    all_goals simp only [Surface.surfaceAttach, hb]
  | some buf =>
    have hp : p.step shm (.attach b x y) = { p with pending := b } := by
      simp only [Plain.step, hb, Option.isSome_some, if_true]
    have hf : (s.surfaceAttach shm b x y).1.mFront.buffer = s.mFront.buffer := by
      simp only [Surface.surfaceAttach, hb]
    rw [hp]
    refine ⟨ht, ?_, ?_, ?_⟩
    · rw [releases_append, releases_surfaceAttach, List.append_nil, hf]
      exact h.shown
    · simp only [Surface.surfaceAttach, hb]
    · rw [hf]
      exact h.current

theorem Refines.surfaceCommit (h : s.Refines cs p) :
    s.surfaceCommit.1.Refines (cs ++ s.surfaceCommit.2) (p.step shm .commit) := by
  have ht := h.consistent.surfaceCommit
  cases hb : s.mBack.buffer with
  | none =>
    have hp : p.step shm .commit = p := by
      simp only [Plain.step, ← h.pending, hb]
    rw [hp]
    refine h.frame ht ?_ ?_ ?_
    all_goals rw [surfaceCommit_idle hb]
    rfl
  | some b =>
    have hp : p.step shm .commit = { pending := none, committed := p.committed ++ [b] } := by
      simp only [Plain.step, ← h.pending, hb]
    rw [hp]
    cases hf : s.mFront.buffer with
    | none =>
      have hc := surfaceCommit_first h.consistent hb hf
      have hq : releases (s.mBack.callbackDone.toList.map Call.callbackSendDone) = [] :=
        s.mBack.releases_sendDone
      have hshown := h.shown
      rw [hf, Option.toList_none, List.append_nil] at hshown
      refine ⟨ht, ?_, ?_, ?_⟩
      · rw [hc, releases_append, hq, List.append_nil, hshown]
        simp only [hb, Option.toList_some]
      · rw [hc]
        exact hf
      · rw [hc]
        simp only [hb, Option.isSome_some, ne_eq, List.append_eq_nil_iff, List.cons_ne_nil,
          and_false, not_false_eq_true]
    | some f =>
      have hc := surfaceCommit_next h.consistent hb hf
      have hq : releases (s.mFront.callbackDone.toList.map Call.callbackSendDone) = [] :=
        s.mFront.releases_sendDone
      have hshown := h.shown
      rw [hf, Option.toList_some] at hshown
      refine ⟨ht, ?_, ?_, ?_⟩
      · rw [hc, releases_append, ← hshown]
        show releases cs ++ (f :: releases _) ++ _ = _
        rw [hq]
        simp only [hb, Option.toList_some]
      · rw [hc]
      · rw [hc]
        simp only [hb, Option.isSome_some, ne_eq, List.append_eq_nil_iff, List.cons_ne_nil,
          and_false, not_false_eq_true]

/-- One operation on a surface is one operation on the plain surface it refines. -/
theorem Refines.perform (h : s.Refines cs p) (op : SurfaceOp) :
    (s.perform shm op).1.Refines (cs ++ (s.perform shm op).2) (p.step shm op) := by
  have ht := h.consistent.perform shm op
  cases op with
  | attach b x y => exact h.surfaceAttach b x y
  | frame cb => exact h.frame ht rfl rfl rfl
  | commit => exact h.surfaceCommit
  | lockBuffer => exact h.frame ht rfl rfl releases_lockBuffer
  | unlockBuffer =>
    refine h.frame ht unlockBuffer_mFront_buffer ?_ releases_unlockBuffer
    exact congrArg SurfaceState.buffer unlockBuffer_mBack
  | setX x => exact h.frame ht rfl rfl rfl
  | setY y => exact h.frame ht rfl rfl rfl

/-- Counting one more filled buffer does not wrap: the counter is at most `1` between requests. -/
theorem Consistent.fillBack_toNat (hs : s.Consistent) :
    s.fillBack.1.mBuffersFilled.toNat = s.mBuffersFilled.toNat + 1 := by
  have hfill : s.fillBack.1.mBuffersFilled = s.mBuffersFilled + 1 := by
    simp only [fillBack]
    split <;> rfl
  rw [hfill, hs.filled]
  split <;> decide

/-- The run `ops` of a surface from its construction refines the run of the plain surface. -/
theorem reaches_refines (shm : ShmTable) (this : Address) (r : WlResource) (c : WlClient)
    (l : Option DestroyListener) (ops : List SurfaceOp) :
    ∃ cs s, (surfaceMachine shm (construct this r c l)).Reaches ops cs s ∧
      s.Refines cs (Plain.after shm ops) := by
  refine Machine.exists_induct (P := fun ops cs (s : Surface) => s.Refines cs (Plain.after shm ops))
    (fun _ _ => ⟨_, _, rfl⟩) (refines_construct this r c l) ?_ ops
  intro ops cs s op ds t _ hr hstep
  cases hstep
  rw [Plain.after_snoc]
  exact hr.perform op

end Surface

/-- **The swapped surface refines the plain one.** Whatever is done to a surface after its
construction, with `p` the plain surface after the same operations: the buffers released so far,
then the one shown, are the buffers of the effective commits in order; the back state holds the
pending buffer; the front is ready exactly if it holds a buffer, which it does from the first
effective commit on, and the back is not ready; the counter is `1` with a buffer shown and `0`
without. The next increment does not wrap, and so neither does the decrement, which undoes it. -/
theorem surface_refines_plain (shm : ShmTable) (this : Address) (r : WlResource) (c : WlClient)
    (l : Option DestroyListener) (ops : List SurfaceOp) :
    ∃ cs s, (surfaceMachine shm (Surface.construct this r c l)).Reaches ops cs s ∧
      releases cs ++ s.mFront.buffer.toList = (Plain.after shm ops).committed ∧
      s.mBack.buffer = (Plain.after shm ops).pending ∧
      (s.mFront.isReady = true ↔ s.mFront.buffer ≠ none) ∧
      (s.mFront.buffer ≠ none ↔ (Plain.after shm ops).committed ≠ []) ∧
      s.mBack.isReady = false ∧
      s.mBuffersFilled = (if s.mFront.buffer = none then 0 else 1) ∧
      s.fillBack.1.mBuffersFilled.toNat = s.mBuffersFilled.toNat + 1 := by
  obtain ⟨cs, s, hs, hr⟩ := Surface.reaches_refines shm this r c l ops
  refine ⟨cs, s, hs, hr.shown, hr.pending, ?_, ?_, hr.consistent.backReady, ?_,
    hr.consistent.fillBack_toNat⟩
  · rw [hr.consistent.frontReady, Option.isSome_iff_ne_none]
  · rw [← hr.current, Option.isSome_iff_ne_none]
  · rw [hr.consistent.filled]
    cases s.mFront.buffer <;> rfl

end WaylandTest
