import Mathlib.Data.List.Perm.Subperm
import WaylandTest.Server.SurfaceHistory

/-!
# Frame callbacks

A `wl_surface.frame` request leaves a callback with the back state. An effective commit takes it:
the first one answers it at once, any later one makes it wait in the front state for a repaint or
the next effective commit. `PlainFrames` says so over the plain surface, without swaps: one callback
waits for a commit, and the commits take callbacks in order.

`Surface.Answers` ties the calls of a surface to it: what was answered, with the callback in front
behind it, is what the commits took. So answers come in the order of the requests, once, and after a
commit (`callbacks_in_order`). What they leave out are callbacks that no commit took: a frame
request replaces the one that still waits. `callbacks_answered_iff` says when none is left out.
-/

set_option autoImplicit false

namespace WaylandTest

open Lib

/-- The callbacks the calls answer, in order. -/
def answered (cs : List Call) : List WlResource :=
  cs.filterMap fun
    | .callbackSendDone cb => some cb
    | _ => none

@[simp] theorem answered_append (cs ds : List Call) :
    answered (cs ++ ds) = answered cs ++ answered ds := List.filterMap_append

theorem mem_answered {cs : List Call} {cb : WlResource} :
    cb ∈ answered cs ↔ .callbackSendDone cb ∈ cs := by
  simp only [answered, List.mem_filterMap]
  constructor
  · rintro ⟨call, hcall, hcb⟩
    cases call with
    | callbackSendDone cb' =>
      obtain rfl := Option.some.inj hcb
      exact hcall
    | _ => cases hcb
  · exact fun h => ⟨_, h, rfl⟩

/-- The callbacks the operations request, in order. -/
def framed (ops : List SurfaceOp) : List WlResource :=
  ops.filterMap fun
    | .frame cb => cb
    | _ => none

@[simp] theorem framed_append (ops ops' : List SurfaceOp) :
    framed (ops ++ ops') = framed ops ++ framed ops' := List.filterMap_append

/-- The plain surface, with the callback requested last since the last effective commit, and the
callbacks that the effective commits took, oldest first. -/
structure PlainFrames where
  plain : Plain := {}
  waiting : Option WlResource := none
  taken : List WlResource := []
deriving DecidableEq, Repr

namespace PlainFrames

/-- One operation. A commit is effective if a buffer is pending. -/
def step (shm : ShmTable) (p : PlainFrames) : SurfaceOp → PlainFrames
  | .frame cb => { p with waiting := cb }
  | .commit =>
    match p.plain.pending with
    | none => p
    | some _ =>
      { plain := p.plain.step shm .commit, waiting := none, taken := p.taken ++ p.waiting.toList }
  | op => { p with plain := p.plain.step shm op }

/-- The plain surface and its callbacks after the operations `ops`. -/
def after (shm : ShmTable) (ops : List SurfaceOp) : PlainFrames := ops.foldl (step shm) {}

variable {shm : ShmTable} {ops : List SurfaceOp} {cb : WlResource}

theorem after_snoc (shm : ShmTable) (ops : List SurfaceOp) (op : SurfaceOp) :
    after shm (ops ++ [op]) = (after shm ops).step shm op := by
  simp only [after, List.foldl_append, List.foldl_cons, List.foldl_nil]

theorem step_plain (p : PlainFrames) (op : SurfaceOp) :
    (p.step shm op).plain = p.plain.step shm op := by
  cases op with
  | commit =>
    unfold step Plain.step
    cases p.plain.pending with
    | none => rfl
    | some b => rfl
  | _ => rfl

@[simp] theorem after_plain (shm : ShmTable) (ops : List SurfaceOp) :
    (after shm ops).plain = Plain.after shm ops := by
  induction ops using List.reverseRecOn with
  | nil => rfl
  | append_singleton ops op ih => rw [after_snoc, step_plain, ih, Plain.after_snoc]

/-- What an operation does to the callbacks: it takes the one that waits, replaces it, or leaves
all. -/
theorem step_cases (p : PlainFrames) (op : SurfaceOp) :
    (op = .commit ∧ p.plain.pending ≠ none ∧ (p.step shm op).waiting = none ∧
        (p.step shm op).taken = p.taken ++ p.waiting.toList) ∨
      (∃ cb, op = .frame cb ∧ (p.step shm op).waiting = cb ∧ (p.step shm op).taken = p.taken) ∨
      (∀ cb, op ≠ .frame cb) ∧ (p.step shm op).waiting = p.waiting ∧
        (p.step shm op).taken = p.taken := by
  cases op with
  | frame cb => exact .inr (.inl ⟨cb, rfl, rfl, rfl⟩)
  | commit =>
    unfold step
    cases hb : p.plain.pending with
    | none => exact .inr (.inr ⟨nofun, rfl, rfl⟩)
    | some b => exact .inl ⟨rfl, Option.some_ne_none b, rfl, rfl⟩
  | attach b x y => exact .inr (.inr ⟨nofun, rfl, rfl⟩)
  | lockBuffer => exact .inr (.inr ⟨nofun, rfl, rfl⟩)
  | unlockBuffer => exact .inr (.inr ⟨nofun, rfl, rfl⟩)
  | setX x => exact .inr (.inr ⟨nofun, rfl, rfl⟩)
  | setY y => exact .inr (.inr ⟨nofun, rfl, rfl⟩)

/-- An operation that is no frame request requests no callback. -/
theorem framed_singleton {op : SurfaceOp} (h : ∀ cb, op ≠ .frame cb) : framed [op] = [] := by
  cases op with
  | frame cb => exact absurd rfl (h cb)
  | _ => rfl

/-- The callbacks taken, with the one that waits behind them, were requested in that order. -/
theorem taken_sublist (shm : ShmTable) (ops : List SurfaceOp) :
    ((after shm ops).taken ++ (after shm ops).waiting.toList).Sublist (framed ops) := by
  induction ops using List.reverseRecOn with
  | nil => exact List.Sublist.refl []
  | append_singleton ops op ih =>
    rw [after_snoc, framed_append]
    rcases step_cases (after shm ops) op with ⟨-, -, hw, ht⟩ | ⟨cb, rfl, hw, ht⟩ | ⟨hop, hw, ht⟩
    · rw [hw, ht, Option.toList_none, List.append_nil]
      exact ih.trans (List.sublist_append_left _ _)
    · rw [hw, ht]
      have hcb : framed [.frame cb] = cb.toList := by cases cb <;> rfl
      rw [hcb]
      exact ((List.sublist_append_left _ _).trans ih).append_right _
    · rw [hw, ht, framed_singleton hop, List.append_nil]
      exact ih

/-- The callback that waits was requested. -/
theorem waiting_requested (h : (after shm ops).waiting = some cb) :
    ∃ before middle, ops = before ++ .frame (some cb) :: middle := by
  induction ops using List.reverseRecOn with
  | nil => cases h
  | append_singleton ops op ih =>
    rw [after_snoc] at h
    rcases step_cases (after shm ops) op with ⟨-, -, hw, -⟩ | ⟨cb', rfl, hw, -⟩ | ⟨-, hw, -⟩
    · rw [hw] at h
      cases h
    · rw [hw] at h
      exact ⟨ops, [], by rw [h]⟩
    · rw [hw] at h
      obtain ⟨before, middle, rfl⟩ := ih h
      exact ⟨before, middle ++ [op], by simp⟩

/-- A callback that was taken was requested before an effective commit. -/
theorem taken_committed (h : cb ∈ (after shm ops).taken) :
    ∃ before middle rest, ops = before ++ .frame (some cb) :: (middle ++ .commit :: rest) ∧
      (Plain.after shm (before ++ .frame (some cb) :: middle)).pending ≠ none := by
  induction ops using List.reverseRecOn with
  | nil => cases h
  | append_singleton ops op ih =>
    rw [after_snoc] at h
    have hold : cb ∈ (after shm ops).taken → ∃ before middle rest,
        ops ++ [op] = before ++ .frame (some cb) :: (middle ++ .commit :: rest) ∧
        (Plain.after shm (before ++ .frame (some cb) :: middle)).pending ≠ none := by
      intro hcb
      obtain ⟨before, middle, rest, rfl, hp⟩ := ih hcb
      exact ⟨before, middle, rest ++ [op], by simp, hp⟩
    rcases step_cases (after shm ops) op with ⟨rfl, hp, -, ht⟩ | ⟨cb', rfl, -, ht⟩ | ⟨-, -, ht⟩
    · rw [ht] at h
      rcases List.mem_append.mp h with h | h
      · exact hold h
      · obtain ⟨before, middle, rfl⟩ := waiting_requested (Option.mem_toList.mp h)
        rw [after_plain] at hp
        exact ⟨before, middle, [], by simp, hp⟩
    · exact hold (ht ▸ h)
    · exact hold (ht ▸ h)

/-- No frame request finds a callback waiting. -/
def Unreplaced (shm : ShmTable) (ops : List SurfaceOp) : Prop :=
  ∀ bs cb, bs ++ [.frame cb] <+: ops → (after shm bs).waiting = none

theorem unreplaced_snoc {op : SurfaceOp} :
    Unreplaced shm (ops ++ [op]) ↔
      Unreplaced shm ops ∧ ∀ cb, op = .frame cb → (after shm ops).waiting = none := by
  constructor
  · intro h
    refine ⟨fun bs cb hb => h bs cb (hb.trans (List.prefix_append ops [op])), ?_⟩
    rintro cb rfl
    exact h ops cb List.prefix_rfl
  · rintro ⟨h, hop⟩ bs cb hb
    rcases List.prefix_concat_iff.mp hb with he | hb
    · obtain ⟨rfl, hcb⟩ := List.append_inj' he rfl
      exact hop cb (List.singleton_inj.mp hcb).symm
    · exact h bs cb hb

/-- What a commit leaves waiting. -/
theorem waiting_commit :
    (after shm (ops ++ [.commit])).waiting = none ↔
      (after shm ops).waiting = none ∨ (Plain.after shm ops).pending ≠ none := by
  rw [after_snoc, ← after_plain, step]
  cases hb : (after shm ops).plain.pending with
  | none => simp only [ne_eq, not_true, or_false]
  | some b => simp only [ne_eq, reduceCtorEq, not_false_eq_true, or_true]

/-- **Nothing is left out** of what was taken and what waits, exactly if no request replaced a
callback that waited. -/
theorem unreplaced_iff (shm : ShmTable) (ops : List SurfaceOp) :
    Unreplaced shm ops ↔
      (after shm ops).taken ++ (after shm ops).waiting.toList = framed ops := by
  induction ops using List.reverseRecOn with
  | nil =>
    refine ⟨fun _ => rfl, fun _ bs cb hb => ?_⟩
    have hlen := hb.length_le
    simp at hlen
  | append_singleton ops op ih =>
    rw [unreplaced_snoc, ih, after_snoc, framed_append]
    rcases step_cases (after shm ops) op with ⟨rfl, -, hw, ht⟩ | ⟨cb, rfl, hw, ht⟩ | ⟨hop, hw, ht⟩
    · rw [hw, ht, Option.toList_none, List.append_nil]
      exact ⟨fun h => h.1.trans (List.append_nil _).symm,
        fun h => ⟨h.trans (List.append_nil _), nofun⟩⟩
    · have hcb : framed [.frame cb] = cb.toList := by cases cb <;> rfl
      rw [hw, ht, hcb, List.append_cancel_right_eq]
      constructor
      · rintro ⟨h, hnone⟩
        rw [hnone cb rfl, Option.toList_none, List.append_nil] at h
        exact h
      · intro h
        have hlen := (taken_sublist shm ops).length_le
        rw [h, List.length_append] at hlen
        have hnone : (after shm ops).waiting = none := by
          cases hwait : (after shm ops).waiting with
          | none => rfl
          | some cb' =>
            rw [hwait] at hlen
            exact absurd hlen (by simp)
        rw [hnone, Option.toList_none, List.append_nil]
        exact ⟨h, fun _ _ => rfl⟩
    · rw [hw, ht, framed_singleton hop, List.append_nil]
      exact ⟨fun h => h.1, fun h => ⟨h, fun cb hcb => absurd hcb (hop cb)⟩⟩

end PlainFrames

@[simp] theorem SurfaceState.answered_sendDone (st : SurfaceState) :
    answered st.sendDone.2 = st.callbackDone.toList := by
  unfold sendDone
  cases st.callbackDone <;> rfl

namespace Surface

variable {shm : ShmTable} {s : Surface} {cs : List Call} {p : PlainFrames}

/-- A surface and its calls show what the plain surface says of the callbacks. -/
structure Answers (s : Surface) (cs : List Call) (p : PlainFrames) : Prop where
  refines : s.Refines cs p.plain
  waiting : s.mBack.callbackDone = p.waiting
  taken : answered cs ++ s.mFront.callbackDone.toList = p.taken
  shown : s.mFront.buffer = none → s.mFront.callbackDone = none

theorem answers_construct (this : Address) (r : WlResource) (c : WlClient)
    (l : Option DestroyListener) : (construct this r c l).Answers [] {} where
  refines := refines_construct this r c l
  waiting := rfl
  taken := rfl
  shown _ := rfl

/-- An operation that answers no callback and touches none. -/
theorem Answers.frame {t : Surface} {ds : List Call} {q : PlainFrames} (h : s.Answers cs p)
    (ht : t.Refines (cs ++ ds) q.plain) (front : t.mFront = s.mFront)
    (waiting : t.mBack.callbackDone = q.waiting) (taken : q.taken = p.taken)
    (quiet : answered ds = []) : t.Answers (cs ++ ds) q where
  refines := ht
  waiting := waiting
  taken := by rw [answered_append, quiet, List.append_nil, front, h.taken, taken]
  shown := by rw [front]; exact h.shown

theorem Answers.surfaceCommit (h : s.Answers cs p) :
    s.surfaceCommit.1.Answers (cs ++ s.surfaceCommit.2) (p.step shm .commit) := by
  have ht : s.surfaceCommit.1.Refines (cs ++ s.surfaceCommit.2) (p.step shm .commit).plain := by
    rw [PlainFrames.step_plain]
    exact h.refines.surfaceCommit
  have hpending := h.refines.pending
  have hcons := h.refines.consistent
  cases hb : s.mBack.buffer with
  | none =>
    have hp : p.step shm .commit = p := by
      rw [hb] at hpending
      simp only [PlainFrames.step, ← hpending]
    rw [hp] at ht ⊢
    rw [surfaceCommit_idle hb] at ht ⊢
    exact h.frame ht rfl h.waiting rfl rfl
  | some b =>
    have hw : (p.step shm .commit).waiting = none := by
      rw [hb] at hpending
      simp only [PlainFrames.step, ← hpending]
    have hk : (p.step shm .commit).taken = p.taken ++ s.mBack.callbackDone.toList := by
      rw [hb] at hpending
      simp only [PlainFrames.step, ← hpending, h.waiting]
    cases hf : s.mFront.buffer with
    | none =>
      have hsent : answered (s.mBack.callbackDone.toList.map .callbackSendDone) =
          s.mBack.callbackDone.toList := s.mBack.answered_sendDone
      have hold := h.taken
      rw [h.shown hf, Option.toList_none, List.append_nil] at hold
      rw [surfaceCommit_first hcons hb hf] at ht ⊢
      refine ⟨ht, ?_, ?_, fun _ => rfl⟩
      · rw [hw]
        exact h.shown hf
      · rw [hk, answered_append, hsent, hold]
        exact List.append_nil _
    | some f =>
      have hsent : answered (s.mFront.callbackDone.toList.map .callbackSendDone) =
          s.mFront.callbackDone.toList := s.mFront.answered_sendDone
      rw [surfaceCommit_next hcons hb hf] at ht ⊢
      refine ⟨ht, hw.symm, ?_, fun hnone => ?_⟩
      · rw [hk, ← h.taken, answered_append]
        show answered cs ++ answered (s.mFront.callbackDone.toList.map _) ++ _ = _
        rw [hsent]
      · rw [show s.mBack.buffer = none from hnone] at hb
        cases hb

theorem Answers.unlockBuffer (h : s.Answers cs p)
    (ht : s.unlockBuffer.1.Refines (cs ++ s.unlockBuffer.2) p.plain) :
    s.unlockBuffer.1.Answers (cs ++ s.unlockBuffer.2) p := by
  cases hf : s.mFront.buffer with
  | none =>
    rw [unlockBuffer_idle hf] at ht ⊢
    exact h.frame ht rfl h.waiting rfl rfl
  | some f =>
    have hsent : answered (.shmBufferGet (some f) :: .shmBufferEndAccess (some f) ::
        s.mFront.sendDone.2) = s.mFront.callbackDone.toList := s.mFront.answered_sendDone
    rw [unlockBuffer_shown hf] at ht ⊢
    refine ⟨ht, h.waiting, ?_, fun _ => rfl⟩
    rw [answered_append, hsent, h.taken]
    exact List.append_nil _

/-- One operation on a surface is one operation on the plain surface and its callbacks. -/
theorem Answers.perform (h : s.Answers cs p) (op : SurfaceOp) :
    (s.perform shm op).1.Answers (cs ++ (s.perform shm op).2) (p.step shm op) := by
  have ht : (s.perform shm op).1.Refines (cs ++ (s.perform shm op).2) (p.step shm op).plain := by
    rw [PlainFrames.step_plain]
    exact h.refines.perform op
  cases op with
  | attach b x y =>
    refine h.frame ht surfaceAttach_mFront ?_ rfl ?_
    · show (s.surfaceAttach shm b x y).1.mBack.callbackDone = p.waiting
      rw [← h.waiting, Surface.surfaceAttach]
      cases shm.get b <;> rfl
    · show answered (s.surfaceAttach shm b x y).2 = []
      rw [surfaceAttach_calls]
      rfl
  | frame cb => exact h.frame ht rfl rfl rfl rfl
  | commit => exact h.surfaceCommit
  | lockBuffer =>
    refine h.frame ht rfl h.waiting rfl ?_
    show answered (s.lockBuffer shm).2 = []
    unfold Surface.lockBuffer
    split <;> rfl
  | unlockBuffer => exact h.unlockBuffer ht
  | setX x => exact h.frame ht rfl h.waiting rfl rfl
  | setY y => exact h.frame ht rfl h.waiting rfl rfl

/-- Every run of a surface from its construction. -/
theorem reaches_answers (shm : ShmTable) (this : Address) (r : WlResource) (c : WlClient)
    (l : Option DestroyListener) (ops : List SurfaceOp) :
    ∃ cs s, (surfaceMachine shm (construct this r c l)).Reaches ops cs s ∧
      s.Answers cs (PlainFrames.after shm ops) := by
  refine Machine.exists_induct
    (P := fun ops cs (s : Surface) => s.Answers cs (PlainFrames.after shm ops))
    (fun _ _ => ⟨_, _, rfl⟩) (answers_construct this r c l) ?_ ops
  intro ops cs s op ds t _ ha hstep
  cases hstep
  rw [PlainFrames.after_snoc]
  exact ha.perform op

/-- After a repaint no callback is left in front: all that commits took is answered. -/
theorem Answers.repainted (h : s.Answers cs p) :
    answered (cs ++ (s.repainted shm).2) = p.taken := by
  have hcons := h.refines.consistent
  rw [answered_append]
  cases hf : s.mFront.buffer with
  | none =>
    have hold := h.taken
    rw [h.shown hf] at hold
    rw [repainted_idle hcons hf]
    exact hold
  | some f =>
    have hr : s.mFront.isReady = true := by rw [hcons.frontReady, hf]; rfl
    have hlock : answered (s.lockBuffer shm).2 = [] := by
      unfold Surface.lockBuffer
      split <;> rfl
    have he : s.repainted shm = (s.unlockBuffer.1, (s.lockBuffer shm).2 ++ s.unlockBuffer.2) := by
      simp only [Surface.repainted, isReady, hr, if_true]
    have hsent : answered (.shmBufferGet (some f) :: .shmBufferEndAccess (some f) ::
        s.mFront.sendDone.2) = s.mFront.callbackDone.toList := s.mFront.answered_sendDone
    rw [he, answered_append, hlock, List.nil_append, unlockBuffer_shown hf, hsent, h.taken]

end Surface

/-- **Frame callbacks are answered at most once, in order, and never early.** Whatever is done to a
surface after its construction, where every frame request makes a new callback: the answers have no
duplicates and are some of the requests, in their order; and each answered callback was requested
before a commit of the run that found a buffer pending. -/
theorem callbacks_in_order (shm : ShmTable) (this : Address) (r : WlResource) (c : WlClient)
    (l : Option DestroyListener) (ops : List SurfaceOp) (fresh : (framed ops).Nodup) :
    ∃ cs s, (surfaceMachine shm (Surface.construct this r c l)).Reaches ops cs s ∧
      (answered cs).Nodup ∧ (answered cs).Sublist (framed ops) ∧
      ∀ cb ∈ answered cs, ∃ before middle rest,
        ops = before ++ .frame (some cb) :: (middle ++ .commit :: rest) ∧
        (Plain.after shm (before ++ .frame (some cb) :: middle)).pending ≠ none := by
  obtain ⟨cs, s, hs, ha⟩ := Surface.reaches_answers shm this r c l ops
  have htaken : (answered cs).Sublist (PlainFrames.after shm ops).taken := by
    rw [← ha.taken]
    exact List.sublist_append_left _ _
  have hsub : (answered cs).Sublist (framed ops) :=
    (htaken.trans (List.sublist_append_left _ _)).trans (PlainFrames.taken_sublist shm ops)
  exact ⟨cs, s, hs, hsub.nodup fresh, hsub,
    fun cb hcb => PlainFrames.taken_committed (htaken.subset hcb)⟩

/-- A surface that waits for each answer: the second callback is answered by a repaint. -/
def pacedOps : List SurfaceOp :=
  [.attach (some 7) 0 0, .frame (some 1), .commit, .attach (some 8) 0 0, .frame (some 2), .commit,
    .lockBuffer, .unlockBuffer]

theorem callbacks_in_order_paced :
    ∃ cs s, (surfaceMachine onePixel (Surface.construct 0 3 0 none)).Reaches pacedOps cs s ∧
      (answered cs).Nodup ∧ (answered cs).Sublist (framed pacedOps) ∧
      ∀ cb ∈ answered cs, ∃ before middle rest,
        pacedOps = before ++ .frame (some cb) :: (middle ++ .commit :: rest) ∧
        (Plain.after onePixel (before ++ .frame (some cb) :: middle)).pending ≠ none :=
  callbacks_in_order onePixel 0 3 0 none pacedOps (by decide)

/-- **No callback is left out**, exactly if none is replaced or left waiting. Whatever is done to a
surface, where every frame request makes a new callback, then a commit, then a repaint: all
callbacks requested before the commit are answered if and only if no frame request found a callback
that no effective commit had taken, and the last commit took the one that waited. -/
theorem callbacks_answered_iff (shm : ShmTable) (this : Address) (r : WlResource) (c : WlClient)
    (l : Option DestroyListener) (ops : List SurfaceOp) (fresh : (framed ops).Nodup) :
    ∃ cs t, (surfaceMachine shm (Surface.construct this r c l)).Reaches (ops ++ [.commit]) cs t ∧
      ((∀ cb ∈ framed ops, cb ∈ answered (cs ++ (t.repainted shm).2)) ↔
        PlainFrames.Unreplaced shm ops ∧
          ((PlainFrames.after shm ops).waiting = none ∨ (Plain.after shm ops).pending ≠ none)) := by
  obtain ⟨cs, t, ht, ha⟩ := Surface.reaches_answers shm this r c l (ops ++ [.commit])
  refine ⟨cs, t, ht, ?_⟩
  rw [ha.repainted, ← PlainFrames.waiting_commit]
  have hframed : framed (ops ++ [.commit]) = framed ops := by
    rw [framed_append, show framed [.commit] = [] from rfl, List.append_nil]
  have hsub := PlainFrames.taken_sublist shm (ops ++ [.commit])
  have hiff := PlainFrames.unreplaced_iff shm (ops ++ [.commit])
  have hcommit : PlainFrames.Unreplaced shm (ops ++ [.commit]) ↔ PlainFrames.Unreplaced shm ops :=
    PlainFrames.unreplaced_snoc.trans (and_iff_left nofun)
  rw [hframed] at hsub hiff
  rw [hcommit] at hiff
  constructor
  · intro hall
    -- All requests are among what was taken, in order: so nothing else was requested or waits.
    have hlen := (fresh.subperm hall).length_le
    have hlen' := hsub.length_le
    rw [List.length_append] at hlen'
    have hwait : (PlainFrames.after shm (ops ++ [.commit])).waiting.toList = [] :=
      List.eq_nil_of_length_eq_zero (by omega)
    rw [hwait, List.append_nil] at hsub hiff
    exact ⟨hiff.mpr (hsub.eq_of_length (by omega)), Option.toList_eq_nil_iff.mp hwait⟩
  · rintro ⟨hun, hwait⟩ cb hcb
    have htaken := hiff.mp hun
    rw [hwait, Option.toList_none, List.append_nil] at htaken
    rw [htaken]
    exact hcb

theorem callbacks_answered_iff_paced :
    ∃ cs t, (surfaceMachine onePixel (Surface.construct 0 3 0 none)).Reaches
        (pacedOps ++ [.commit]) cs t ∧
      ((∀ cb ∈ framed pacedOps, cb ∈ answered (cs ++ (t.repainted onePixel).2)) ↔
        PlainFrames.Unreplaced onePixel pacedOps ∧
          ((PlainFrames.after onePixel pacedOps).waiting = none ∨
            (Plain.after onePixel pacedOps).pending ≠ none)) :=
  callbacks_answered_iff onePixel 0 3 0 none pacedOps (by decide)

/-- A surface that shows a buffer gets two frame requests, an attach, a commit and a repaint: the
first callback is never answered. -/
theorem replaced_callback_unanswered :
    ∃ cs s ds t,
      (surfaceMachine onePixel (Surface.construct 0 3 0 none)).Reaches
        [.attach (some 7) 0 0, .commit] cs s ∧ s.isReady = true ∧
      (surfaceMachine onePixel (Surface.construct 0 3 0 none)).Reaches
        ([.attach (some 7) 0 0, .commit] ++
          [.frame (some 1), .frame (some 2), .attach (some 8) 0 0] ++ [.commit]) ds t ∧
      1 ∉ answered (ds ++ (t.repainted onePixel).2) :=
  ⟨_, _, _, _, rfl, rfl, rfl, by decide⟩

end WaylandTest
