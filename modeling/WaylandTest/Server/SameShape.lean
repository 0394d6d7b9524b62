import WaylandTest.Lib.Outcome
import WaylandTest.Server.Repaint

/-!
# Repaints of buffers of one shape

Two tables have the same shape if their buffers differ in their bytes at most. Where a copy reads
and writes does not depend on those bytes. So a repaint of one table completes if a repaint of the
other one does, whatever the buffers hold (`repaint_alike`).
-/

set_option autoImplicit false

namespace WaylandTest

open Lib Exec

/-- The two buffers differ in their bytes at most. -/
structure ShmBuffer.SameShape (b b' : ShmBuffer) : Prop where
  width : b.width = b'.width
  height : b.height = b'.height
  stride : b.stride = b'.stride
  format : b.format = b'.format
  length : b.data.length = b'.data.length

/-- The two tables have buffers of the same shape behind the same handles. -/
def ShmTable.SameShape (shm shm' : ShmTable) : Prop :=
  ∀ r, Option.Rel ShmBuffer.SameShape (shm r) (shm' r)

/-! ## One copy -/

section Copies

variable {blend blend' : Blend} {m m' data data' : Memory UInt8} {a a' : UInt8} {i bg fg : Int}

/-- The two blocks have the same extent. -/
def SameLength (m m' : Memory UInt8) : Prop := m.length = m'.length

theorem alike_loadByte (h : SameLength m m') (i : Int) :
    Alike (fun _ _ => True) (loadByte m i) (loadByte m' i) := by
  unfold SameLength at h
  refine alike_ofOption ?_
  by_cases hi : 0 ≤ i ∧ i < m.length
  · obtain ⟨v, hv⟩ := Memory.exists_read hi.1 hi.2
    obtain ⟨v', hv'⟩ := Memory.exists_read (m := m') hi.1 (h ▸ hi.2)
    exact .inl ⟨v, v', hv, hv', trivial⟩
  · have hout : ∀ {m : Memory UInt8}, ¬ (0 ≤ i ∧ i < m.length) → m.read i = none := fun hm =>
      Option.not_isSome_iff_eq_none.mp fun hs => hm (Memory.read_isSome.mp hs)
    exact .inr ⟨hout hi, hout (h ▸ hi)⟩

theorem alike_storeByte (h : SameLength m m') (i : Int) :
    Alike SameLength (storeByte m i a) (storeByte m' i a') := by
  refine alike_ofOption ?_
  by_cases hi : 0 ≤ i ∧ i < m.length
  · obtain ⟨d, hd⟩ := Memory.exists_write hi.1 hi.2 a
    obtain ⟨d', hd'⟩ := Memory.exists_write (m := m') hi.1 (h ▸ hi.2) a'
    refine .inl ⟨d, d', hd, hd', ?_⟩
    exact (Memory.changed_write hd).length.trans (h.trans (Memory.changed_write hd').length.symm)
  · refine .inr ⟨if_neg hi, if_neg ?_⟩
    rw [← h]
    exact hi

theorem alike_blendByte (hdata : SameLength data data') (h : SameLength m m') :
    Alike SameLength (blendByte blend data a m bg fg) (blendByte blend' data' a' m' bg fg) :=
  (alike_loadByte h bg).bind fun _ _ _ => (alike_loadByte hdata fg).bind fun _ _ _ =>
    alike_storeByte h bg

theorem alike_alphaBlending (hdata : SameLength data data') (h : SameLength m m') :
    Alike SameLength (alphaBlending blend data m bg fg) (alphaBlending blend' data' m' bg fg) :=
  (alike_loadByte hdata _).bind fun _ _ _ => (alike_blendByte hdata h).bind fun _ _ h₀ =>
    (alike_blendByte hdata h₀).bind fun _ _ h₁ => alike_blendByte hdata h₁

theorem alike_blitLine (hdata : SameLength data data') (h : SameLength m m') (dst src : Int)
    (size : UInt32) :
    Alike SameLength (blitLine blend data m dst src size)
      (blitLine blend' data' m' dst src size) := by
  refine Alike.bind (R := fun s t => s.1 = t.1 ∧ SameLength s.2 t.2) ?_
    fun ⟨_, _⟩ ⟨_, _⟩ hst => alike_pure hst.2
  refine Alike.loop (fun s t hst => by rw [hst.1]) ?_ loopFuel ⟨rfl, h⟩
  rintro ⟨i, d⟩ ⟨_, d'⟩ ⟨rfl, hd⟩
  exact (alike_alphaBlending hdata hd).bind fun _ _ hnext => alike_pure ⟨rfl, hnext⟩

/-- Two states of the loop of a copy that are at the same row. -/
structure SameRow {σ τ : Type} (R : σ → τ → Prop) (s : BlitState σ) (t : BlitState τ) : Prop where
  y : s.y = t.y
  offsetDst : s.offsetDst = t.offsetDst
  offsetSrc : s.offsetSrc = t.offsetSrc
  display : R s.display t.display

/-- **Two copies over any memories** are alike where their lines are. -/
theorem alike_copyBy {σ τ : Type} {R : σ → τ → Prop} {int32 : IntRule}
    {line : Line σ}
    {line' : Line τ}
    (hline : ∀ d d', R d d' → ∀ dst src size, Alike R (line d dst src size) (line' d' dst src size))
    {d : σ} {d' : τ} (h : R d d') (displayWidth displayHeight w height posY posX : Int) :
    Alike R (copyBy int32 line displayWidth displayHeight w height d posY posX)
      (copyBy int32 line' displayWidth displayHeight w height d' posY posX) := by
  refine Alike.bind_same fun r => ?_
  refine Alike.bind (R := SameRow R) ?_ fun s s' hs => hs.display
  refine Alike.loop (fun s s' hs => by rw [hs.y]) ?_ loopFuel ⟨rfl, rfl, rfl, h⟩
  rintro ⟨y, dst, src, d⟩ ⟨_, _, _, d'⟩ ⟨rfl, rfl, rfl, hd⟩
  refine (hline d d' hd dst src _).bind fun e e' he => ?_
  refine Alike.bind_same fun rowDst => Alike.bind_same fun nextDst => ?_
  refine Alike.bind_same fun rowSrc => Alike.bind_same fun nextSrc => ?_
  exact Alike.bind_same fun nextY => alike_pure ⟨rfl, rfl, rfl, he⟩

/-- **Two copies** of buffers of one shape. -/
theorem alike_copy {b b' : ShmBuffer} (hb : b.SameShape b') (h : SameLength m m')
    (displayWidth displayHeight posY posX : Int) :
    Alike SameLength (copyShmBufferToDisplay checked blend displayWidth displayHeight m b posY posX)
      (copyShmBufferToDisplay checked blend' displayWidth displayHeight m' b' posY posX) := by
  unfold copyShmBufferToDisplay
  rw [hb.width, hb.height]
  exact alike_copyBy (fun _ _ hd => alike_blitLine hb.length hd) h _ _ _ _ _ _

end Copies

namespace Compositor

/-! ## One repaint -/

variable {blend blend' : Blend} {shm shm' : ShmTable} {c : Compositor} {m m' : Memory UInt8}

/-- A surface locks related buffers of related tables. -/
theorem lockBuffer_rel {R : ShmBuffer → ShmBuffer → Prop}
    (h : ∀ r, Option.Rel R (shm r) (shm' r)) (s : Surface) :
    Option.Rel R (s.lockBuffer shm).1 (s.lockBuffer shm').1 := by
  unfold Surface.lockBuffer ShmTable.get
  split
  · cases s.mFront.buffer with
    | none => exact .none
    | some r => exact h r
  · exact .none

/-- A surface locks a buffer of both tables, or of none. -/
theorem lockBuffer_cases {R : ShmBuffer → ShmBuffer → Prop}
    (h : ∀ r, Option.Rel R (shm r) (shm' r)) (s : Surface) :
    (s.lockBuffer shm).1 = none ∧ (s.lockBuffer shm').1 = none ∨
      ∃ b b', (s.lockBuffer shm).1 = some b ∧ (s.lockBuffer shm').1 = some b' ∧ R b b' := by
  have hrel := lockBuffer_rel h s
  generalize (s.lockBuffer shm).1 = o at hrel ⊢
  generalize (s.lockBuffer shm').1 = o' at hrel ⊢
  cases hrel with
  | none => exact .inl ⟨rfl, rfl⟩
  | some hb => exact .inr ⟨_, _, rfl, rfl, hb⟩

theorem alike_drawLocked (hm : SameLength m m') (s : Surface) {o o' : Option ShmBuffer}
    (h : Option.Rel ShmBuffer.SameShape o o') :
    Alike SameLength (drawLocked blend c m s o) (drawLocked blend' c m' s o') := by
  cases h with
  | none => exact hm
  | some hb =>
    exact Alike.bind_same fun y => Alike.bind_same fun x => alike_copy hb hm _ _ _ _

theorem alike_repaintSurface (h : shm.SameShape shm') (hm : SameLength m m') (s : Surface) :
    Alike (fun p p' => SameLength p.1 p'.1) (repaintSurface blend shm c m s)
      (repaintSurface blend' shm' c m' s) := by
  by_cases hr : s.isReady = true
  · rw [repaintSurface_ready blend shm c hr, repaintSurface_ready blend' shm' c hr]
    refine (alike_log _ _ trivial).bind (R := fun _ _ => True) fun _ _ _ => ?_
    refine (alike_drawLocked hm s (lockBuffer_rel h s)).bind fun d d' hd => ?_
    exact (alike_log _ _ trivial).bind (R := fun _ _ => True) fun _ _ _ => alike_pure hd
  · rw [repaintSurface_idle blend shm c hr, repaintSurface_idle blend' shm' c hr]
    exact alike_pure hm

theorem alike_repaintSurfaces (h : shm.SameShape shm') (hm : SameLength m m')
    (ps : List (Option Surface)) :
    Alike (fun p p' => SameLength p.1 p'.1) (repaintSurfaces blend shm c m ps)
      (repaintSurfaces blend' shm' c m' ps) := by
  induction ps generalizing m m' with
  | nil => exact alike_pure hm
  | cons p ps ih =>
    cases p with
    | none => exact (ih hm).bind fun _ _ hd => alike_pure hd
    | some s =>
      exact (alike_repaintSurface h hm s).bind fun _ _ hd =>
        (ih hd).bind fun _ _ he => alike_pure he

/-- **Two repaints** of tables of one shape complete alike, whatever the blends compute. -/
theorem repaint_alike_blends (blend blend' : Blend) (h : shm.SameShape shm') (c : Compositor) :
    Alike (fun _ _ => True) (c.repaint blend shm) (c.repaint blend' shm') := by
  refine Alike.bind_same fun laid => Alike.bind_same fun cleared => ?_
  refine (alike_repaintSurfaces h rfl _).bind fun _ _ _ => ?_
  exact (alike_log _ _ trivial).bind (R := fun _ _ => True) fun _ _ _ => alike_pure trivial

theorem repaint_alike (blend : Blend) (h : shm.SameShape shm') (c : Compositor) :
    Alike (fun _ _ => True) (c.repaint blend shm) (c.repaint blend shm') :=
  repaint_alike_blends blend blend h c

end Compositor

end WaylandTest
