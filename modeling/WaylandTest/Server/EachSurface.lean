import WaylandTest.Server.LiveBuffers

/-!
# What holds of each surface

An action does one of four things to a surface: it makes it, gives it another shell surface, places
it, or performs one operation of its client or of a repaint on it. So what these keep of a single
surface, a served action keeps of all of them (`serve_surfaces`). The first use: in every state of a
run all surfaces are consistent.
-/

set_option autoImplicit false

namespace WaylandTest

open Lib

/-- What holds of all surfaces wherever they are, holds of them where the layout places them. -/
theorem Compositor.forall_relaid {I : Surface → Prop} (hplace : ∀ z y, I z → I (z.setY y))
    {ss : List Surface} (h : ∀ z ∈ ss, I z) (displayHeight : Int) :
    ∀ z ∈ relaid displayHeight ss, I z := by
  -- Placing a surface back gives the surface back.
  have hsame : ∀ (z : Surface) (y : Int), I (z.setY y) = I z :=
    fun z y => propext ⟨fun hz => hplace (z.setY y) z.mY hz, hplace z y⟩
  intro y hy
  have hmem : I y ∈ ss.map I := map_relaid hsame displayHeight ss ▸ List.mem_map_of_mem hy
  obtain ⟨z, hz, heq⟩ := List.mem_map.mp hmem
  rw [← heq]
  exact h z hz

/-- The operation is a frame request. -/
def SurfaceOp.isFrame : SurfaceOp → Bool
  | .frame _ => true
  | _ => false

namespace Server

variable {s t : Server} {cs ds : List Call} {blend : Blend} {I : Surface → Prop}

/-- A callback that comes with a frame request is the resource made between `s` and `t`. -/
def Brings (s t : Server) (op : SurfaceOp) : Prop :=
  ∀ cb, op = .frame cb → cb = some s.resources.length ∧
    ∃ c, t.resources = s.resources ++ [{ client := c, userData := .null }]

theorem brings {op : SurfaceOp} (h : op.isFrame = false) : s.Brings t op := by
  intro cb hcb
  rw [hcb] at h
  cases h

theorem forall_updateSurface {a : Address} {f : Surface → Surface} (h : ∀ x ∈ s.surfaces, I x)
    (hf : ∀ x, I x → I (f x)) : ∀ y ∈ (s.updateSurface a f).surfaces, I y := by
  intro y hy
  rw [surfaces_updateSurface] at hy
  obtain ⟨x, hx, rfl⟩ := List.mem_map.mp hy
  split
  · exact hf x (h x hx)
  · exact h x hx

theorem forall_move {x y : Int} (hplace : ∀ z x y, I z → I ((z.setX x).setY y))
    (h : ∀ z ∈ s.surfaces, I z) (hstep : s.move x y = ⟨ds, .ok t⟩) : ∀ z ∈ t.surfaces, I z :=
  move_induct (I := fun u => ∀ z ∈ u.surfaces, I z)
    (fun _ _ x y hu => forall_updateSurface hu fun z hz => hplace z x y hz) h hstep

/-- A repaint places the surfaces and repaints each. -/
theorem forall_repaint (hplace : ∀ z y, I z → I (z.setY y))
    (hrepainted : ∀ z, I z → I (z.repainted s.shm).1) (h : ∀ z ∈ s.surfaces, I z)
    (hstep : s.repaint blend = ⟨ds, .ok t⟩) : ∀ z ∈ t.surfaces, I z := by
  obtain ⟨_, c, _, hrepaint, hret, -⟩ := Exec.bind_eq_ok.mp hstep
  cases hret
  obtain ⟨ss, _, _, _, _, hlist, -, -, -, rfl⟩ := Compositor.repaint_cases hrepaint
  obtain rfl : s.surfaces = ss := by rw [surfaces, hlist, contents_map_some]
  intro y hy
  change y ∈ contents (List.map _ (List.map some _)) at hy
  rw [contents_map, contents_map_some] at hy
  obtain ⟨x, hx, rfl⟩ := List.mem_map.mp hy
  exact hrepainted x (Compositor.forall_relaid hplace h _ x hx)

/-- **The rule for each surface.** What holds of a new surface, and is kept by another shell surface
and by every operation, is kept of all surfaces by a served action. -/
theorem serve_surfaces {act : ServeAction} (new : ∀ a r c l, I (Surface.construct a r c l))
    (role : ∀ x p, I x → I { x with mShellSurface := p })
    (perform : ∀ x op, s.Brings t op → I x → I (x.perform s.shm op).1)
    (h : ∀ x ∈ s.surfaces, I x) (hstep : s.serve blend act = ⟨ds, .ok t⟩) :
    ∀ y ∈ t.surfaces, I y := by
  have hplaced : ∀ z x y, I z → I ((z.setX x).setY y) := fun z x y hz =>
    perform _ (.setY y) (brings rfl) (perform z (.setX x) (brings rfl) hz)
  cases act with
  | connect =>
    cases hstep
    exact h
  | repaint =>
    refine forall_repaint (fun z y hz => perform z (.setY y) (brings rfl) hz) (fun z hz => ?_) h
      hstep
    rw [Surface.repainted]
    split
    · exact perform z .unlockBuffer (brings rfl) hz
    · exact hz
  | move x y => exact forall_move hplaced h hstep
  | request q =>
    have hq : Handled s q ⟨ds, .ok t⟩ := .eq hstep
    cases hq with
    | ignored => exact h
    | bound g hc => exact h
    | surfaceCreated hr =>
      intro y hy
      rcases List.mem_append.mp (mem_contents.mp hy) with hy | hy
      · exact h y (mem_contents.mpr hy)
      · cases List.mem_singleton.mp hy
        exact new _ _ _ _
    | regionCreated hr => exact h
    | pointerCreated hr => exact h
    | shellSurfaceSet c hx =>
      exact forall_updateSurface (s := s.create .shellSurface c) h fun x hx => role x _ hx
    | cursorSet hps => exact h
    | @attached _ _ _ _ b x y hz hb =>
      exact forall_updateSurface h fun z hz => perform z (.attach b x y) (brings rfl) hz
    | framed c hz =>
      refine forall_updateSurface h fun z hz => perform z (.frame _) ?_ hz
      rintro cb hcb
      cases hcb
      exact ⟨rfl, c, rfl⟩
    | committed hr hz => exact forall_updateSurface h fun z hz => perform z .commit (brings rfl) hz
    | bufferCreated b hc => exact h
    | bufferDestroyed hr => exact h

theorem consistent_serve {act : ServeAction} (h : ∀ x ∈ s.surfaces, x.Consistent)
    (hstep : s.serve blend act = ⟨ds, .ok t⟩) : ∀ x ∈ t.surfaces, x.Consistent := by
  refine serve_surfaces Surface.consistent_construct ?_ ?_ h hstep
  · exact fun x p hx => ⟨hx.frontReady, hx.backReady, hx.filled⟩
  · exact fun x op _ hx => hx.perform s.shm op

theorem reaches_consistent {width height : Int} {as : List ServeAction}
    (h : (requestMachine blend width height).Reaches as cs s) : ∀ x ∈ s.surfaces, x.Consistent :=
  h.invariant (P := fun s => ∀ x ∈ s.surfaces, x.Consistent)
    (fun _ hx => absurd hx List.not_mem_nil) fun _ _ _ _ hs hstep => consistent_serve hs hstep

end Server

end WaylandTest
