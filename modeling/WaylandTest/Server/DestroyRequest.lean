import WaylandTest.Server.Lifetimes

/-!
# The request to destroy a surface

A surface leaves `mSurfacesList` when its resource is destroyed. `wl_surface.destroy` is the request
to do that, and its handler is `WaylandSurface::surfaceDestroy`, which is empty and which `Surface`
does not override. So the request changes nothing: while clients only send requests, no surface
leaves the list (`surfaces_stay`), and `destroyed_gone_iff` says that a run keeps the promise of the
request exactly if the request is never dispatched in it.
-/

set_option autoImplicit false

namespace WaylandTest

open Lib

namespace Server

variable {s t : Server} {r : WlResource} {w : Wrapper} {a : Address} {c : WlClient}
  {cs ds : List Call} {blend : Blend} {width height : Int}

theorem Owned.serve (h : Owned cs s) {act : ServeAction}
    (hstep : s.serve blend act = ⟨ds, .ok t⟩) : Owned (cs ++ ds) t := by
  rcases serve_cases h.nodup hstep with ⟨gone, born, hm, -⟩ | ⟨r, -, rfl, rfl, -⟩
  · exact h.moved hm
  · rw [List.append_nil]
    exact h.bury r

/-- The handles of surfaces stand for surfaces that exist. -/
def Held (s : Server) : Prop :=
  ∀ r w, s.wraps r = some w → w.kind = .surface → (w, r) ∈ s.wrappers

theorem Held.serve (h : s.Held) (ho : Owned cs s) {act : ServeAction}
    (hstep : s.serve blend act = ⟨ds, .ok t⟩) : t.Held := by
  intro r w hw hkind
  rcases serve_cases ho.nodup hstep with ⟨gone, born, hm, hgone⟩ | ⟨r', -, rfl, rfl, -⟩
  · rw [hm.wraps] at hw
    have hall := List.mem_append.mpr ((wraps_bear hw).imp_right fun hold => h r w hold hkind)
    rcases List.mem_append.mp (hm.wrappers.mem_iff.mp hall) with hmem | hmem
    · have hshell : w.kind = .shellSurface := hgone _ hmem
      rw [hkind] at hshell
      cases hshell
    · exact hmem
  · rw [wraps_bury] at hw
    exact h r w hw hkind

theorem reaches_held {as : List ServeAction}
    (h : (requestMachine blend width height).Reaches as cs s) : Owned cs s ∧ s.Held := by
  refine h.induct (P := fun _ cs s => Owned cs s ∧ s.Held) ?_ ?_
  · exact ⟨owned_start width height, fun _ _ hw => nomatch hw⟩
  · intro _ cs s act ds t _ hs hstep
    exact ⟨hs.1.serve hstep, hs.2.serve hs.1 hstep⟩

/-- A request on a surface finds the surface. -/
theorem Held.find (h : s.Held) (hr : s.wrapperAt .surface r = some (a, c)) :
    ∃ x, s.surface? a = some x := by
  have hw : (⟨.surface, a⟩, r) ∈ s.wrappers := h r _ (wraps_of_wrapperAt hr) rfl
  obtain ⟨x, hx, hthis, -⟩ := surface_of_wrapper hw rfl
  exact exists_surface? hx hthis

/-- **The request does nothing** to any surface. -/
theorem Held.surfaceDestroy_eq (h : s.Held) (r : WlResource) :
    s.surfaceDestroy r = ⟨[], .ok s⟩ := by
  rw [surfaceDestroy, onSurface]
  cases hr : s.wrapperAt .surface r with
  | none => rfl
  | some p =>
    obtain ⟨a, c⟩ := p
    obtain ⟨x, hx⟩ := h.find hr
    show (Exec.ofOption Fault.useAfterFree (s.surface? a) >>= fun _ => pure s) = _
    rw [hx]
    rfl

/-- No request takes a surface from the list. -/
theorem Owned.surface_stays (h : Owned cs s) {act : ServeAction}
    (hstep : s.serve blend act = ⟨ds, .ok t⟩) (ha : a ∈ s.surfaces.map (·.this)) :
    a ∈ t.surfaces.map (·.this) := by
  obtain ⟨x, hx, rfl⟩ := List.mem_map.mp ha
  have hw : (⟨.surface, x.this⟩, x.mResource) ∈ s.wrappers :=
    wrapper_of_surface hx
  have hfound : ∀ {u : Server}, (⟨.surface, x.this⟩, x.mResource) ∈ u.wrappers →
      x.this ∈ u.surfaces.map (·.this) := by
    intro u hu
    obtain ⟨y, hy, hthis, -⟩ := surface_of_wrapper hu rfl
    exact List.mem_map.mpr ⟨y, hy, hthis⟩
  rcases serve_cases h.nodup hstep with ⟨gone, born, hm, hgone⟩ | ⟨r, -, rfl, rfl, -⟩
  · have hall := hm.wrappers.mem_iff.mp (List.mem_append_right (s.newborn born) hw)
    rcases List.mem_append.mp hall with hmem | hmem
    · cases hgone _ hmem
    · exact hfound hmem
  · exact hfound hw

/-- **While clients only send requests, no surface leaves the list.** -/
theorem surfaces_stay {as bs : List ServeAction}
    (hs : (requestMachine blend width height).Reaches as cs s)
    (ht : (requestMachine blend width height).Reaches (as ++ bs) ds t)
    (ha : a ∈ s.surfaces.map (·.this)) : a ∈ t.surfaces.map (·.this) := by
  induction bs using List.reverseRecOn generalizing ds t with
  | nil =>
    rw [List.append_nil] at ht
    rw [← (hs.det ht).2]
    exact ha
  | append_singleton bs act ih =>
    rw [← List.append_assoc] at ht
    obtain ⟨es, u, _, hu, hstep, rfl⟩ := Machine.reaches_snoc.mp ht
    exact (reaches_held hu).1.surface_stays hstep (ih hu)

/-- What `wl_surface.destroy` promises in a run: where it is dispatched for a surface, the others
stay as they are, and no later state has the surface in the list. -/
def DestroyedGone (blend : Blend) (width height : Int) (as : List ServeAction) : Prop :=
  ∀ bs r cs s a c, bs ++ [.request (.surfaceDestroy r)] <+: as →
    (requestMachine blend width height).Reaches bs cs s → s.wrapperAt .surface r = some (a, c) →
      (∀ ds t, s.surfaceDestroy r = ⟨ds, .ok t⟩ →
        t.mCompositor.mSurfacesList.filter (!holds a ·) =
          s.mCompositor.mSurfacesList.filter (!holds a ·)) ∧
      ∀ es ds t, bs ++ .request (.surfaceDestroy r) :: es <+: as →
        (requestMachine blend width height).Reaches (bs ++ .request (.surfaceDestroy r) :: es) ds
            t →
          a ∉ t.surfaces.map (·.this)

/-- The action is no `wl_surface.destroy` for a surface. -/
def DestroysNone (s : Server) (act : ServeAction) : Prop :=
  ∀ r, act = .request (.surfaceDestroy r) → s.wrapperAt .surface r = none

/-- **When a destroyed surface is gone.** A run keeps the promise of `wl_surface.destroy` exactly
if it never dispatches the request for a surface. -/
theorem destroyed_gone_iff (blend : Blend) (width height : Int) (as : List ServeAction) :
    DestroyedGone blend width height as ↔
      (requestMachine blend width height).Along DestroysNone as := by
  constructor
  · intro h bs act hprefix cs s hs r hact
    cases hr : s.wrapperAt .surface r with
    | none => rfl
    | some p =>
      obtain ⟨a, c⟩ := p
      rw [hact] at hprefix
      obtain ⟨-, hheld⟩ := reaches_held hs
      have hstep : (requestMachine blend width height).step s (.request (.surfaceDestroy r)) =
          ⟨[], .ok s⟩ := hheld.surfaceDestroy_eq r
      obtain ⟨x, hx⟩ := hheld.find hr
      refine absurd ?_ ((h bs r cs s a c hprefix hs hr).2 [] _ s hprefix (hs.snoc hstep))
      exact List.mem_map.mpr ⟨x, List.mem_of_find?_eq_some hx, surface?_this hx⟩
  · intro h bs r cs s a c hprefix hs hr
    have hnone := h bs _ hprefix cs s hs r rfl
    rw [hr] at hnone
    cases hnone

/-- A client creates a surface and destroys it: the surface is still in the list. -/
theorem destroyed_surface_stays :
    ¬ ∀ blend width height as, DestroyedGone blend width height as := by
  intro h
  have hgone := (h (fun bg _ _ => bg) 1 1
    [.connect, .request (.bind 0 .compositor), .request (.createSurface 0),
      .request (.surfaceDestroy 1)]
    [.connect, .request (.bind 0 .compositor), .request (.createSurface 0)] 1 _ _ 0 0
    List.prefix_rfl rfl rfl).2 [] _ _ List.prefix_rfl rfl
  exact hgone (by decide)

end Server

end WaylandTest
