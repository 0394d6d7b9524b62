import WaylandTest.Server.IdleClients

/-!
# What the rest of the system does to a client's only surface

A step that is not the client's own, and does not tear the server down, places the client's surface
or repaints it, sends the client what the repaint of that surface sends, and leaves the resources of
the client alone (`Separate.others_step`). This is `idle_client_undisturbed` for a single step and a
single surface, with exactly the events.
-/

set_option autoImplicit false

namespace WaylandTest

open Lib

/-- The surface `w` is `z`, placed elsewhere or not. -/
def Surface.Shifted (z w : Surface) : Prop := w = { z with mX := w.mX, mY := w.mY }

namespace Surface

variable {y z w : Surface}

theorem Shifted.refl (z : Surface) : z.Shifted z := rfl

theorem Shifted.trans (h : y.Shifted z) (h' : z.Shifted w) : y.Shifted w := by
  unfold Shifted at h h' ⊢
  rw [h', h]

theorem Shifted.mClient (h : z.Shifted w) : w.mClient = z.mClient := by
  rw [h]

theorem Shifted.this (h : z.Shifted w) : w.this = z.this := by
  rw [h]

theorem Shifted.mFront (h : z.Shifted w) : w.mFront = z.mFront := by
  rw [h]

theorem shifted_of_samePlaced (h : z.SamePlaced w) : z.Shifted w := by
  unfold SamePlaced at h
  split at h
  · rw [h]
    rfl
  · rw [h]
    exact .refl z

/-- The one surface of a client, where it is placed. -/
theorem one_shifted {zs ws : List Surface} (h : List.Forall₂ Shifted zs ws) {c : WlClient}
    (hone : zs.filter (·.mClient = c) = [z]) :
    ∃ w, ws.filter (·.mClient = c) = [w] ∧ z.Shifted w :=
  filter_paired_one h (fun _ _ hzw => by rw [hzw.mClient]) hone

end Surface

namespace Server

variable {s t : Server} {c c' : WlClient} {cs ds : List Call} {blend : Blend} {z : Surface}

/-- The events among the calls `ds` that go to the client. -/
def eventsFor (t : Server) (c : WlClient) (ds : List Call) : List Event :=
  (wireEvents ds).filter fun e => t.clientOf e.handle = some c

theorem Confined.eventsFor_self (h : Confined c s t ds) : t.eventsFor c ds = wireEvents ds :=
  List.filter_eq_self.mpr fun e he => decide_eq_true (h.events e he)

theorem Confined.eventsFor_other (h : Confined c' s t ds) (hne : c ≠ c') :
    t.eventsFor c ds = [] := by
  refine List.filter_eq_nil_iff.mpr fun e he hmine => ?_
  have hc := (h.events e he).symm.trans (of_decide_eq_true hmine)
  exact hne (Option.some.inj hc).symm

/-- The events a step sends the client are those of a repaint of its surface `z`, shifted to `z'`,
or none. -/
structure OnlyPlaced (s t : Server) (c : WlClient) (ds : List Call) (z : Surface) : Prop where
  resources : ∀ r, s.clientOf r = some c → t.resources[r]? = s.resources[r]?
  surface : ∃ z', z.Shifted z' ∧
    (t.surfacesOf c = [z'] ∧ t.eventsFor c ds = [] ∨
      t.surfacesOf c = [(z'.repainted s.shm).1] ∧
        t.eventsFor c ds = wireEvents (z'.repainted s.shm).2)

theorem Separate.onlyPlaced_repaint (h : Separate cs s) (hone : s.surfacesOf c = [z])
    (hstep : s.repaint blend = ⟨ds, .ok t⟩) : OnlyPlaced s t c ds z := by
  obtain ⟨_, c', _, hrepaint, hret, rfl⟩ := Exec.bind_eq_ok.mp hstep
  cases hret
  obtain ⟨ss, _, bytes, _, _, hlist, -, -, rfl, rfl⟩ := Compositor.repaint_cases hrepaint
  obtain rfl : s.surfaces = ss := by rw [surfaces, hlist, contents_map_some]
  obtain ⟨laid, hlaid⟩ : ∃ laid, laid = Compositor.relaid s.mCompositor.mDisplayHeight s.surfaces :=
    ⟨_, rfl⟩
  have hshifted : List.Forall₂ Surface.Shifted s.surfaces laid := by
    rw [hlaid]
    exact (Compositor.samePlaced_relaid s.mCompositor.mDisplayHeight s.surfaces).imp
      fun _ _ => Surface.shifted_of_samePlaced
  obtain ⟨z', hz', hshift⟩ := Surface.one_shifted hshifted hone
  refine ⟨fun _ _ => rfl, z', hshift, .inr ⟨?_, ?_⟩⟩
  · show (contents (List.map _ (List.map some _))).filter _ = _
    rw [contents_map, contents_map_some, ← hlaid, List.filter_map]
    have hclient : ((fun w : Surface => decide (w.mClient = c)) ∘
        fun w : Surface => (w.repainted s.shm).1) = fun w => decide (w.mClient = c) := by
      funext w
      have hsame : (w.repainted s.shm).1.mClient = w.mClient :=
        Surface.mClient_of_identity Surface.identity_repainted
      simp only [Function.comp_apply, hsame]
    rw [hclient, hz']
    rfl
  · rw [List.append_nil, eventsFor, wireEvents_append, events_repaintedCalls, ← hlaid]
    have hnone : wireEvents [Call.drawBuffer bytes, Call.timerUpdate repaintDelay] = [] := rfl
    rw [hnone, List.append_nil, filter_flatMap_owner (p := fun w => decide (w.mClient = c)), hz']
    · exact List.append_nil _
    · intro w hw e he
      obtain ⟨cb, hcb, rfl⟩ := Surface.events_repainted he
      obtain ⟨v, hv, hvw⟩ := exists_paired hshifted hw
      have hown : s.clientOf cb = some v.mClient :=
        h.apart v hv cb (by simp [Surface.handles, SurfaceState.handles, ← hvw.mFront, hcb])
      show decide (s.clientOf cb = some c) = _
      rw [hown, hvw.mClient]
      simp

theorem onlyPlaced_move (hone : s.surfacesOf c = [z]) {x y : Int}
    (hstep : s.move x y = ⟨ds, .ok t⟩) : OnlyPlaced s t c ds z := by
  obtain rfl : ds = [] := (congrArg Exec.calls hstep).symm.trans (silent_move x y)
  have hmoved : t.resources = s.resources ∧
      List.Forall₂ Surface.Shifted s.surfaces t.surfaces := by
    refine move_induct (I := fun u => u.resources = s.resources ∧
      List.Forall₂ Surface.Shifted s.surfaces u.surfaces) ?_ ?_ hstep
    · rintro u a x y ⟨hres, hall⟩
      refine ⟨hres, ?_⟩
      rw [surfaces_updateSurface, List.forall₂_map_right_iff]
      refine hall.imp fun z w hzw => hzw.trans ?_
      split
      · rfl
      · exact .refl w
    · exact ⟨rfl, List.forall₂_same.mpr fun z _ => .refl z⟩
  obtain ⟨hresources, hall⟩ := hmoved
  obtain ⟨z', hz', hshift⟩ := Surface.one_shifted hall hone
  exact ⟨fun _ _ => by rw [hresources], z', hshift, .inl ⟨hz', rfl⟩⟩

/-- A step that leaves the resources and the surfaces, and sends nothing. -/
theorem onlyPlaced_same (hone : s.surfacesOf c = [z]) (hresources : t.resources = s.resources)
    (hsurfaces : t.surfaces = s.surfaces) : OnlyPlaced s t c [] z := by
  refine ⟨fun _ _ => by rw [hresources], z, .refl z, .inl ⟨?_, rfl⟩⟩
  rw [surfacesOf, hsurfaces]
  exact hone

theorem Confined.onlyPlaced (h : Confined c' s t ds) (hne : c ≠ c') (hone : s.surfacesOf c = [z]) :
    OnlyPlaced s t c ds z where
  resources _ hr := h.resources.other fun hother =>
    hne (Option.some.inj ((h.resources.keeps hr).symm.trans hother))
  surface := ⟨z, .refl z, .inl ⟨(h.surfaces c hne).trans hone, h.eventsFor_other hne⟩⟩

/-- **A step of others** places the surface of a client, or repaints it, and sends the client what
that repaint sends. -/
theorem Separate.others_step (h : Separate cs s) (hone : s.surfacesOf c = [z])
    {act : LifetimeAction} (hact : s.actor act ≠ some c)
    (hstep : s.lifetime blend act = ⟨ds, .ok t⟩) (hrun : t.running = true) :
    OnlyPlaced s t c ds z := by
  cases hactor : s.actor act with
  | some c' =>
    have hne : c ≠ c' := fun heq => hact (heq ▸ hactor)
    exact (h.confined_lifetime hactor hstep).onlyPlaced hne hone
  | none =>
    unfold Server.lifetime at hstep
    split at hstep
    · cases act with
      | serve a =>
        cases a with
        | connect =>
          cases hstep
          exact onlyPlaced_same hone rfl rfl
        | request q =>
          change s.request q = _ at hstep
          rw [request_unsent hactor] at hstep
          cases hstep
          exact onlyPlaced_same hone rfl rfl
        | repaint => exact h.onlyPlaced_repaint hone hstep
        | move x y => exact onlyPlaced_move hone hstep
      | destroyResource r =>
        change s.destroyResource r = _ at hstep
        rw [destroyResource_dead hactor] at hstep
        cases hstep
        exact onlyPlaced_same hone rfl rfl
      | forget c' =>
        cases hstep
        unfold forget
        split
        · exact onlyPlaced_same hone rfl rfl
        · exact onlyPlaced_same hone rfl rfl
      | teardown =>
        obtain ⟨_, hret, -⟩ := Exec.log_bind_eq_ok.mp hstep
        cases hret
        cases hrun
    · cases hstep
      exact onlyPlaced_same hone rfl rfl

end Server

end WaylandTest
