import WaylandTest.Lib.Paired
import WaylandTest.Server.Crashes
import WaylandTest.Server.Isolation
import WaylandTest.Server.Layout

/-!
# Clients that do nothing

A client that sends no request, and none of whose resources is destroyed, keeps what it has,
whatever the others do: `Undisturbed` is one step of that, and whole runs are steps one after the
other. With it, clients are `Separate` in every reached state.
-/

set_option autoImplicit false

namespace WaylandTest

open Lib

/-- The surface, wherever it is, and whether it waits for a repaint or not. -/
def Surface.still (z : Surface) : Surface :=
  { z with mX := 0, mY := 0, mFront := { z.mFront with callbackDone := none } }

/-- The surface `w` is `z`, placed and repainted or not. -/
def Surface.Rests (z w : Surface) : Prop :=
  w.still = z.still ∧ ∀ cb, w.mFront.callbackDone = some cb → z.mFront.callbackDone = some cb

namespace Surface

variable {z w : Surface} {shm : ShmTable} {r : WlResource}

theorem mem_handles_still :
    r ∈ z.handles ↔ r ∈ z.still.handles ∨ z.mFront.callbackDone = some r := by
  simp [handles, still, SurfaceState.handles, wrappers]
  grind

theorem Rests.refl (z : Surface) : z.Rests z := ⟨rfl, fun _ hcb => hcb⟩

theorem Rests.trans {y : Surface} (h : z.Rests w) (h' : w.Rests y) : z.Rests y :=
  ⟨h'.1.trans h.1, fun cb hcb => h.2 cb (h'.2 cb hcb)⟩

theorem Rests.mClient (h : z.Rests w) : w.mClient = z.mClient :=
  (congrArg Surface.mClient h.1 :)

theorem rests_of_samePlaced (h : SamePlaced z w) : z.Rests w := by
  unfold SamePlaced at h
  split at h
  · rw [h]
    exact ⟨rfl, fun _ hcb => hcb⟩
  · rw [h]
    exact .refl z

theorem rests_repainted (z : Surface) (shm : ShmTable) : z.Rests (z.repainted shm).1 := by
  unfold repainted
  split
  · show z.Rests z.unlockBuffer.1
    unfold unlockBuffer
    split
    · exact .refl z
    · exact ⟨rfl, fun cb hcb => by cases hcb⟩
  · exact .refl z

theorem events_repainted {e : Event} (h : e ∈ wireEvents (z.repainted shm).2) :
    ∃ cb, z.mFront.callbackDone = some cb ∧ e = .done cb := by
  unfold repainted at h
  split at h
  · have hlock : wireEvents (z.lockBuffer shm).2 = [] := by
      unfold lockBuffer
      split <;> rfl
    simp only [wireEvents_append, hlock, List.nil_append] at h
    unfold unlockBuffer at h
    split at h
    · cases h
    · change e ∈ wireEvents z.mFront.sendDone.2 at h
      rw [SurfaceState.wireEvents_sendDone] at h
      obtain ⟨cb, hcb, rfl⟩ := List.mem_map.mp h
      exact ⟨cb, Option.mem_toList.mp hcb, rfl⟩
  · cases h

end Surface

namespace Server

variable {s t u : Server} {c c' : WlClient} {r r' : WlResource} {x : Resource}
  {ws : List (Wrapper × WlResource)} {cs ds es : List Call} {blend : Blend}

/-- What a client has stays as it is, but for where its surfaces are, and callbacks that are
answered. Nothing else is sent to it. -/
structure Undisturbed (c : WlClient) (s t : Server) (ds : List Call) : Prop where
  resources : ∀ r, s.clientOf r = some c ∨ t.clientOf r = some c →
    t.resources[r]? = s.resources[r]?
  surfaces : (t.surfacesOf c).map Surface.still = (s.surfacesOf c).map Surface.still
  regions : t.regionsOf c = s.regionsOf c
  pointers : t.pointersOf c = s.pointersOf c
  waiting : ∀ z ∈ t.surfacesOf c, ∀ cb, z.mFront.callbackDone = some cb →
    ∃ v ∈ s.surfacesOf c, v.mFront.callbackDone = some cb
  events : ∀ e ∈ wireEvents ds, t.clientOf e.handle = some c →
    ∃ v ∈ s.surfacesOf c, ∃ cb, v.mFront.callbackDone = some cb ∧ e = .done cb

theorem undisturbed_self (c : WlClient) (s : Server) : Undisturbed c s s [] where
  resources _ _ := rfl
  surfaces := rfl
  regions := rfl
  pointers := rfl
  waiting z hz _ hcb := ⟨z, hz, hcb⟩
  events e he := by cases he

theorem clientOf_eq (h : t.resources[r]? = s.resources[r]?) : t.clientOf r = s.clientOf r := by
  unfold clientOf
  rw [h]

theorem Undisturbed.trans (h : Undisturbed c s t ds) (h' : Undisturbed c t u es) :
    Undisturbed c s u (ds ++ es) where
  resources r hr := by
    have hmid : t.clientOf r = some c := by
      rcases hr with hs | hu
      · rw [clientOf_eq (h.resources r (.inl hs)), hs]
      · rw [← clientOf_eq (h'.resources r (.inr hu)), hu]
    exact (h'.resources r (.inl hmid)).trans (h.resources r (.inr hmid))
  surfaces := h'.surfaces.trans h.surfaces
  regions := h'.regions.trans h.regions
  pointers := h'.pointers.trans h.pointers
  waiting z hz cb hcb := by
    obtain ⟨v, hv, hvcb⟩ := h'.waiting z hz cb hcb
    exact h.waiting v hv cb hvcb
  events e he hmine := by
    rw [wireEvents_append] at he
    rcases List.mem_append.mp he with he | he
    · exact h.events e he ((clientOf_eq (h'.resources _ (.inr hmine))).symm.trans hmine)
    · obtain ⟨v, hv, cb, hcb, rfl⟩ := h'.events e he hmine
      obtain ⟨y, hy, hycb⟩ := h.waiting v hv cb hcb
      exact ⟨y, hy, cb, hycb, rfl⟩

/-- What one client does disturbs no other. -/
theorem Confined.undisturbed (h : Confined c' s t ds) (hne : c ≠ c') : Undisturbed c s t ds where
  resources r hr := by
    refine h.resources.other fun hother => ?_
    rcases hr with hs | ht
    · exact hne (Option.some.inj ((h.resources.keeps hs).symm.trans hother))
    · exact hne (Option.some.inj (ht.symm.trans hother))
  surfaces := by rw [h.surfaces c hne]
  regions := h.regions c hne
  pointers := h.pointers c hne
  waiting z hz cb hcb := ⟨z, h.surfaces c hne ▸ hz, hcb⟩
  events e he hmine := absurd (Option.some.inj (hmine.symm.trans (h.events e he))) hne

theorem filter_rests {zs ws : List Surface} (h : List.Forall₂ Surface.Rests zs ws) (c : WlClient) :
    List.Forall₂ Surface.Rests (zs.filter (·.mClient = c)) (ws.filter (·.mClient = c)) :=
  filter_paired h fun _ _ hzw => by rw [hzw.mClient]

/-- The surfaces are placed and repainted, and nothing else changes. -/
theorem Separate.undisturbed_rests (h : Separate cs s) (hresources : t.resources = s.resources)
    (hrests : List.Forall₂ Surface.Rests s.surfaces t.surfaces)
    (hregions : t.mCompositor.mRegions = s.mCompositor.mRegions)
    (hpointers : t.mPointerList = s.mPointerList)
    (hds : ∀ e ∈ wireEvents ds, ∃ v ∈ s.surfaces, ∃ cb,
      v.mFront.callbackDone = some cb ∧ e = .done cb) (c : WlClient) : Undisturbed c s t ds where
  resources r _ := by rw [hresources]
  surfaces := by
    have hstill := (filter_rests hrests c).imp (S := fun z w => w.still = z.still) fun _ _ h => h.1
    have heq : List.Forall₂ (· = ·) ((t.surfacesOf c).map Surface.still)
        ((s.surfacesOf c).map Surface.still) := by
      rw [List.forall₂_map_left_iff, List.forall₂_map_right_iff]
      exact hstill.flip
    exact List.forall₂_eq_eq_eq ▸ heq
  regions := h.regionsOf_eq (touches_of_eq (c := c) hresources) hregions
  pointers := h.pointersOf_eq (touches_of_eq (c := c) hresources) hpointers
  waiting z hz cb hcb := by
    obtain ⟨v, hv, hrest⟩ := exists_paired (filter_rests hrests c) hz
    exact ⟨v, hv, hrest.2 cb hcb⟩
  events e he hmine := by
    obtain ⟨v, hv, cb, hcb, rfl⟩ := hds e he
    have hown : s.clientOf cb = some v.mClient :=
      h.apart v hv cb (by simp [Surface.handles, SurfaceState.handles, hcb])
    have hsame : t.clientOf cb = s.clientOf cb := clientOf_eq (by rw [hresources])
    have hc : v.mClient = c := Option.some.inj (hown.symm.trans (hsame.symm.trans hmine))
    exact ⟨v, List.mem_filter.mpr ⟨hv, decide_eq_true hc⟩, cb, hcb, rfl⟩

theorem Separate.undisturbed_repaint (h : Separate cs s) (c : WlClient)
    (hstep : s.repaint blend = ⟨ds, .ok t⟩) : Undisturbed c s t ds := by
  obtain ⟨_, c', _, hrepaint, hret, rfl⟩ := Exec.bind_eq_ok.mp hstep
  cases hret
  obtain ⟨ss, _, bytes, _, _, hlist, -, -, rfl, rfl⟩ := Compositor.repaint_cases hrepaint
  obtain rfl : s.surfaces = ss := by rw [surfaces, hlist, contents_map_some]
  have hplaced := (Compositor.samePlaced_relaid s.mCompositor.mDisplayHeight s.surfaces).imp
    fun _ _ => Surface.rests_of_samePlaced
  refine h.undisturbed_rests ?_ ?_ ?_ ?_ (fun e he => ?_) c
  · rfl
  · show List.Forall₂ _ _ (contents (List.map _ (List.map some _)))
    rw [contents_map, contents_map_some, List.forall₂_map_right_iff]
    exact hplaced.imp fun z w hzw => hzw.trans (Surface.rests_repainted w s.shm)
  · rfl
  · rfl
  · rw [List.append_nil, wireEvents_append, events_repaintedCalls] at he
    rcases List.mem_append.mp he with he | he
    · obtain ⟨z, hz, hez⟩ := List.mem_flatMap.mp he
      obtain ⟨cb, hcb, rfl⟩ := Surface.events_repainted hez
      obtain ⟨v, hv, hrest⟩ := exists_paired hplaced hz
      exact ⟨v, hv, cb, hrest.2 cb hcb, rfl⟩
    · cases he

theorem Separate.undisturbed_move (h : Separate cs s) (c : WlClient) {x y : Int}
    (hstep : s.move x y = ⟨ds, .ok t⟩) : Undisturbed c s t ds := by
  obtain rfl : ds = [] := (congrArg Exec.calls hstep).symm.trans (silent_move x y)
  have hrests : t.resources = s.resources ∧ List.Forall₂ Surface.Rests s.surfaces t.surfaces ∧
      t.mCompositor.mRegions = s.mCompositor.mRegions ∧ t.mPointerList = s.mPointerList := by
    refine move_induct (I := fun u => u.resources = s.resources ∧
      List.Forall₂ Surface.Rests s.surfaces u.surfaces ∧
      u.mCompositor.mRegions = s.mCompositor.mRegions ∧ u.mPointerList = s.mPointerList) ?_ ?_ hstep
    · rintro u a x y ⟨hres, hall, hregions, hpointers⟩
      refine ⟨hres, ?_, hregions, hpointers⟩
      rw [surfaces_updateSurface, List.forall₂_map_right_iff]
      refine hall.imp fun z w hzw => hzw.trans ?_
      split
      · exact ⟨rfl, fun _ hcb => hcb⟩
      · exact .refl w
    · exact ⟨rfl, List.forall₂_same.mpr fun z _ => .refl z, rfl, rfl⟩
  obtain ⟨hresources, hall, hregions, hpointers⟩ := hrests
  exact h.undisturbed_rests hresources hall hregions hpointers (fun e he => by cases he) c

/-- A handle of no client is not live, and nothing is destroyed. -/
theorem destroyResource_dead (h : s.clientOf r = none) : s.destroyResource r = ⟨[], .ok s⟩ := by
  have hnone : s.resource? r = none := by
    by_contra hne
    obtain ⟨x, hx⟩ := Option.ne_none_iff_exists'.mp hne
    cases (clientOf_of_resource? hx).symm.trans h
  rw [destroyResource, hnone]
  rfl

/-- **An action of no client disturbs no client**, unless it tears the server down. -/
theorem Separate.undisturbed_idle (h : Separate cs s) {act : LifetimeAction}
    (hact : s.actor act = none) (hstep : s.lifetime blend act = ⟨ds, .ok t⟩) :
    (∀ c, Undisturbed c s t ds) ∨ t.surfaces = [] ∧ t.running = false := by
  unfold Server.lifetime at hstep
  split at hstep
  · cases act with
    | serve a =>
      cases a with
      | request q =>
        change s.request q = _ at hstep
        rw [request_unsent hact] at hstep
        cases hstep
        exact .inl fun c => undisturbed_self c s
      | connect =>
        cases hstep
        exact .inl fun c => ⟨fun _ _ => rfl, rfl, rfl, rfl, fun z hz _ hcb => ⟨z, hz, hcb⟩,
          fun e he => by cases he⟩
      | repaint => exact .inl fun c => h.undisturbed_repaint c hstep
      | move x y => exact .inl fun c => h.undisturbed_move c hstep
    | destroyResource r =>
      change s.destroyResource r = _ at hstep
      rw [destroyResource_dead hact] at hstep
      cases hstep
      exact .inl fun c => undisturbed_self c s
    | forget c' =>
      cases hstep
      unfold forget
      split
      · exact .inl fun c => ⟨fun _ _ => rfl, rfl, rfl, rfl, fun z hz _ hcb => ⟨z, hz, hcb⟩,
          fun e he => by cases he⟩
      · exact .inl fun c => undisturbed_self c s
    | teardown =>
      obtain ⟨_, hret, -⟩ := Exec.log_bind_eq_ok.mp hstep
      cases hret
      exact .inr ⟨rfl, rfl⟩
  · cases hstep
    exact .inl fun c => undisturbed_self c s

/-- **A step of others** disturbs no client. -/
theorem Separate.undisturbed_others (h : Separate cs s) {act : LifetimeAction}
    (hact : s.actor act ≠ some c) (hstep : s.lifetime blend act = ⟨ds, .ok t⟩)
    (hrun : t.running = true) : Undisturbed c s t ds := by
  cases hactor : s.actor act with
  | some c' =>
    exact (h.confined_lifetime hactor hstep).undisturbed fun hc => hact (hc ▸ hactor)
  | none =>
    refine (h.undisturbed_idle hactor hstep).resolve_right (fun hstopped => ?_) c
    rw [hstopped.2] at hrun
    cases hrun

/-! ## Every reached state -/

theorem Sealed.undisturbed (h : s.Sealed) (hstep : ∀ c, Undisturbed c s t ds) : t.Sealed := by
  intro z hz r hr
  have hof : z ∈ t.surfacesOf z.mClient := List.mem_filter.mpr ⟨hz, decide_eq_true rfl⟩
  have hheld : ∃ v ∈ s.surfacesOf z.mClient, r ∈ v.handles := by
    rcases Surface.mem_handles_still.mp hr with hstill | hcb
    · have hmem : z.still ∈ (s.surfacesOf z.mClient).map Surface.still :=
        (hstep z.mClient).surfaces ▸ List.mem_map_of_mem hof
      obtain ⟨v, hv, heq⟩ := List.mem_map.mp hmem
      exact ⟨v, hv, Surface.mem_handles_still.mpr (.inl (heq ▸ hstill))⟩
    · obtain ⟨v, hv, hvcb⟩ := (hstep z.mClient).waiting z hof r hcb
      exact ⟨v, hv, Surface.mem_handles_still.mpr (.inr hvcb)⟩
  obtain ⟨v, hv, hrv⟩ := hheld
  obtain ⟨hmem, hc⟩ := List.mem_filter.mp hv
  have hown : s.clientOf r = some z.mClient := of_decide_eq_true hc ▸ h v hmem r hrv
  rw [clientOf_eq ((hstep z.mClient).resources r (.inl hown)), hown]

theorem Separate.lifetime (h : Separate cs s) {act : LifetimeAction}
    (hstep : s.lifetime blend act = ⟨ds, .ok t⟩) : Separate (cs ++ ds) t := by
  refine ⟨h.owned.lifetime hstep, h.owned.accounted_lifetime h.accounted hstep, ?_⟩
  cases hact : s.actor act with
  | some c => exact h.apart.confined (h.confined_lifetime hact hstep)
  | none =>
    rcases h.undisturbed_idle hact hstep with hall | ⟨hnone, -⟩
    · exact h.apart.undisturbed hall
    · intro z hz
      rw [hnone] at hz
      cases hz

section Runs

variable {width height : Int} {as bs : List LifetimeAction}

theorem separate_start (width height : Int) : Separate [] (start width height) where
  owned := owned_start width height
  accounted _ _ hw := nomatch hw
  apart _ hz := nomatch hz

/-- **Clients are apart in every reached state.** -/
theorem reaches_separate (h : (lifetimeMachine blend width height).Reaches as cs s) :
    Separate cs s :=
  h.induct (P := fun _ cs s => Separate cs s) (separate_start width height)
    fun _ _ _ _ _ _ _ hs hstep => hs.lifetime hstep

/-- The clients whose actions those of a run are. -/
def actors (blend : Blend) (width height : Int) (s : Server) (bs : List LifetimeAction) :
    List WlClient :=
  (lifetimeMachine blend width height).traceFrom (fun s act => (s.actor act).toList) s bs

theorem running_runFrom (h : (lifetimeMachine blend width height).runFrom s bs = ⟨ds, .ok t⟩)
    (hrun : t.running = true) : s.running = true := by
  induction bs generalizing s ds with
  | nil =>
    cases h
    exact hrun
  | cons b bs ih =>
    obtain ⟨_, u, _, hu, hrest, -⟩ := Exec.bind_eq_ok.mp h
    exact running_lifetime hu (ih hrest)

/-- **A run disturbs no client that does nothing in it.** -/
theorem Separate.undisturbed_run (h : Separate cs s)
    (hrun : (lifetimeMachine blend width height).runFrom s bs = ⟨ds, .ok t⟩)
    (hrunning : t.running = true) (hquiet : c ∉ actors blend width height s bs) :
    Undisturbed c s t ds := by
  induction bs generalizing s cs ds with
  | nil =>
    cases hrun
    exact undisturbed_self c _
  | cons b bs ih =>
    obtain ⟨es, u, fs, hu, hrest, rfl⟩ := Exec.bind_eq_ok.mp hrun
    have hlive := running_runFrom hrest hrunning
    have hstep : s.lifetime blend b = ⟨es, .ok u⟩ := hu
    have hactors : actors blend width height s (b :: bs) =
        (s.actor b).toList ++ actors blend width height u bs := by
      unfold actors
      rw [Machine.traceFrom, hu]
    rw [hactors, List.mem_append, not_or] at hquiet
    refine (h.undisturbed_others (fun hact => hquiet.1 ?_) hstep hlive).trans
      (ih (h.lifetime hstep) hrest hquiet.2)
    rw [hact]
    exact List.mem_singleton_self c

end Runs

end Server

open Server

/-- **Clients are confined to what they have.** In every reached state, whatever a client asks of
the server, and whichever of its resources libwayland destroys: the resources, surfaces, regions and
pointers of all other clients stay exactly as they are, and every event sent is for a resource of
the client itself. -/
theorem clients_confined (blend : Blend) (width height : Int) (as : List LifetimeAction)
    (cs ds : List Call) (s t : Server) (act : LifetimeAction) (c : WlClient)
    (h : (lifetimeMachine blend width height).Reaches as cs s) (hc : s.actor act = some c)
    (hstep : s.lifetime blend act = ⟨ds, .ok t⟩) : Confined c s t ds :=
  (reaches_separate h).confined_lifetime hc hstep

/-- **A client that does nothing is left alone.** From every reached state on, as long as a client
sends no request and none of its resources is destroyed, whatever the other clients do, and however
often the timer repaints and the pointer moves: the client keeps its resources, its regions, its
pointers with their cursors, and its surfaces with their buffers, shown and pending. Only where its
surfaces are may change; and all it is sent are answers to callbacks that waited for a repaint. -/
theorem idle_client_undisturbed (blend : Blend) (width height : Int) (as bs : List LifetimeAction)
    (cs ds : List Call) (s t : Server) (c : WlClient)
    (h : (lifetimeMachine blend width height).Reaches as cs s)
    (hbs : (lifetimeMachine blend width height).runFrom s bs = ⟨ds, .ok t⟩)
    (hrunning : t.running = true) (hidle : c ∉ actors blend width height s bs) :
    Undisturbed c s t ds :=
  (reaches_separate h).undisturbed_run hbs hrunning hidle

/-- Two clients with a surface each. The first one shows a buffer, and waits for a repaint of
another one. -/
def twoClients : List LifetimeAction :=
  [.serve .connect, .serve .connect, .serve (.request (.bind 0 .compositor)),
    .serve (.request (.bind 1 .compositor)), .serve (.request (.createSurface 0)),
    .serve (.request (.createSurface 1)),
    .serve (.request (.createBuffer 0 (some ⟨1, 1, 4, .argb8888, [1, 2, 3, 4]⟩))),
    .serve (.request (.createBuffer 1 (some ⟨1, 1, 4, .argb8888, [5, 6, 7, 8]⟩))),
    .serve (.request (.surfaceAttach 2 (some 4) 0 0)), .serve (.request (.surfaceCommit 2)),
    .serve (.request (.surfaceFrame 2)), .serve (.request (.surfaceAttach 2 (some 4) 0 0)),
    .serve (.request (.surfaceCommit 2)), .serve (.request (.surfaceFrame 3)),
    .serve (.request (.surfaceAttach 3 (some 5) 0 0))]

/-- The second client commits. -/
theorem clients_confined_twoClients :
    ∃ cs s t, (lifetimeMachine integerBlend 1 1).Reaches twoClients cs s ∧
      s.lifetime integerBlend (.serve (.request (.surfaceCommit 3))) =
        ⟨[.callbackSendDone 7], .ok t⟩ ∧ Confined 1 s t [.callbackSendDone 7] :=
  ⟨_, _, _, rfl, rfl, clients_confined integerBlend 1 1 twoClients _ _ _ _
    (.serve (.request (.surfaceCommit 3))) 1 rfl rfl rfl⟩

/-- The second client commits and disconnects, and the timer repaints. -/
def secondLeaves : List LifetimeAction :=
  [.serve (.request (.surfaceCommit 3)), .destroyResource 3, .destroyResource 5,
    .serve .repaint, .destroyResource 1, .destroyResource 7, .forget 1]

theorem idle_client_undisturbed_secondLeaves :
    ∃ cs ds s t, (lifetimeMachine integerBlend 1 1).Reaches twoClients cs s ∧
      (lifetimeMachine integerBlend 1 1).runFrom s secondLeaves = ⟨ds, .ok t⟩ ∧
      wireEvents ds = [.done 7, .done 6] ∧ Undisturbed 0 s t ds :=
  ⟨_, _, _, _, rfl, rfl, rfl,
    idle_client_undisturbed integerBlend 1 1 twoClients secondLeaves _ _ _ _ 0 rfl rfl rfl
      (by decide)⟩

end WaylandTest
