import WaylandTest.Server.Belongings

/-!
# What clients do is confined to what they have

`confined_request` and `confined_destroyResource` are the two ways in which a client acts: it sends
a request, and libwayland destroys one of its resources. A handler checks the client of a second
handle in its arguments, or libwayland does, and the first one leads to a wrapper of the sender,
since a wrapper has one handle (`handle_unique`).
-/

set_option autoImplicit false

namespace WaylandTest

open Lib

namespace Server

variable {s t u : Server} {c c' : WlClient} {r r' : WlResource} {x : Resource}
  {ws : List (Wrapper × WlResource)} {cs ds es : List Call} {blend : Blend}

/-! ## Requests -/

/-- The client that sends the request: the one it is sent to the resource of. -/
def sender (s : Server) : ClientRequest → Option WlClient
  | .bind c _ => some c
  | .createSurface compositor => s.clientOf compositor
  | .createRegion compositor => s.clientOf compositor
  | .getShellSurface shell _ => s.clientOf shell
  | .getPointer seat => s.clientOf seat
  | .setCursor pointer _ _ _ => s.clientOf pointer
  | .surfaceDestroy surface => s.clientOf surface
  | .surfaceAttach surface _ _ _ => s.clientOf surface
  | .surfaceFrame surface => s.clientOf surface
  | .surfaceCommit surface => s.clientOf surface
  | .createBuffer c _ => some c
  | .destroyBuffer buffer => s.clientOf buffer

/-- What holds of every state: the hooks and the wrappers agree, each handle stands for a wrapper
that exists or was deleted, and surfaces hold their client's handles. -/
structure Separate (cs : List Call) (s : Server) : Prop where
  owned : Owned cs s
  accounted : Accounted cs s
  apart : s.Sealed

theorem silent_setCursor (pointer : WlResource) (surface : Option WlResource) (x y : Int) :
    (s.setCursor pointer surface x y).Silent := by
  have hq := handled_setCursor (s := s) pointer surface x y
  generalize s.setCursor pointer surface x y = out at hq ⊢
  cases hq <;> rfl

section Confined

variable (h : Separate cs s)

include h

/-- A wrapper has one handle. -/
theorem Separate.handle_unique {w : Wrapper} (hr : s.wraps r = some w) (hw : (w, r') ∈ s.wrappers) :
    r = r' := by
  have hlive := h.owned.ledger.not_gone (List.mem_map_of_mem (f := (·.1.address)) hw)
  have hsame : (w, r) ∈ s.wrappers := (h.accounted r w hr).resolve_right hlive
  exact congrArg Prod.snd (List.inj_on_of_nodup_map h.owned.nodup hsame hw rfl)

/-- The surface that a handle leads to is of the handle's client. -/
theorem Separate.client_of_wrapperAt {z : Surface} (hz : z ∈ s.surfaces)
    (hr : s.wrapperAt .surface r = some (z.this, c)) : z.mClient = c := by
  obtain rfl : r = z.mResource := h.handle_unique (wraps_of_wrapperAt hr) (wrapper_of_surface hz)
  have hown : s.clientOf z.mResource = some z.mClient :=
    h.apart z hz _ (by simp [Surface.handles, Surface.wrappers])
  exact Option.some.inj (hown.symm.trans (clientOf_of_wrapperAt hr))

theorem Separate.clientOf_region {p : WaylandRegion} (hp : p ∈ s.mCompositor.mRegions) :
    s.clientOf p.mResource ≠ none := by
  have hw : p.wrapper ∈ s.wrappers := by
    apply List.mem_append_left
    exact List.mem_append_right _ (List.mem_map_of_mem hp)
  exact clientOf_of_hook ((h.owned.hooks _ _).mp hw)

theorem Separate.hook_pointer {p : Pointer} (hp : p ∈ s.mPointerList) :
    s.hook p.mResource = some ⟨.pointer, p.this⟩ :=
  (h.owned.hooks _ _).mp (List.mem_append_right _ (List.mem_map_of_mem (f := Pointer.wrapper) hp))

theorem Separate.regionsOf_eq (ht : s.Touches c t) (hsame : t.mCompositor.mRegions =
    s.mCompositor.mRegions) : t.regionsOf c' = s.regionsOf c' := by
  unfold regionsOf
  rw [hsame]
  apply List.filter_congr
  intro p hp
  rw [ht.clientOf (h.clientOf_region hp)]

theorem Separate.pointersOf_eq (ht : s.Touches c t) (hsame : t.mPointerList = s.mPointerList) :
    t.pointersOf c' = s.pointersOf c' := by
  unfold pointersOf
  rw [hsame]
  apply List.filter_congr
  intro p hp
  rw [ht.clientOf (clientOf_of_hook (h.hook_pointer hp))]

/-- Only the resources change. -/
theorem Separate.confined_resources (ht : s.Touches c t) (hsame : t.surfaces = s.surfaces)
    (hregions : t.mCompositor.mRegions = s.mCompositor.mRegions)
    (hpointers : t.mPointerList = s.mPointerList) : Confined c s t [] where
  resources := ht
  surfaces c' _ := by
    unfold surfacesOf
    rw [hsame]
  regions c' _ := h.regionsOf_eq ht hregions
  pointers c' _ := h.pointersOf_eq ht hpointers
  own z hz hc r hr := by
    rw [hsame] at hz
    exact ht.keeps (hc ▸ h.apart z hz r hr)
  events e he := by cases he

theorem Separate.confined_self (c : WlClient) : Confined c s s [] :=
  h.confined_resources (touches_of_eq rfl) rfl rfl rfl

/-- The client's surface `z` is changed: it has the handles it had, and ones of its client. -/
theorem Separate.confined_update (hu : s.Touches c u) (hsame : u.mCompositor = s.mCompositor)
    (hpointers : u.mPointerList = s.mPointerList) {z : Surface} (hz : z ∈ s.surfaces)
    (hc : z.mClient = c) {f : Surface → Surface} (hf : ∀ y, (f y).mClient = y.mClient)
    (hhandles : ∀ r ∈ (f z).handles, r ∈ z.handles ∨ u.clientOf r = some c)
    (hds : ∀ e ∈ wireEvents ds, e.handle ∈ z.handles) :
    Confined c s (u.updateSurface z.this f) ds where
  resources := hu
  surfaces c' hne := by
    unfold surfacesOf
    rw [surfaces_updateSurface]
    unfold Server.surfaces
    rw [hsame]
    apply filter_map_same
    intro y hy
    by_cases hthis : y.this = z.this
    · obtain rfl : y = z := List.inj_on_of_nodup_map h.owned.nodup_surfaces hy hz hthis
      have hother : y.mClient ≠ c' := fun he => hne (he.symm.trans hc)
      simp [hf, hother]
    · simp [hthis]
  regions c' _ := by
    have hregions : u.mCompositor.mRegions = s.mCompositor.mRegions := by rw [hsame]
    exact h.regionsOf_eq hu hregions
  pointers c' _ := h.pointersOf_eq hu hpointers
  own y hy hyc r hr := by
    rw [surfaces_updateSurface] at hy
    unfold Server.surfaces at hy
    rw [hsame] at hy
    obtain ⟨v, hv, rfl⟩ := List.mem_map.mp hy
    by_cases hthis : v.this = z.this
    · obtain rfl : v = z := List.inj_on_of_nodup_map h.owned.nodup_surfaces hv hz hthis
      rw [if_pos rfl] at hr
      rcases hhandles r hr with hold | hnew
      · exact hu.keeps (hc ▸ h.apart v hv r hold)
      · exact hnew
    · rw [if_neg hthis] at hyc hr
      exact hu.keeps (hyc ▸ h.apart v hv r hr)
  events e he := hu.keeps (hc ▸ h.apart z hz _ (hds e he))

/-- The client's surface `z` performs an operation. -/
theorem Separate.confined_perform (hu : s.Touches c u) (hsame : u.mCompositor = s.mCompositor)
    (hpointers : u.mPointerList = s.mPointerList) {z : Surface} (hz : z ∈ s.surfaces)
    (hc : z.mClient = c) (shm : ShmTable) {op : SurfaceOp}
    (hop : ∀ r ∈ op.handles, u.clientOf r = some c) :
    Confined c s (u.updateSurface z.this fun y => (y.perform shm op).1) (z.perform shm op).2 := by
  refine h.confined_update hu hsame hpointers hz hc (fun y => ?_) (fun r hr => ?_) fun e he => ?_
  · exact Surface.mClient_of_identity (Surface.identity_perform op)
  · exact (Surface.handles_perform hr).imp_right (hop r)
  · exact Surface.events_perform he

theorem Separate.confined_surfaceCreated (c : WlClient) :
    Confined c s ((s.create .surface c).setSurfaces (s.mCompositor.mSurfacesList ++
        [some (Surface.construct s.nextAddress s.resources.length c (some .compositor))]))
      [.new ⟨.surface, s.nextAddress⟩ c] where
  resources := touches_create s .surface c
  surfaces c' hne := by
    show (contents (s.mCompositor.mSurfacesList ++ [some _])).filter _ = _
    rw [contents_append, List.filter_append]
    simp [surfacesOf, surfaces, Surface.construct, hne.symm]
  regions c' _ := h.regionsOf_eq (touches_create s .surface c) rfl
  pointers c' _ := h.pointersOf_eq (touches_create s .surface c) rfl
  own z hz hc r hr := by
    rcases List.mem_append.mp (mem_contents.mp hz) with hz | hz
    · exact (touches_create s .surface c).keeps (hc ▸ h.apart z (mem_contents.mpr hz) r hr)
    · cases List.mem_singleton.mp hz
      obtain rfl : r = s.resources.length := by
        simpa [Surface.handles, Surface.wrappers, SurfaceState.handles, Surface.construct] using hr
      exact clientOf_addResource.trans (if_pos rfl)
  events e he := by cases he

theorem Separate.confined_regionCreated (c : WlClient) :
    Confined c s { s.create .region c with
        mCompositor := { s.mCompositor with
          mRegions := s.mCompositor.mRegions ++ [⟨s.nextAddress, s.resources.length⟩] } }
      [.new ⟨.region, s.nextAddress⟩ c] where
  resources := touches_create s .region c
  surfaces _ _ := rfl
  regions c' hne := by
    have hnew : (s.create .region c).clientOf s.resources.length = some c :=
      clientOf_addResource.trans (if_pos rfl)
    have hold : (s.create .region c).regionsOf c' = s.regionsOf c' :=
      h.regionsOf_eq (touches_create s .region c) rfl
    show (s.mCompositor.mRegions ++ [_]).filter
      (fun p : WaylandRegion => (s.create .region c).clientOf p.mResource = some c') = _
    rw [List.filter_append]
    refine (congrArg₂ (· ++ ·) hold ?_).trans (List.append_nil _)
    simp [hnew, hne.symm]
  pointers c' _ := h.pointersOf_eq (touches_create s .region c) rfl
  own z hz hc r hr := (touches_create s .region c).keeps (hc ▸ h.apart z hz r hr)
  events e he := by cases he

theorem Separate.confined_pointerCreated (c : WlClient) :
    Confined c s { s.create .pointer c with
        mPointerList :=
          s.mPointerList ++ [{ this := s.nextAddress, mResource := s.resources.length }] }
      [.new ⟨.pointer, s.nextAddress⟩ c] where
  resources := touches_create s .pointer c
  surfaces _ _ := rfl
  regions c' _ := h.regionsOf_eq (touches_create s .pointer c) rfl
  pointers c' hne := by
    have hnew : (s.create .pointer c).clientOf s.resources.length = some c :=
      clientOf_addResource.trans (if_pos rfl)
    have hold : (s.create .pointer c).pointersOf c' = s.pointersOf c' :=
      h.pointersOf_eq (touches_create s .pointer c) rfl
    show (s.mPointerList ++ [_]).filter
      (fun p : Pointer => (s.create .pointer c).clientOf p.mResource = some c') = _
    rw [List.filter_append]
    refine (congrArg₂ (· ++ ·) hold ?_).trans (List.append_nil _)
    simp [hnew, hne.symm]
  own z hz hc r hr := (touches_create s .pointer c).keeps (hc ▸ h.apart z hz r hr)
  events e he := by cases he

/-- The shell surface that is replaced is the client's. -/
theorem Separate.confined_setShellSurface {z : Surface} (hz : z ∈ s.surfaces)
    (hc : z.mClient = c) (hstep : s.setShellSurface z c = ⟨ds, .ok t⟩) : Confined c s t ds := by
  unfold setShellSurface at hstep
  rw [Exec.log_bind_pure] at hstep
  cases hstep
  have hnew := touches_create s .shellSurface c
  have hgone : ∀ w ∈ z.mShellSurface.toList.map ShellSurface.wrapper,
      (s.create .shellSurface c).clientOf w.2 = some c := by
    intro w hw
    refine hnew.keeps (hc ▸ h.apart z hz w.2 ?_)
    exact List.mem_append_left _ (List.mem_append_left _
      (List.mem_map_of_mem (List.mem_append_left _ hw)))
  have hu := hnew.trans (touches_disarm hgone)
  refine h.confined_update hu rfl rfl hz hc (fun _ => rfl) (fun r hr => ?_) fun e he => ?_
  · have hmade : ((s.create .shellSurface c).disarm
        (z.mShellSurface.toList.map ShellSurface.wrapper)).clientOf s.resources.length = some c :=
      (touches_disarm hgone).keeps (clientOf_addResource.trans (if_pos rfl))
    simp only [Surface.handles, Surface.wrappers, Option.toList_some, List.map_cons, List.map_nil,
      List.map_append, List.mem_append, List.mem_singleton] at hr ⊢
    rcases hr with ((rfl | hr) | hr) | hr
    · exact .inr hmade
    · exact .inl (.inl (.inl (.inr hr)))
    · exact .inl (.inl (.inr hr))
    · exact .inl (.inr hr)
  · have hsilent :
        wireEvents (deleteCalls (z.mShellSurface.toList.map ShellSurface.wrapper)) = [] :=
      wireEvents_deleteCalls _
    change e ∈ wireEvents (deleteCalls _) at he
    rw [hsilent] at he
    cases he

/-- A client sets the cursors of its own pointers. -/
theorem Separate.confined_withCursor {p a : Address} {x y : Int}
    (hr : s.wrapperAt .pointer r = some (p, c)) : Confined c s (s.withCursor p a x y) [] where
  resources := touches_of_eq rfl
  surfaces _ _ := rfl
  regions _ _ := rfl
  pointers c' hne := by
    refine filter_map_same fun z hz => ?_
    by_cases hthis : z.this = p
    · have hw : (⟨.pointer, z.this⟩, z.mResource) ∈ s.wrappers :=
        (h.owned.hooks _ _).mpr (h.hook_pointer hz)
      have hsame : r = z.mResource :=
        h.handle_unique (wraps_of_wrapperAt hr) (hthis ▸ hw)
      have hmine : s.clientOf z.mResource = some c := hsame ▸ clientOf_of_wrapperAt hr
      have hkept : (s.withCursor p a x y).clientOf z.mResource = some c := hmine
      right
      simp [hthis, hkept, hne.symm]
    · exact .inl (if_neg hthis)
  own z hz hc r hr := hc ▸ h.apart z hz r hr
  events e he := by cases he

/-- A request on a surface is dropped, or its handler gets a surface of the sender. -/
theorem Separate.onSurface_cases {handler : Surface → WlClient → Exec Call Fault Server}
    (hc : s.clientOf r = some c) (hstep : s.onSurface r handler = ⟨ds, .ok t⟩) :
    ds = [] ∧ t = s ∨ ∃ z ∈ s.surfaces, z.mClient = c ∧ handler z c = ⟨ds, .ok t⟩ := by
  rcases Server.onSurface_cases hstep with ⟨-, rfl, rfl⟩ | ⟨z, c', hz, hr, hdo⟩
  · exact .inl ⟨rfl, rfl⟩
  · obtain rfl : c' = c := Option.some.inj ((clientOf_of_wrapperAt hr).symm.trans hc)
    exact .inr ⟨z, hz, h.client_of_wrapperAt hz hr, hdo⟩

theorem Separate.confined_surfaceCommit (hc : s.clientOf r = some c)
    (hstep : s.surfaceCommit r = ⟨ds, .ok t⟩) : Confined c s t ds := by
  rcases h.onSurface_cases hc hstep with ⟨rfl, rfl⟩ | ⟨z, hz, hmine, hdo⟩
  · exact h.confined_self c
  · rw [performOn_eq] at hdo
    cases hdo
    exact h.confined_perform (touches_of_eq rfl) rfl rfl hz hmine _ fun r hr => by cases hr

/-- libwayland has seen to it that the buffer is the sender's. -/
theorem Separate.confined_surfaceAttach (hc : s.clientOf r = some c) {b : Option WlResource}
    {x y : Int} (hstep : s.surfaceAttach r b x y = ⟨ds, .ok t⟩) : Confined c s t ds := by
  rcases h.onSurface_cases hc hstep with ⟨rfl, rfl⟩ | ⟨z, hz, hmine, hdo⟩
  · exact h.confined_self c
  · by_cases hb : b.all (s.hasBuffer c) = true
    · rw [if_pos hb, performOn_eq] at hdo
      cases hdo
      refine h.confined_perform (touches_of_eq rfl) rfl rfl hz hmine _ fun r hr => ?_
      obtain rfl : b = some r := Option.mem_toList.mp hr
      exact clientOf_of_hasBuffer hb
    · rw [if_neg hb] at hdo
      cases hdo
      exact h.confined_self c

/-- The callback is a new resource of the sender. -/
theorem Separate.confined_surfaceFrame (hc : s.clientOf r = some c)
    (hstep : s.surfaceFrame r = ⟨ds, .ok t⟩) : Confined c s t ds := by
  rcases h.onSurface_cases hc hstep with ⟨rfl, rfl⟩ | ⟨z, hz, hmine, hdo⟩
  · exact h.confined_self c
  · rw [performOn_eq] at hdo
    cases hdo
    have hu : s.Touches c (s.addResource { client := c, userData := .null }) :=
      touches_addResource s _
    refine h.confined_perform hu rfl rfl hz hmine _ fun r hr => ?_
    obtain rfl : r = s.resources.length := List.mem_singleton.mp hr
    exact clientOf_addResource.trans (if_pos rfl)

theorem Separate.confined_getShellSurface {shell : WlResource} (hc : s.clientOf shell = some c)
    (hstep : s.getShellSurface shell r = ⟨ds, .ok t⟩) : Confined c s t ds := by
  unfold getShellSurface at hstep
  cases hb : s.bindingAt .shell shell with
  | none =>
    rw [hb] at hstep
    cases hstep
    exact h.confined_self c
  | some c' =>
    rw [hb] at hstep
    obtain rfl : c' = c := Option.some.inj ((clientOf_of_bindingAt hb).symm.trans hc)
    rcases Server.onSurface_cases hstep with ⟨-, rfl, rfl⟩ | ⟨z, c'', hz, hr, hdo⟩
    · exact h.confined_self c'
    · by_cases hsame : c'' = c'
      · rw [if_pos hsame] at hdo
        exact h.confined_setShellSurface hz (hsame ▸ h.client_of_wrapperAt hz hr) hdo
      · rw [if_neg hsame] at hdo
        cases hdo
        exact h.confined_self c'

/-- **What a request does is its sender's business.** -/
theorem Separate.confined_request {q : ClientRequest} (hc : s.sender q = some c)
    (hstep : s.request q = ⟨ds, .ok t⟩) : Confined c s t ds := by
  cases q with
  | surfaceDestroy r =>
    rcases h.onSurface_cases hc hstep with ⟨rfl, rfl⟩ | ⟨z, -, -, hdo⟩
    · exact h.confined_self c
    · cases hdo
      exact h.confined_self c
  | surfaceCommit r => exact h.confined_surfaceCommit hc hstep
  | surfaceAttach r b x y => exact h.confined_surfaceAttach hc hstep
  | surfaceFrame r => exact h.confined_surfaceFrame hc hstep
  | getShellSurface shell r => exact h.confined_getShellSurface hc hstep
  | setCursor pointer surface x y =>
    obtain rfl : ds = [] := (congrArg Exec.calls hstep).symm.trans (silent_setCursor _ _ _ _)
    rcases setCursor_ok hstep with ⟨rfl, -⟩ | ⟨p, a, hg, rfl⟩
    · exact h.confined_self c
    · obtain ⟨r, c', rfl, hp, -⟩ := givesCursor_setCursor.mp hg
      obtain rfl : c' = c := Option.some.inj ((clientOf_of_wrapperAt hp).symm.trans hc)
      exact h.confined_withCursor hp
  | bind c' g =>
    cases hc
    have hq : Handled s _ ⟨ds, .ok t⟩ := .eq hstep
    cases hq with
    | ignored => exact h.confined_self c
    | bound g _ => exact h.confined_resources (touches_addResource s _) rfl rfl rfl
  | createBuffer c' b =>
    cases hc
    have hq : Handled s _ ⟨ds, .ok t⟩ := .eq hstep
    cases hq with
    | ignored => exact h.confined_self c
    | bufferCreated b _ => exact h.confined_resources (touches_addResource s _) rfl rfl rfl
  | createSurface r =>
    have hq : Handled s _ ⟨ds, .ok t⟩ := .eq hstep
    cases hq with
    | ignored => exact h.confined_self c
    | surfaceCreated hr =>
      obtain rfl := Option.some.inj ((clientOf_of_bindingAt hr).symm.trans hc)
      exact h.confined_surfaceCreated _
  | createRegion r =>
    have hq : Handled s _ ⟨ds, .ok t⟩ := .eq hstep
    cases hq with
    | ignored => exact h.confined_self c
    | regionCreated hr =>
      obtain rfl := Option.some.inj ((clientOf_of_bindingAt hr).symm.trans hc)
      exact h.confined_regionCreated _
  | getPointer r =>
    have hq : Handled s _ ⟨ds, .ok t⟩ := .eq hstep
    cases hq with
    | ignored => exact h.confined_self c
    | pointerCreated hr =>
      obtain rfl := Option.some.inj ((clientOf_of_bindingAt hr).symm.trans hc)
      exact h.confined_pointerCreated _
  | destroyBuffer r =>
    have hq : Handled s _ ⟨ds, .ok t⟩ := .eq hstep
    cases hq with
    | ignored => exact h.confined_self c
    | bufferDestroyed _ => exact h.confined_resources (touches_bury hc) rfl rfl rfl

/-! ## Destroyed resources -/

/-- Surfaces of the client are deleted. -/
theorem Separate.confined_remove {ps : List (Option Surface)}
    (hothers : ∀ c', c' ≠ c → (contents ps).filter (·.mClient = c') = s.surfacesOf c')
    (hsub : ∀ z ∈ contents ps, z ∈ s.surfaces) (hgone : ∀ w ∈ ws, s.clientOf w.2 = some c) :
    Confined c s ((s.setSurfaces ps).disarm ws) (deleteCalls ws) := by
  have hu : s.Touches c ((s.setSurfaces ps).disarm ws) := fun r => touches_disarm hgone r
  refine ⟨hu, hothers, fun c' _ => h.regionsOf_eq hu rfl, fun c' _ => h.pointersOf_eq hu rfl, ?_,
    ?_⟩
  · exact fun z hz hc r hr => hu.keeps (hc ▸ h.apart z (hsub z hz) r hr)
  · intro e he
    rw [wireEvents_deleteCalls] at he
    cases he

/-- The wrappers of a client's surfaces have handles of the client. -/
theorem Separate.clientOf_wrappers {gone : List Surface}
    (hgone : ∀ z ∈ gone, z ∈ s.surfaces ∧ z.mClient = c) :
    ∀ w ∈ gone.flatMap Surface.wrappers, s.clientOf w.2 = some c := by
  intro w hw
  obtain ⟨z, hz, hwz⟩ := List.mem_flatMap.mp hw
  obtain ⟨hmem, rfl⟩ := hgone z hz
  apply h.apart z hmem
  exact List.mem_append_left _ (List.mem_append_left _ (List.mem_map_of_mem hwz))

/-- The hook of a surface's resource deletes that surface. -/
theorem Separate.confined_notify {w : Wrapper} (hr : s.hook r = some w) (hk : w.kind = .surface)
    (hc : s.clientOf r = some c) (hstep : s.notify w.address = ⟨ds, .ok t⟩) :
    Confined c s t ds := by
  rw [notify_eq] at hstep
  cases hstep
  obtain ⟨x, hx, hthis, hres⟩ := surface_of_wrapper ((h.owned.hooks w r).mpr hr) hk
  have hown : s.clientOf x.mResource = some x.mClient :=
    h.apart x hx _ (by simp [Surface.handles, Surface.wrappers])
  have hmine : ∀ z ∈ s.surfaces, z.this = w.address → z.mClient = c := by
    intro z hz hza
    obtain rfl : z = x :=
      List.inj_on_of_nodup_map h.owned.nodup_surfaces hz hx (hza.trans hthis.symm)
    exact Option.some.inj (hown.symm.trans (hres ▸ hc))
  refine h.confined_remove (fun c' hne => ?_) (fun z hz => ?_) (h.clientOf_wrappers fun z hz => ?_)
  · rw [contents_filter]
    unfold surfacesOf
    rw [List.filter_filter]
    apply List.filter_congr
    intro z hz
    by_cases hza : z.this = w.address
    · have hother : z.mClient ≠ c' := fun he => hne (he.symm.trans (hmine z hz hza))
      simp [hother]
    · simp [holds, hza]
  · rw [contents_filter] at hz
    exact List.mem_of_mem_filter hz
  · rw [contents_filter] at hz
    obtain ⟨hmem, hheld⟩ := List.mem_filter.mp hz
    exact ⟨hmem, hmine z hmem (by simpa [holds] using hheld)⟩

/-- A sweep for a client deletes surfaces of that client. -/
theorem Separate.confined_clientDisconnects (hstep : s.clientDisconnects c = ⟨ds, .ok t⟩) :
    Confined c s t ds := by
  obtain ⟨gone, rest, -, hgone, rfl, rfl⟩ := clientDisconnects_ok hstep
  have hmine : ∀ z ∈ gone ++ contents rest, z ∈ s.surfaces ∧ z.mClient = c := by
    intro z hz
    rw [hgone, contents_filter] at hz
    obtain ⟨hmem, howned⟩ := List.mem_filter.mp hz
    exact ⟨hmem, (of_decide_eq_true howned).symm⟩
  refine h.confined_remove (fun c' hne => ?_) (fun z hz => ?_)
    (h.clientOf_wrappers fun z hz => hmine z (List.mem_append_left _ hz))
  · have hrest : (contents rest).filter (·.mClient = c') = [] := by
      apply List.filter_eq_nil_iff.mpr
      intro z hz
      have hzc := (hmine z (List.mem_append_right _ hz)).2
      simp [hzc, hne.symm]
    rw [contents_append, List.filter_append, hrest, List.append_nil, contents_filter,
      List.filter_filter]
    apply List.filter_congr
    intro z hz
    by_cases hzc : z.mClient = c'
    · simp [ownedBy, hzc, hne.symm]
    · simp [hzc]
  · rw [contents_append] at hz
    rcases List.mem_append.mp hz with hz | hz
    · rw [contents_filter] at hz
      exact List.mem_of_mem_filter hz
    · exact (hmine z (List.mem_append_right _ hz)).1

omit h in
theorem Confined.bury (hstep : Confined c s t ds) (hr : t.clientOf r = some c) :
    Confined c s (t.bury r) ds where
  resources := hstep.resources.trans (touches_bury hr)
  surfaces := hstep.surfaces
  regions c' hne := by
    rw [← hstep.regions c' hne]
    simp only [regionsOf, clientOf_bury]
    rfl
  pointers c' hne := by
    rw [← hstep.pointers c' hne]
    simp only [pointersOf, clientOf_bury]
    rfl
  own z hz hc r' hr' := clientOf_bury.trans (hstep.own z hz hc r' hr')
  events e he := clientOf_bury.trans (hstep.events e he)

/-- **What the destruction of a resource does is its client's business.** -/
theorem Separate.confined_destroyResource (hc : s.clientOf r = some c)
    (hstep : s.destroyResource r = ⟨ds, .ok t⟩) : Confined c s t ds := by
  unfold destroyResource at hstep
  cases hr : s.resource? r with
  | none =>
    rw [hr] at hstep
    cases hstep
    exact h.confined_self c
  | some x =>
    rw [hr] at hstep
    obtain ⟨ds', u, _, hrun, hret, rfl⟩ := Exec.bind_eq_ok.mp hstep
    cases hret
    rw [List.append_nil]
    obtain rfl : x.client = c := Option.some.inj ((clientOf_of_resource? hr).symm.trans hc)
    have hdone : Confined x.client s u ds' := by
      rcases runDestructor_eq s x with ⟨w, hw, heq⟩ | ⟨-, heq⟩ | ⟨-, -, heq⟩
      · have hhook : s.hook r = some w := (hook_of_resource? hr).trans hw
        rcases hookDestroy_cases h.owned.listens (heq.symm.trans hrun) with
          ⟨-, rfl, rfl⟩ | ⟨hk, hnotify⟩ | ⟨-, -, rfl, rfl⟩
        · exact h.confined_self x.client
        · exact h.confined_notify hhook hk hc hnotify
        · exact h.confined_self x.client
      · cases heq.symm.trans hrun
        exact h.confined_self x.client
      · exact h.confined_clientDisconnects (heq.symm.trans hrun)
    exact hdone.bury (hdone.resources.keeps hc)

end Confined

/-! ## Runs -/

/-- A request that is sent to no resource is dropped. -/
theorem request_unsent {q : ClientRequest} (hq : s.sender q = none) :
    s.request q = ⟨[], .ok s⟩ := by
  have hwrapper : ∀ {kind r}, s.clientOf r = none → s.wrapperAt kind r = none := by
    intro kind r hr
    by_contra hne
    obtain ⟨⟨a, c⟩, h⟩ := Option.ne_none_iff_exists'.mp hne
    cases (clientOf_of_wrapperAt h).symm.trans hr
  have hbinding : ∀ {g r}, s.clientOf r = none → s.bindingAt g r = none := by
    intro g r hr
    by_contra hne
    obtain ⟨c, h⟩ := Option.ne_none_iff_exists'.mp hne
    cases (clientOf_of_bindingAt h).symm.trans hr
  have hdropped : ∀ {r} {handler : Surface → WlClient → Exec Call Fault Server},
      s.clientOf r = none → s.onSurface r handler = ⟨[], .ok s⟩ := by
    intro r handler hr
    rw [onSurface, hwrapper hr]
    rfl
  cases q with
  | bind c g => cases hq
  | createBuffer c b => cases hq
  | createSurface r =>
    show s.createSurface r = _
    rw [createSurface, hbinding hq]
    rfl
  | createRegion r =>
    show s.createRegion r = _
    rw [createRegion, hbinding hq]
    rfl
  | getShellSurface shell r =>
    show s.getShellSurface shell r = _
    rw [getShellSurface, hbinding hq]
    rfl
  | getPointer r =>
    show s.getPointer r = _
    rw [getPointer, hbinding hq]
    rfl
  | setCursor pointer surface x y =>
    have hp : s.wrapperAt .pointer pointer = none := hwrapper hq
    show s.setCursor pointer surface x y = _
    simp only [setCursor, hp]
    rfl
  | surfaceDestroy r => exact hdropped hq
  | surfaceAttach r b x y => exact hdropped hq
  | surfaceFrame r => exact hdropped hq
  | surfaceCommit r => exact hdropped hq
  | destroyBuffer r =>
    have hnone : s.resource? r = none := by
      by_contra hne
      obtain ⟨x, h⟩ := Option.ne_none_iff_exists'.mp hne
      cases (clientOf_of_resource? h).symm.trans hq
    show pure (s.destroyBuffer r) = _
    rw [destroyBuffer, hnone]
    rfl

/-- The client whose action it is. Repaints, motions and the like are no client's. -/
def actor (s : Server) : LifetimeAction → Option WlClient
  | .serve (.request q) => s.sender q
  | .destroyResource r => s.clientOf r
  | _ => none

/-- **What a client does is its own business.** -/
theorem Separate.confined_lifetime (h : Separate cs s) {act : LifetimeAction}
    (hc : s.actor act = some c) (hstep : s.lifetime blend act = ⟨ds, .ok t⟩) :
    Confined c s t ds := by
  unfold Server.lifetime at hstep
  split at hstep
  · cases act with
    | serve a =>
      cases a with
      | request q => exact h.confined_request hc hstep
      | connect => cases hc
      | repaint => cases hc
      | move x y => cases hc
    | destroyResource r => exact h.confined_destroyResource hc hstep
    | forget c' => cases hc
    | teardown => cases hc
  · cases hstep
    exact h.confined_self c

end Server

end WaylandTest
