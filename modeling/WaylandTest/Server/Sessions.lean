import WaylandTest.Server.Lifetimes

/-!
# The list of the surfaces over whole sessions

Clients connect, bind `wl_compositor`, create surfaces and disconnect. On a disconnect libwayland
destroys all the client's resources, in some order. A surface's resource erases the surface from
`mSurfacesList`; a binding sweeps the list with `remove_if` and erases nothing, so the moves of the
sweep leave null entries behind, which the next sweep or layout reads.

`list_intact_iff` says exactly which runs keep the list intact: those in which, at each disconnect,
the client's surfaces are the last ones of the list by the time its first binding is destroyed.
Then the sweep moves nothing, and each surface goes with its own resource.
-/

set_option autoImplicit false

namespace WaylandTest

open Lib

/-- The surfaces the calls create, with their clients, in order. -/
def createdSurfaces (cs : List Call) : List (Address × WlClient) :=
  cs.filterMap fun
    | .new ⟨.surface, a⟩ c => some (a, c)
    | _ => none

@[simp] theorem createdSurfaces_append (cs ds : List Call) :
    createdSurfaces (cs ++ ds) = createdSurfaces cs ++ createdSurfaces ds := List.filterMap_append

theorem createdSurfaces_deleteCalls (ws : List (Wrapper × WlResource)) :
    createdSurfaces (deleteCalls ws) = [] := by
  induction ws with
  | nil => rfl
  | cons w ws ih => exact ih

/-- The entry is no surface of one of the resources. -/
def spared (rs : List WlResource) (p : Option Surface) : Bool := p.all (·.mResource ∉ rs)

theorem filter_spared_cons (r : WlResource) (rs : List WlResource) (ps : List (Option Surface)) :
    (ps.filter (spared [r])).filter (spared rs) = ps.filter (spared (r :: rs)) := by
  rw [List.filter_filter]
  apply List.filter_congr
  intro p _
  cases p with
  | none => rfl
  | some x =>
    by_cases hr : x.mResource = r
    · simp [spared, hr]
    · simp [spared, hr]

namespace Server

variable {s t u : Server} {r : WlResource} {rs order : List WlResource} {c : WlClient}
  {cs ds es : List Call}

/-! ## What a destruction leaves alone -/

/-- The resources `rs` were destroyed with the calls `ds`: the other handles stand for what they
did, and no client and no surface is new. -/
structure Freed (s t : Server) (rs : List WlResource) (ds : List Call) : Prop where
  info : ∀ r, t.info r = if r ∈ rs then none else s.info r
  clients : t.clients = s.clients
  nextClient : t.nextClient = s.nextClient
  created : createdSurfaces ds = []

theorem Freed.nil (s : Server) : Freed s s [] [] := ⟨fun _ => rfl, rfl, rfl, rfl⟩

theorem Freed.cons (h : Freed s t [r] ds) (h' : Freed t u rs es) :
    Freed s u (r :: rs) (ds ++ es) where
  info r' := by
    rw [h'.info, h.info]
    by_cases hr : r' = r
    · simp [hr]
    · simp [hr]
  clients := h'.clients.trans h.clients
  nextClient := h'.nextClient.trans h.nextClient
  created := by rw [createdSurfaces_append, h.created, h'.created, List.nil_append]

/-- A hook does nothing, or it has the compositor erase a surface. -/
theorem hookDestroy_ok {w : Wrapper} (h : s.hookDestroy w = ⟨ds, .ok t⟩) :
    (ds = [] ∧ t = s) ∨ s.notify w.address = ⟨ds, .ok t⟩ := by
  obtain ⟨_, -, h⟩ := (Exec.silent_guard _ _).bind_eq_ok.mp h
  split at h
  · split at h
    · cases h
      exact .inl ⟨rfl, rfl⟩
    · exact .inr h
  · cases h
    exact .inl ⟨rfl, rfl⟩

/-- Some of the surfaces that exist are left, and some of the wrappers are deleted. -/
theorem runDestructor_ok {x : Resource} (hrun : s.runDestructor x = ⟨ds, .ok u⟩) :
    ∃ ps ws, u = (s.setSurfaces ps).disarm ws ∧ ds = deleteCalls ws ∧
      (∀ x ∈ contents ps, x ∈ s.surfaces) ∧ ∀ w ∈ ws, w ∈ s.wrappers := by
  have hsame : ∃ ps ws, s = (s.setSurfaces ps).disarm ws ∧ [] = deleteCalls ws ∧
      (∀ x ∈ contents ps, x ∈ s.surfaces) ∧ ∀ w ∈ ws, w ∈ s.wrappers :=
    ⟨s.mCompositor.mSurfacesList, [], rfl, rfl, fun _ hx => hx, fun _ hw => nomatch hw⟩
  have hsurface : ∀ {ss : List Surface}, (∀ x ∈ ss, x ∈ s.surfaces) →
      ∀ w ∈ ss.flatMap Surface.wrappers, w ∈ s.wrappers := by
    intro ss hss w hw
    obtain ⟨x, hx, hwx⟩ := List.mem_flatMap.mp hw
    exact List.mem_append_left _ (List.mem_append_left _
      (List.mem_flatMap.mpr ⟨x, hss x hx, hwx⟩))
  have hfilter : ∀ q, ∀ x ∈ contents (s.mCompositor.mSurfacesList.filter q), x ∈ s.surfaces :=
    fun q x hx => mem_contents.mpr (List.mem_of_mem_filter (mem_contents.mp hx))
  rcases runDestructor_eq s x with ⟨w, -, heq⟩ | ⟨-, heq⟩ | ⟨-, -, heq⟩
  · rcases hookDestroy_ok (heq.symm.trans hrun) with ⟨rfl, rfl⟩ | hnotify
    · exact hsame
    · rw [notify_eq] at hnotify
      cases hnotify
      exact ⟨_, _, rfl, rfl, hfilter _, hsurface (hfilter _)⟩
  · cases heq.symm.trans hrun
    exact hsame
  · obtain ⟨gone, rest, -, hgone, rfl, rfl⟩ := clientDisconnects_ok (heq.symm.trans hrun)
    have howned : ∀ x ∈ gone ++ contents rest, x ∈ s.surfaces := hgone ▸ hfilter _
    refine ⟨_, _, rfl, rfl, fun x hx => ?_, hsurface fun x hx =>
      howned x (List.mem_append_left _ hx)⟩
    rw [contents_append] at hx
    rcases List.mem_append.mp hx with hx | hx
    · exact hfilter _ x hx
    · exact howned x (List.mem_append_right gone hx)

theorem destroyResource_ok (hd : s.destroyResource r = ⟨ds, .ok t⟩) :
    (s.live r = false ∧ ds = [] ∧ t = s) ∨
      ∃ ps ws, t = ((s.setSurfaces ps).disarm ws).bury r ∧ ds = deleteCalls ws ∧
        (∀ x ∈ contents ps, x ∈ s.surfaces) ∧ ∀ w ∈ ws, w ∈ s.wrappers := by
  rw [destroyResource] at hd
  cases hr : s.resource? r with
  | none =>
    rw [hr] at hd
    cases hd
    exact .inl ⟨not_live_of_resource? hr, rfl, rfl⟩
  | some x =>
    rw [hr] at hd
    obtain ⟨_, u, _, hrun, hret, rfl⟩ := Exec.bind_eq_ok.mp hd
    cases hret
    obtain ⟨ps, ws, rfl, rfl, hps, hws⟩ := runDestructor_ok hrun
    exact .inr ⟨ps, ws, rfl, List.append_nil _, hps, hws⟩

theorem freed_destroyResource (hd : s.destroyResource r = ⟨ds, .ok t⟩) :
    Freed s t [r] ds := by
  rcases destroyResource_ok hd with ⟨hdead, rfl, rfl⟩ | ⟨ps, ws, rfl, rfl, -, -⟩
  · refine ⟨fun r' => ?_, rfl, rfl, rfl⟩
    by_cases hr' : r' = r
    · rw [if_pos (List.mem_singleton.mpr hr'), hr']
      rw [live_def] at hdead
      exact Option.not_isSome_iff_eq_none.mp (Bool.eq_false_iff.mp hdead)
    · rw [if_neg (fun hmem => hr' (List.mem_singleton.mp hmem))]
  · refine ⟨fun r' => ?_, rfl, rfl, createdSurfaces_deleteCalls ws⟩
    rw [info_bury, info_disarm]
    by_cases hr' : r' = r
    · rw [if_pos hr', if_pos (List.mem_singleton.mpr hr')]
    · rw [if_neg hr', if_neg (fun hmem => hr' (List.mem_singleton.mp hmem))]
      rfl

/-! ## One destruction -/

theorem filter_spared_self (h : ∀ x ∈ s.surfaces, x.mResource ≠ r) :
    s.mCompositor.mSurfacesList.filter (spared [r]) = s.mCompositor.mSurfacesList := by
  apply List.filter_eq_self.mpr
  intro p hp
  cases p with
  | none => rfl
  | some x =>
    have hx : x.mResource ≠ r := h x (mem_contents.mpr hp)
    simp [spared, hx]

/-- The surface of a wrapper is the one with its handle. -/
theorem Owned.this_iff (h : Owned cs s) {w : Wrapper} (hhook : s.hook r = some w)
    (hkind : w.kind = .surface) {x : Surface} (hx : x ∈ s.surfaces) :
    x.this = w.address ↔ x.mResource = r := by
  have hw : (w, r) ∈ s.wrappers := (h.hooks w r).mpr hhook
  constructor
  · intro he
    have hxw : w = ⟨.surface, x.this⟩ := by
      rw [he, ← hkind]
    have hsame := List.inj_on_of_nodup_map h.nodup (wrapper_of_surface hx) hw
      (congrArg Wrapper.address hxw.symm)
    exact (Prod.mk.inj hsame).2
  · intro he
    have hxw := h.hook_surface hx
    rw [he, hhook] at hxw
    exact congrArg Wrapper.address (Option.some.inj hxw).symm

/-- With its surface's resource, the compositor erases the surface. -/
theorem Owned.destroy_surface (h : Owned cs s) {w : Wrapper} (hlive : s.live r = true)
    (hhook : s.hook r = some w) (hkind : w.kind = .surface) :
    ∃ t, s.destroyResource r =
        ⟨deleteCalls ((s.surfaces.filter (·.mResource = r)).flatMap Surface.wrappers), .ok t⟩ ∧
      t.mCompositor.mSurfacesList = s.mCompositor.mSurfacesList.filter (spared [r]) := by
  have hw : (w, r) ∈ s.wrappers := (h.hooks w r).mpr hhook
  obtain ⟨y, hy, hthis, hres⟩ := surface_of_wrapper hw hkind
  obtain ⟨x, hx⟩ := exists_surface? hy hthis
  have hlisten := h.listens x (List.mem_of_find?_eq_some hx)
  have hfound : w ∈ s.wrappers.map (·.1) := List.mem_map_of_mem hw
  have hdestroy : s.hookDestroy w = s.notify w.address := by
    rw [hookDestroy, Exec.guard, if_pos hfound, hkind, hx, Option.bind_some, hlisten]
    rfl
  have hgone : contents (s.mCompositor.mSurfacesList.filter (holds w.address)) =
      s.surfaces.filter (·.mResource = r) := by
    rw [contents_filter]
    refine List.filter_congr fun x hx => ?_
    exact decide_eq_decide.mpr (h.this_iff hhook hkind hx)
  rw [destroyResource_hook hlive hhook, hdestroy, notify_eq, hgone, Exec.ok_bind]
  simp only [Exec.pure_def, List.append_nil]
  refine ⟨_, rfl, ?_⟩
  apply List.filter_congr
  intro p hp
  cases p with
  | none => rfl
  | some x =>
    have hiff := h.this_iff hhook hkind (mem_contents.mpr hp)
    simp [holds, spared, hiff]

/-- A resource that is no binding of the compositor takes its surface with it, if it has one. -/
theorem Owned.destroy_other (h : Owned cs s) (hlive : s.live r = true)
    (hb : s.bindingAt .compositor r = none) :
    ∃ t, s.destroyResource r =
        ⟨deleteCalls ((s.surfaces.filter (·.mResource = r)).flatMap Surface.wrappers), .ok t⟩ ∧
      t.mCompositor.mSurfacesList = s.mCompositor.mSurfacesList.filter (spared [r]) := by
  -- A resource that is no surface's takes none with it.
  have hnone : (∀ x ∈ s.surfaces, x.mResource ≠ r) → s.destroyResource r = ⟨[], .ok (s.bury r)⟩ →
      ∃ t, s.destroyResource r =
          ⟨deleteCalls ((s.surfaces.filter (·.mResource = r)).flatMap Surface.wrappers), .ok t⟩ ∧
        t.mCompositor.mSurfacesList = s.mCompositor.mSurfacesList.filter (spared [r]) := by
    intro hnot hd
    have hempty : s.surfaces.filter (·.mResource = r) = [] :=
      List.filter_eq_nil_iff.mpr fun x hx => by simpa using hnot x hx
    rw [hempty]
    exact ⟨s.bury r, hd, (filter_spared_self hnot).symm⟩
  cases hhook : s.hook r with
  | none =>
    obtain ⟨x, hx⟩ := Option.isSome_iff_exists.mp hlive
    have hrun : s.runDestructor x = ⟨[], .ok s⟩ := by
      rw [hook_of_resource? hx] at hhook
      rcases runDestructor_eq s x with ⟨w, hw, -⟩ | ⟨-, heq⟩ | ⟨-, hu, -⟩
      · rw [hhook] at hw
        cases hw
      · exact heq
      · have hbinding := bindingAt_eq.mpr (info_eq_some.mpr ⟨x, hx, rfl, hu⟩)
        rw [hb] at hbinding
        cases hbinding
    refine hnone (fun x hx he => ?_) ?_
    · have hw := h.hook_surface hx
      rw [he, hhook] at hw
      cases hw
    · rw [destroyResource, hx]
      show (s.runDestructor x >>= fun s => pure (s.bury r)) = _
      rw [hrun]
      rfl
  | some w =>
    by_cases hkind : w.kind = .surface
    · exact h.destroy_surface hlive hhook hkind
    · refine hnone (fun x hx he => hkind ?_) (h.destroyResource_stays hlive hhook hkind)
      have hw := h.hook_surface hx
      rw [he, hhook] at hw
      rw [Option.some.inj hw]

/-- The destructor of a binding sweeps the list. -/
theorem destroy_binding {x : Resource} (hx : s.resource? r = some x)
    (hu : x.userData = .global .compositor) (hd : x.destructor = some .hookClientDisconects) :
    s.destroyResource r = s.clientDisconnects x.client >>= fun s => pure (s.bury r) := by
  rw [destroyResource, hx]
  show (s.runDestructor x >>= fun s => pure (s.bury r)) = _
  rw [runDestructor, hu, hd]
  rfl

/-- **A sweep of what is last** moves nothing and deletes nothing. -/
theorem clientDisconnects_last (hnull : none ∉ s.mCompositor.mSurfacesList)
    (hlast : RemovedLast (ownedBy c) s.mCompositor.mSurfacesList) :
    s.clientDisconnects c = ⟨[], .ok s⟩ := by
  have hswept := removeIf_last (clientTest_eq (c := c) hnull) hlast
  rw [clientDisconnects, hswept]
  show (⟨[], .ok ((s.setSurfaces (_ ++ _)).disarm [])⟩ : Exec Call Fault Server) = _
  rw [hlast.filter_append]
  rfl

/-- **A sweep of what is not last** leaves a null entry. -/
theorem null_of_clientDisconnects (h : s.clientDisconnects c = ⟨ds, .ok t⟩)
    (hlast : ¬ RemovedLast (ownedBy c) s.mCompositor.mSurfacesList) :
    none ∈ t.mCompositor.mSurfacesList := by
  have hnull := none_notMem_of_clientDisconnects (congrArg Exec.result h)
  obtain ⟨gone, rest, hswept, -, rfl, rfl⟩ := clientDisconnects_ok h
  apply List.mem_append_right
  exact none_mem_rest_of_not_last (clientTest_eq hnull) hlast hswept

/-! ## The invariant of sessions -/

/-- Whatever the clients do: every surface has a live resource of its client, every binding sweeps
when it is destroyed, and resources are those of connected clients, whose numbers are not reused. -/
structure Seated (cs : List Call) (s : Server) : Prop where
  owned : Owned cs s
  seats : ∀ x ∈ s.surfaces, ∃ u, s.info x.mResource = some (x.mClient, u)
  bound : ∀ r x, s.resource? r = some x → x.userData = .global .compositor →
    x.destructor = some .hookClientDisconects
  connected : ∀ r c u, s.info r = some (c, u) → c ∈ s.clients
  fresh : ∀ c ∈ s.clients, c < s.nextClient
  nodup : s.clients.Nodup
  created : ∀ p ∈ createdSurfaces cs, p.2 < s.nextClient

theorem seated_start (width height : Int) : Seated [] (start width height) where
  owned := owned_start width height
  seats _ hx := nomatch hx
  bound _ _ hx := nomatch hx
  connected _ _ _ h := nomatch h
  fresh _ hc := nomatch hc
  nodup := List.nodup_nil
  created _ hp := nomatch hp

/-- A destruction disarms no binding. -/
theorem Owned.bound_destroyResource (h : Owned cs s)
    (hbound : ∀ r x, s.resource? r = some x → x.userData = .global .compositor →
      x.destructor = some .hookClientDisconects)
    (hd : s.destroyResource r = ⟨ds, .ok t⟩) {r' : WlResource} {x : Resource}
    (hx : t.resource? r' = some x) (hu : x.userData = .global .compositor) :
    x.destructor = some .hookClientDisconects := by
  rcases destroyResource_ok hd with ⟨-, -, rfl⟩ | ⟨ps, ws, rfl, -, -, hws⟩
  · exact hbound r' x hx hu
  · obtain ⟨hentry, hlive⟩ := resource?_eq_some.mp hx
    rw [getElem?_bury, getElem?_disarm, Option.map_map] at hentry
    obtain ⟨y, hy, rfl⟩ := Option.map_eq_some_iff.mp hentry
    have hy' : s.resources[r']? = some y := hy
    by_cases hr : r' = r
    · simp [hr] at hlive
    · by_cases hgone : r' ∈ ws.map (·.2)
      · simp only [Function.comp_apply, if_neg hr, if_pos hgone] at hu
        obtain ⟨w, hw, rfl⟩ := List.mem_map.mp hgone
        have hwraps := wraps_of_hook ((h.hooks w.1 w.2).mp (hws w hw))
        rw [wraps, hy', Option.bind_some, hu] at hwraps
        cases hwraps
      · simp only [Function.comp_apply, if_neg hr, if_neg hgone] at hu hlive ⊢
        exact hbound r' y (resource?_eq_some.mpr ⟨hy', hlive⟩) hu

/-- The surfaces that a destruction leaves existed, and none of them had the resource. -/
theorem Owned.surfaces_destroyResource (h : Owned cs s)
    (hseats : ∀ x ∈ s.surfaces, s.live x.mResource = true)
    (hd : s.destroyResource r = ⟨ds, .ok t⟩) {x : Surface} (hx : x ∈ t.surfaces) :
    x ∈ s.surfaces ∧ x.mResource ≠ r := by
  have hold : x ∈ s.surfaces := by
    rcases destroyResource_ok hd with ⟨-, -, rfl⟩ | ⟨ps, ws, rfl, -, hps, -⟩
    · exact hx
    · exact hps x hx
  refine ⟨hold, fun he => ?_⟩
  rcases h.destroyResource_cases hd with ⟨hdead, -, -⟩ | ⟨u, gone, -, hm, rfl, hleft⟩
  · have hlive := hseats x hold
    rw [he, hdead] at hlive
    cases hlive
  · have hhook := (h.moved hm).hook_surface hx
    rw [he] at hhook
    exact (hleft _ hhook).2 rfl

theorem Seated.destroyed (h : Seated cs s) (hd : s.destroyResource r = ⟨ds, .ok t⟩) :
    Seated (cs ++ ds) t := by
  have hfreed := freed_destroyResource hd
  have hinfo : ∀ {r' i}, t.info r' = some i → s.info r' = some i := by
    intro r' i hi
    rw [hfreed.info] at hi
    split at hi
    · cases hi
    · exact hi
  refine ⟨?_, ?_, fun _ _ => h.owned.bound_destroyResource h.bound hd, ?_, ?_, ?_, ?_⟩
  · rcases h.owned.destroyResource_cases hd with ⟨-, rfl, rfl⟩ | ⟨u, gone, -, hm, rfl, -⟩
    · rw [List.append_nil]
      exact h.owned
    · exact (h.owned.moved hm).bury r
  · intro x hx
    have hlive : ∀ y ∈ s.surfaces, s.live y.mResource = true := by
      intro y hy
      obtain ⟨u, hu⟩ := h.seats y hy
      rw [live_def, hu]
      rfl
    obtain ⟨hold, hne⟩ := h.owned.surfaces_destroyResource hlive hd hx
    obtain ⟨u, hu⟩ := h.seats x hold
    refine ⟨u, ?_⟩
    rw [hfreed.info, if_neg (fun hmem => hne (List.mem_singleton.mp hmem)), hu]
  · intro r' c u hi
    rw [hfreed.clients]
    exact h.connected r' c u (hinfo hi)
  · rw [hfreed.clients, hfreed.nextClient]
    exact h.fresh
  · rw [hfreed.clients]
    exact h.nodup
  · rw [createdSurfaces_append, hfreed.created, List.append_nil, hfreed.nextClient]
    exact h.created

/-- Any resources, one after the other. -/
theorem Seated.destroyAll (h : Seated cs s) (hd : order.foldlM destroyResource s = ⟨ds, .ok t⟩) :
    Seated (cs ++ ds) t ∧ Freed s t order ds := by
  induction order generalizing cs s ds with
  | nil =>
    cases hd
    rw [List.append_nil]
    exact ⟨h, Freed.nil _⟩
  | cons r order ih =>
    rw [List.foldlM_cons] at hd
    obtain ⟨ds₁, u, ds₂, hr, hmore, rfl⟩ := Exec.bind_eq_ok.mp hd
    obtain ⟨hseated, hfreed⟩ := ih (h.destroyed hr) hmore
    rw [← List.append_assoc]
    exact ⟨hseated, (freed_destroyResource hr).cons hfreed⟩

/-! ## A disconnect -/

/-- The handles in `order` up to the first binding of the compositor. -/
def beforeBinding (s : Server) (order : List WlResource) : List WlResource :=
  order.takeWhile fun r => (s.bindingAt .compositor r).isNone

/-- What the list holds when the first binding is destroyed has the client's surfaces last. -/
def LeavesLast (s : Server) (c : WlClient) (order : List WlResource) : Prop :=
  RemovedLast (ownedBy c)
    (s.mCompositor.mSurfacesList.filter (spared (s.beforeBinding order)))

/-- `order` lists what the client still has. -/
structure Leaving (s : Server) (c : WlClient) (order : List WlResource) : Prop where
  nodup : order.Nodup
  mem : ∀ r, r ∈ order ↔ ∃ u, s.info r = some (c, u)

theorem Leaving.destroyed (h : Leaving s c (r :: order)) (hf : Freed s t [r] ds) :
    Leaving t c order := by
  obtain ⟨hr, horder⟩ := List.nodup_cons.mp h.nodup
  refine ⟨horder, fun r' => ?_⟩
  rw [hf.info]
  by_cases hr' : r' = r
  · rw [if_pos (List.mem_singleton.mpr hr'), hr']
    exact ⟨fun hmem => absurd hmem hr, fun ⟨u, hu⟩ => nomatch hu⟩
  · rw [if_neg (fun hmem => hr' (List.mem_singleton.mp hmem)), ← h.mem r', List.mem_cons]
    exact ⟨.inr, fun hor => hor.resolve_left hr'⟩

theorem Leaving.beforeBinding_destroyed (h : Leaving s c (r :: order)) (hf : Freed s t [r] ds) :
    t.beforeBinding order = s.beforeBinding order := by
  have hsame : ∀ r' ∈ order, t.bindingAt .compositor r' = s.bindingAt .compositor r' := by
    intro r' hr'
    have hne : r' ≠ r := fun he => (List.nodup_cons.mp h.nodup).1 (he ▸ hr')
    apply Option.ext
    intro c'
    rw [bindingAt_eq, bindingAt_eq, hf.info,
      if_neg (fun hmem => hne (List.mem_singleton.mp hmem))]
  rw [beforeBinding, beforeBinding]
  generalize order = rs at hsame
  induction rs with
  | nil => rfl
  | cons r' rs ih =>
    rw [List.takeWhile_cons, List.takeWhile_cons, hsame r' List.mem_cons_self,
      ih fun r hr => hsame r (List.mem_cons_of_mem r' hr)]

theorem filter_spared_nil (ps : List (Option Surface)) : ps.filter (spared []) = ps := by
  apply List.filter_eq_self.mpr
  intro p _
  cases p with
  | none => rfl
  | some x => rfl

/-- The client's binding: its destructor sweeps the list, and no surface has it as its resource. -/
theorem Seated.destroy_binding (h : Seated cs s) (hb : s.bindingAt .compositor r = some c) :
    s.destroyResource r = (s.clientDisconnects c >>= fun s => pure (s.bury r)) ∧
      s.mCompositor.mSurfacesList.filter (spared [r]) = s.mCompositor.mSurfacesList := by
  obtain ⟨x, hx, rfl, hu⟩ := info_eq_some.mp (bindingAt_eq.mp hb)
  have hd := h.bound r x hx hu
  refine ⟨Server.destroy_binding hx hu hd, filter_spared_self fun y hy he => ?_⟩
  have hhook := h.owned.hook_surface hy
  rw [he, hook_of_resource? hx, Resource.hook, hd, hu] at hhook
  cases hhook

theorem Leaving.binding (h : Leaving s c (r :: order)) {c' : WlClient}
    (hb : s.bindingAt .compositor r = some c') : c' = c := by
  obtain ⟨u, hu⟩ := (h.mem r).mp List.mem_cons_self
  exact (Prod.mk.inj (Option.some.inj ((bindingAt_eq.mp hb).symm.trans hu))).1

theorem Leaving.live (h : Leaving s c (r :: order)) : s.live r = true := by
  obtain ⟨u, hu⟩ := (h.mem r).mp List.mem_cons_self
  rw [live_def, hu]
  rfl

theorem beforeBinding_other (hb : s.bindingAt .compositor r = none) :
    s.beforeBinding (r :: order) = r :: s.beforeBinding order := by
  rw [beforeBinding, List.takeWhile_cons, hb]
  rfl

theorem leavesLast_binding (hb : s.bindingAt .compositor r = some c) :
    s.LeavesLast c (r :: order) ↔ RemovedLast (ownedBy c) s.mCompositor.mSurfacesList := by
  rw [LeavesLast, beforeBinding, List.takeWhile_cons, hb]
  show RemovedLast _ (List.filter (spared []) _) ↔ _
  rw [filter_spared_nil]

/-- After the destruction of a resource that is no binding, the same has to hold of the others. -/
theorem Leaving.leavesLast_other (hl : Leaving s c (r :: order)) (hf : Freed s t [r] ds)
    (hb : s.bindingAt .compositor r = none)
    (hlist : t.mCompositor.mSurfacesList = s.mCompositor.mSurfacesList.filter (spared [r])) :
    t.LeavesLast c order ↔ s.LeavesLast c (r :: order) := by
  rw [LeavesLast, LeavesLast, hl.beforeBinding_destroyed hf, hlist, filter_spared_cons,
    beforeBinding_other hb]

/-- One destruction of a disconnect that leaves the client's surfaces last. -/
theorem Seated.leave_step (h : Seated cs s) (hl : Leaving s c (r :: order))
    (hnull : none ∉ s.mCompositor.mSurfacesList) (hlast : s.LeavesLast c (r :: order)) :
    ∃ ds t, s.destroyResource r = ⟨ds, .ok t⟩ ∧
      t.mCompositor.mSurfacesList = s.mCompositor.mSurfacesList.filter (spared [r]) ∧
      t.LeavesLast c order := by
  cases hb : s.bindingAt .compositor r with
  | none =>
    obtain ⟨t, hd, hlist⟩ := h.owned.destroy_other hl.live hb
    have hf := freed_destroyResource hd
    exact ⟨_, t, hd, hlist, (hl.leavesLast_other hf hb hlist).mpr hlast⟩
  | some c' =>
    obtain rfl := hl.binding hb
    have hlist := (leavesLast_binding hb).mp hlast
    obtain ⟨hsweep, hself⟩ := h.destroy_binding hb
    rw [clientDisconnects_last hnull hlist] at hsweep
    exact ⟨[], s.bury r, hsweep, hself.symm, hlist.filter _⟩

/-- **A disconnect that leaves the client's surfaces last** erases just these. -/
theorem Seated.leave_last (h : Seated cs s) (hl : Leaving s c order)
    (hnull : none ∉ s.mCompositor.mSurfacesList) (hlast : s.LeavesLast c order) :
    ∃ ds t, order.foldlM Server.destroyResource s = ⟨ds, .ok t⟩ ∧
      t.mCompositor.mSurfacesList = s.mCompositor.mSurfacesList.filter (spared order) := by
  induction order generalizing cs s with
  | nil => exact ⟨[], s, rfl, (filter_spared_nil _).symm⟩
  | cons r order ih =>
    obtain ⟨ds, u, hd, hlist, hlast'⟩ := h.leave_step hl hnull hlast
    have hnull' : none ∉ u.mCompositor.mSurfacesList := by
      rw [hlist]
      exact fun hmem => hnull (List.mem_of_mem_filter hmem)
    obtain ⟨es, t, hmore, hlist'⟩ :=
      ih (h.destroyed hd) (hl.destroyed (freed_destroyResource hd)) hnull' hlast'
    refine ⟨ds ++ es, t, ?_, ?_⟩
    · rw [List.foldlM_cons, hd, Exec.ok_bind, hmore]
    · rw [hlist', hlist, filter_spared_cons]

/-- A null entry stays. -/
theorem Seated.null_stays (h : Seated cs s) (hnull : none ∈ s.mCompositor.mSurfacesList)
    (hd : s.destroyResource r = ⟨ds, .ok t⟩) : none ∈ t.mCompositor.mSurfacesList := by
  by_cases hlive : s.live r = true
  · cases hb : s.bindingAt .compositor r with
    | none =>
      obtain ⟨_, hd', hlist⟩ := h.owned.destroy_other hlive hb
      rw [hd] at hd'
      cases hd'
      rw [hlist]
      exact List.mem_filter.mpr ⟨hnull, rfl⟩
    | some c =>
      rw [(h.destroy_binding hb).1] at hd
      obtain ⟨_, u, _, hsweep, -, -⟩ := Exec.bind_eq_ok.mp hd
      exact absurd hnull (none_notMem_of_clientDisconnects (congrArg Exec.result hsweep))
  · rcases destroyResource_ok hd with ⟨-, -, rfl⟩ | ⟨ps, ws, rfl, -, -, -⟩
    · exact hnull
    · rcases h.owned.destroyResource_cases hd with ⟨-, -, he⟩ | ⟨_, _, hlive', -⟩
      · rw [he]
        exact hnull
      · exact absurd hlive' hlive

theorem Seated.null_stays_all (h : Seated cs s) (hnull : none ∈ s.mCompositor.mSurfacesList)
    (hd : order.foldlM Server.destroyResource s = ⟨ds, .ok t⟩) :
    none ∈ t.mCompositor.mSurfacesList :=
  (Exec.foldlM_induct (I := fun cs s => Seated cs s ∧ none ∈ s.mCompositor.mSurfacesList)
    (fun _ _ _ _ _ hs hr => ⟨hs.1.destroyed hr, hs.1.null_stays hs.2 hr⟩) cs ⟨h, hnull⟩ hd).2

/-- **Any other disconnect** leaves a null entry. -/
theorem Seated.leave_not_last (h : Seated cs s) (hl : Leaving s c order)
    (hlast : ¬ s.LeavesLast c order)
    (hd : order.foldlM Server.destroyResource s = ⟨ds, .ok t⟩) :
    none ∈ t.mCompositor.mSurfacesList := by
  induction order generalizing cs s ds with
  | nil =>
    refine absurd ?_ hlast
    apply List.pairwise_of_forall_mem_list
    intro p hp q _ howned
    cases p with
    | none => cases howned
    | some x =>
      obtain ⟨u, hu⟩ := h.seats x (mem_contents.mpr (List.mem_of_mem_filter hp))
      obtain rfl : c = x.mClient := of_decide_eq_true howned
      exact nomatch (hl.mem x.mResource).mpr ⟨u, hu⟩
  | cons r order ih =>
    rw [List.foldlM_cons] at hd
    obtain ⟨_, u, _, hr, hmore, rfl⟩ := Exec.bind_eq_ok.mp hd
    have hf := freed_destroyResource hr
    cases hb : s.bindingAt .compositor r with
    | none =>
      obtain ⟨_, hr', hlist⟩ := h.owned.destroy_other hl.live hb
      rw [hr] at hr'
      cases hr'
      have hlast' := fun hq => hlast ((hl.leavesLast_other hf hb hlist).mp hq)
      exact ih (h.destroyed hr) (hl.destroyed hf) hlast' hmore
    | some c' =>
      obtain rfl := hl.binding hb
      apply (h.destroyed hr).null_stays_all _ hmore
      rw [(h.destroy_binding hb).1] at hr
      obtain ⟨_, v, _, hsweep, hret, -⟩ := Exec.bind_eq_ok.mp hr
      cases hret
      show none ∈ v.mCompositor.mSurfacesList
      exact null_of_clientDisconnects hsweep fun hq => hlast ((leavesLast_binding hb).mpr hq)

/-! ## Sessions -/

theorem leaving_of_perm (h : order.Perm (s.resourcesOf c)) : Leaving s c order :=
  ⟨h.nodup_iff.mpr (nodup_resourcesOf s c), fun _ => h.mem_iff.trans mem_resourcesOf⟩

theorem Seated.connect (h : Seated cs s) : Seated cs s.connect where
  owned := ⟨h.owned.hooks, h.owned.ledger, h.owned.listens⟩
  seats := h.seats
  bound := h.bound
  connected r c u hi := List.mem_append_left _ (h.connected r c u hi)
  fresh c hc := by
    rcases List.mem_append.mp hc with hc | hc
    · exact Nat.lt_succ_of_lt (h.fresh c hc)
    · rw [List.mem_singleton.mp hc]
      exact Nat.lt_succ_self _
  nodup := by
    apply List.nodup_append.mpr
    refine ⟨h.nodup, List.nodup_singleton _, fun c hc c' hc' => ?_⟩
    rw [List.mem_singleton.mp hc']
    exact Nat.ne_of_lt (h.fresh c hc)
  created p hp := Nat.lt_succ_of_lt (h.created p hp)

/-- A resource of a connected client that is no surface's. -/
theorem Seated.addResource (h : Seated cs s) {x : Resource} (hx : x.userData.wrapper? = none)
    (hlive : x.live = true) (hc : x.client ∈ s.clients)
    (hbound : x.userData = .global .compositor → x.destructor = some .hookClientDisconects) :
    Seated cs (s.addResource x) where
  owned := by
    have ho := h.owned.moved ((frame_addResource hx).moved deletes_nil)
    rw [List.append_nil] at ho
    exact ho
  seats y hy := by
    obtain ⟨u, hu⟩ := h.seats y hy
    exact ⟨u, info_addResource_of_some hu⟩
  bound r y hy hu := by
    obtain ⟨hentry, hl⟩ := resource?_eq_some.mp hy
    rw [getElem?_addResource] at hentry
    split at hentry
    · cases hentry
      exact hbound hu
    · exact h.bound r y (resource?_eq_some.mpr ⟨hentry, hl⟩) hu
  connected r c u hi := by
    rw [info_addResource hlive] at hi
    split at hi
    · cases hi
      exact hc
    · exact h.connected r c u hi
  fresh := h.fresh
  nodup := h.nodup
  created := h.created

theorem Seated.bind (h : Seated cs s) : Seated cs (s.bind c .compositor) := by
  rw [Server.bind]
  split
  · next hc => exact h.addResource rfl rfl hc fun _ => rfl
  · exact h

theorem Seated.createSurface (h : Seated cs s) (hstep : s.createSurface r = ⟨ds, .ok t⟩) :
    Seated (cs ++ ds) t := by
  have hq : Handled s (.createSurface r) ⟨ds, .ok t⟩ := .eq hstep
  cases hq with
  | ignored =>
    rw [List.append_nil]
    exact h
  | @surfaceCreated _ c hb =>
    have hc : c ∈ s.clients := h.connected r c _ (bindingAt_eq.mp hb)
    refine ⟨h.owned.moved (moved_surfaceCreated s c), ?_, ?_, ?_, h.fresh, h.nodup, ?_⟩
    · intro x hx
      rcases List.mem_append.mp (mem_contents.mp hx) with hx | hx
      · obtain ⟨u, hu⟩ := h.seats x (mem_contents.mpr hx)
        exact ⟨u, info_addResource_of_some hu⟩
      · cases List.mem_singleton.mp hx
        exact ⟨_, (info_addResource rfl).trans (if_pos rfl)⟩
    · intro r' x hx hu
      obtain ⟨hentry, hl⟩ := resource?_eq_some.mp hx
      have hentry' := getElem?_addResource.symm.trans hentry
      split at hentry'
      · cases hentry'
        cases hu
      · exact h.bound r' x (resource?_eq_some.mpr ⟨hentry', hl⟩) hu
    · intro r' c' u hi
      have hi' := (info_addResource rfl).symm.trans hi
      split at hi'
      · cases hi'
        exact hc
      · exact h.connected r' c' u hi'
    · intro p hp
      rw [createdSurfaces_append] at hp
      rcases List.mem_append.mp hp with hp | hp
      · exact h.created p hp
      · rw [List.mem_singleton.mp hp]
        exact h.fresh c hc

theorem Seated.setSurfaces (h : Seated cs s) {ps : List (Option Surface)}
    (hsame : SameSurfaces ps s.mCompositor.mSurfacesList) : Seated cs (s.setSurfaces ps) where
  owned := by
    have ho := h.owned.moved ((frame_setSurfaces hsame).moved deletes_nil)
    rw [List.append_nil] at ho
    exact ho
  seats x hx := by
    have hmem : x.identity ∈ s.surfaces.map Surface.identity :=
      hsame.contents ▸ List.mem_map_of_mem hx
    obtain ⟨y, hy, he⟩ := List.mem_map.mp hmem
    obtain ⟨u, hu⟩ := h.seats y hy
    rw [← Surface.mResource_of_identity he, ← Surface.mClient_of_identity he]
    exact ⟨u, hu⟩
  bound := h.bound
  connected := h.connected
  fresh := h.fresh
  nodup := h.nodup
  created := h.created

theorem session_relayoutSurfaces (h : s.session .relayoutSurfaces = ⟨ds, .ok t⟩) :
    ∃ ss : List Surface, s.mCompositor.mSurfacesList = ss.map some ∧ ds = [] ∧
      t = s.setSurfaces ((Compositor.relaid s.mCompositor.mDisplayHeight ss).map some) := by
  obtain ⟨c, hc, hret⟩ := (Compositor.silent_relayoutSurfaces _).bind_eq_ok.mp h
  cases hret
  obtain ⟨ss, hlist, rfl⟩ := Compositor.relayoutSurfaces_ok hc
  exact ⟨ss, hlist, rfl, rfl⟩

theorem Seated.disconnect (h : Seated cs s) (hl : Leaving s c order)
    (hd : order.foldlM Server.destroyResource s = ⟨ds, .ok t⟩) :
    Seated (cs ++ ds) { t with clients := t.clients.erase c } := by
  obtain ⟨ht, hf⟩ := h.destroyAll hd
  refine ⟨⟨ht.owned.hooks, ht.owned.ledger, ht.owned.listens⟩, ht.seats, ht.bound, ?_, ?_,
    ht.nodup.erase c, ht.created⟩
  · intro r c' u hi
    have hi' : t.info r = some (c', u) := hi
    have hne : c' ≠ c := by
      rintro rfl
      rw [hf.info] at hi'
      split at hi'
      · cases hi'
      · next hout => exact hout ((hl.mem r).mpr ⟨u, hi'⟩)
    exact (List.mem_erase_of_ne hne).mpr (ht.connected r c' u hi')
  · intro c' hc'
    exact ht.fresh c' (List.mem_of_mem_erase hc')

theorem Seated.session (h : Seated cs s) {a : SessionAction}
    (hstep : s.session a = ⟨ds, .ok t⟩) : Seated (cs ++ ds) t := by
  cases a with
  | connect =>
    cases hstep
    rw [List.append_nil]
    exact h.connect
  | bind c =>
    cases hstep
    rw [List.append_nil]
    exact h.bind
  | createSurface r => exact h.createSurface hstep
  | relayoutSurfaces =>
    obtain ⟨ss, hlist, rfl, rfl⟩ := session_relayoutSurfaces hstep
    rw [List.append_nil]
    exact h.setSurfaces (hlist ▸ Compositor.sameSurfaces_relaid _ ss)
  | disconnect c order =>
    change s.disconnect c order = _ at hstep
    rw [Server.disconnect] at hstep
    split at hstep
    · next hc =>
      obtain ⟨_, u, _, hd, hret, rfl⟩ := Exec.bind_eq_ok.mp hstep
      cases hret
      rw [List.append_nil]
      exact h.disconnect (leaving_of_perm hc.2) hd
    · cases hstep
      rw [List.append_nil]
      exact h

theorem reaches_seated {width height : Int} {as : List SessionAction}
    (h : (sessionMachine width height).Reaches as cs s) : Seated cs s :=
  h.induct (P := fun _ cs s => Seated cs s) (seated_start width height)
    fun _ _ _ _ _ _ _ hs hstep => hs.session hstep

/-! ## The list -/

/-- A surface with its client. -/
def seat (x : Surface) : Address × WlClient := (x.this, x.mClient)

/-- The list has no null entry and no surface twice, and is the list of the surfaces of the
connected clients in the order in which they were created. -/
structure Intact (cs : List Call) (s : Server) : Prop where
  noNull : none ∉ s.mCompositor.mSurfacesList
  nodup : (s.surfaces.map (·.this)).Nodup
  surfaces : s.surfaces.map seat = (createdSurfaces cs).filter (·.2 ∈ s.clients)

/-- Where the action is the disconnect of a client, that leaves its surfaces last. -/
def KeepsList (s : Server) : SessionAction → Prop
  | .disconnect c order => c ∈ s.clients → order.Perm (s.resourcesOf c) → s.LeavesLast c order
  | _ => True

theorem Owned.nodup_surfaces (h : Owned cs s) : (s.surfaces.map (·.this)).Nodup :=
  (surfaces_sublist s).nodup h.nodup

theorem Intact.connect (h : Intact cs s) (hs : Seated cs s) : Intact cs s.connect where
  noNull := h.noNull
  nodup := h.nodup
  surfaces := by
    refine h.surfaces.trans (List.filter_congr fun p hp => ?_)
    have hold : p.2 ≠ s.nextClient := Nat.ne_of_lt (hs.created p hp)
    show decide (p.2 ∈ s.clients) = decide (p.2 ∈ s.clients ++ [s.nextClient])
    simp [hold]

theorem Intact.bind (h : Intact cs s) : Intact cs (s.bind c .compositor) := by
  rw [Server.bind]
  split
  · exact ⟨h.noNull, h.nodup, h.surfaces⟩
  · exact h

theorem Intact.createSurface (h : Intact cs s) (hs : Seated cs s)
    (hstep : s.createSurface r = ⟨ds, .ok t⟩) : Intact (cs ++ ds) t := by
  have hnodup := (hs.createSurface hstep).owned.nodup_surfaces
  have hq : Handled s (.createSurface r) ⟨ds, .ok t⟩ := .eq hstep
  cases hq with
  | ignored =>
    rw [List.append_nil]
    exact h
  | @surfaceCreated _ c hb =>
    have hc : c ∈ s.clients := hs.connected r c _ (bindingAt_eq.mp hb)
    refine ⟨fun hnull => ?_, hnodup, ?_⟩
    · rcases List.mem_append.mp hnull with hnull | hnull
      · exact h.noNull hnull
      · cases List.mem_singleton.mp hnull
    · show (contents (_ ++ [some _])).map seat = _
      rw [contents_append, List.map_append, createdSurfaces_append, List.filter_append]
      refine congr (congrArg _ h.surfaces) ?_
      show [(s.nextAddress, c)] = List.filter (·.2 ∈ s.clients) [(s.nextAddress, c)]
      exact (List.filter_eq_self.mpr fun p hp =>
        decide_eq_true (List.mem_singleton.mp hp ▸ hc)).symm

theorem Intact.setSurfaces (h : Intact cs s) {ss : List Surface}
    (hsame : ss.map Surface.identity = s.surfaces.map Surface.identity) :
    Intact cs (s.setSurfaces (ss.map some)) := by
  have hsurfaces : (s.setSurfaces (ss.map some)).surfaces = ss := contents_map_some ss
  refine ⟨fun hnull => ?_, ?_, ?_⟩
  · obtain ⟨x, -, hx⟩ := List.mem_map.mp hnull
    cases hx
  · rw [hsurfaces, map_of_identity (fun _ _ => Surface.this_of_identity) hsame]
    exact h.nodup
  · have hseat : ∀ x y : Surface, x.identity = y.identity → seat x = seat y := by
      intro x y he
      rw [seat, seat, Surface.this_of_identity he, Surface.mClient_of_identity he]
    rw [hsurfaces, map_of_identity hseat hsame]
    exact h.surfaces

/-- **A disconnect that leaves the client's surfaces last** keeps the list intact. -/
theorem Intact.disconnect (h : Intact cs s) (hs : Seated cs s) (hl : Leaving s c order)
    (hlast : s.LeavesLast c order) :
    ∃ ds t, order.foldlM Server.destroyResource s = ⟨ds, .ok t⟩ ∧
      Intact (cs ++ ds) { t with clients := t.clients.erase c } := by
  obtain ⟨ds, t, hd, hlist⟩ := hs.leave_last hl h.noNull hlast
  obtain ⟨ht, hf⟩ := hs.destroyAll hd
  refine ⟨ds, t, hd, fun hnull => h.noNull ?_, ht.owned.nodup_surfaces, ?_⟩
  · have hnull' : none ∈ t.mCompositor.mSurfacesList := hnull
    rw [hlist] at hnull'
    exact List.mem_of_mem_filter hnull'
  · have hleft : t.surfaces = s.surfaces.filter (·.mClient ≠ c) := by
      rw [Server.surfaces, hlist]
      show contents (List.filter (·.all _) _) = _
      rw [contents_filter_all]
      apply List.filter_congr
      intro x hx
      obtain ⟨u, hu⟩ := hs.seats x hx
      have hiff : x.mResource ∈ order ↔ x.mClient = c := by
        rw [hl.mem, hu]
        constructor
        · rintro ⟨u', hu'⟩
          exact (Prod.mk.inj (Option.some.inj hu')).1
        · rintro rfl
          exact ⟨u, rfl⟩
      simp [hiff]
    show t.surfaces.map seat = (createdSurfaces (cs ++ ds)).filter (·.2 ∈ t.clients.erase c)
    have hmap : (s.surfaces.filter (·.mClient ≠ c)).map seat =
        (s.surfaces.map seat).filter (·.2 ≠ c) := by
      rw [List.filter_map]
      rfl
    rw [hleft, hmap, h.surfaces, List.filter_filter, createdSurfaces_append, hf.created,
      List.append_nil, hf.clients]
    apply List.filter_congr
    intro p _
    simp [hs.nodup.mem_erase_iff]

theorem Intact.relayoutSurfaces (h : Intact cs s) :
    ∃ t, s.session .relayoutSurfaces = ⟨[], .ok t⟩ ∧ Intact cs t := by
  have hlist := (map_some_contents h.noNull).symm
  refine ⟨_, ?_, h.setSurfaces
    (Compositor.identity_relaid s.mCompositor.mDisplayHeight s.surfaces)⟩
  show (s.mCompositor.relayoutSurfaces >>= fun c => pure { s with mCompositor := c }) = _
  rw [Compositor.relayoutSurfaces_eq hlist]
  rfl

/-- **An action that keeps the list** returns, and the list is intact after it. -/
theorem Intact.session (h : Intact cs s) (hs : Seated cs s) {a : SessionAction}
    (ha : s.KeepsList a) : ∃ ds t, s.session a = ⟨ds, .ok t⟩ ∧ Intact (cs ++ ds) t := by
  cases a with
  | connect => exact ⟨[], s.connect, rfl, (List.append_nil cs).symm ▸ h.connect hs⟩
  | bind c => exact ⟨[], _, rfl, (List.append_nil cs).symm ▸ h.bind⟩
  | createSurface r =>
    rcases hstep : s.createSurface r with ⟨ds, e | t⟩
    · rw [Server.createSurface] at hstep
      split at hstep
      · cases hstep
      · cases hstep
    · exact ⟨ds, t, hstep, h.createSurface hs hstep⟩
  | relayoutSurfaces =>
    obtain ⟨t, hstep, ht⟩ := h.relayoutSurfaces
    exact ⟨[], t, hstep, (List.append_nil cs).symm ▸ ht⟩
  | disconnect c order =>
    show ∃ ds t, s.disconnect c order = ⟨ds, .ok t⟩ ∧ Intact (cs ++ ds) t
    rw [Server.disconnect]
    split
    · next hc =>
      obtain ⟨ds, t, hd, ht⟩ := h.disconnect hs (leaving_of_perm hc.2) (ha hc.1 hc.2)
      rw [hd]
      exact ⟨ds ++ [], _, rfl, (List.append_nil ds).symm ▸ ht⟩
    · exact ⟨[], s, rfl, (List.append_nil cs).symm ▸ h⟩

/-- **An action that does not keep the list** is a disconnect, and leaves a null entry. -/
theorem Seated.session_null (hs : Seated cs s) {a : SessionAction} (ha : ¬ s.KeepsList a)
    (hstep : s.session a = ⟨ds, .ok t⟩) : none ∈ t.mCompositor.mSurfacesList := by
  cases a with
  | disconnect c order =>
    change s.disconnect c order = _ at hstep
    simp only [KeepsList, not_forall] at ha
    obtain ⟨hc, hperm, hlast⟩ := ha
    rw [Server.disconnect, if_pos ⟨hc, hperm⟩] at hstep
    obtain ⟨_, u, _, hd, hret, rfl⟩ := Exec.bind_eq_ok.mp hstep
    cases hret
    have hnull : none ∈ u.mCompositor.mSurfacesList :=
      hs.leave_not_last (leaving_of_perm hperm) hlast hd
    exact hnull
  | connect => exact absurd trivial ha
  | bind c => exact absurd trivial ha
  | createSurface r => exact absurd trivial ha
  | relayoutSurfaces => exact absurd trivial ha

/-- **When the list of the surfaces stays intact.** A run of sessions dereferences no null entry
and has the list intact in every state, exactly if each of its disconnects leaves the client's
surfaces last. -/
theorem list_intact_iff (width height : Int) (as : List SessionAction) :
    (sessionMachine width height).Safe Intact as ↔
      (sessionMachine width height).Along KeepsList as := by
  refine Machine.safe_iff_along ?_ ?_ ?_ as
  · exact ⟨List.not_mem_nil, List.nodup_nil, rfl⟩
  · intro as cs s a hreach h ha
    exact h.session (reaches_seated hreach) ha
  · intro as cs s a ds t hreach h ha hstep ht
    exact ht.noNull ((reaches_seated hreach).session_null ha hstep)

/-- Two clients with a surface each: the first one disconnects, its binding goes first, and the
sweep leaves a null entry, which the next layout dereferences. -/
theorem disconnect_leaves_null :
    ¬ ∀ width height as, (sessionMachine width height).Safe Intact as := by
  intro h
  obtain ⟨cs, s, hreach, -⟩ := h 1 1
    [.connect, .connect, .bind 0, .bind 1, .createSurface 0, .createSurface 1,
      .disconnect 0 [0, 2], .relayoutSurfaces] _ List.prefix_rfl
  cases hreach

end Server

end WaylandTest
