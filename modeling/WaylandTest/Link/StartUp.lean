import WaylandTest.Server.Newcomers
import WaylandTest.Link.Screen
import WaylandTest.Link.Hosted

/-!
# How a client starts

The client of `client/waylandclient.cpp` up to its first `redraw`: of the globals that the registry
announces it binds those it knows, and then it makes its surface and its buffer. The server is the
whole server, which does anything else between these requests.

`client_starts_hosted` closes the gap to `Link/Hosted.lean`: whatever the others do, a client of
this repository that connects to a server of this repository starts, and is hosted then.
-/

set_option autoImplicit false

namespace WaylandTest

open Lib Client Server

/-! ## The client's side -/

namespace Client

/-- What `wl_registry.global` tells of a global. -/
structure Announcement where
  id : Nat
  interface : String
deriving DecidableEq, Repr

/-- The requests of a client that starts. It calls its objects by the ids of the globals they are
bound to. -/
inductive StartRequest
  | bind (id : Nat)
  | createSurface (compositor : Nat)
  | createBuffer (sharedMemory : Nat) (buffer : ShmBuffer)
deriving DecidableEq, Repr

/-- `client::WaylandClient`, as far as the registry sets it. The constructor clears all but
`mShell`. -/
structure WaylandClient where
  mCompositor : Option Nat := none
  mSharedMemory : Option Nat := none
  mShell : Option Nat := none
deriving DecidableEq, Repr

namespace WaylandClient

/-- `WaylandClient::registryHandler`. -/
def registryHandler (w : WaylandClient) (g : Announcement) : WaylandClient × List StartRequest :=
  if g.interface = "wl_compositor" then
    ({ w with mCompositor := some g.id }, [.bind g.id])
  else if g.interface = "wl_shm" then
    ({ w with mSharedMemory := some g.id }, [.bind g.id])
  else if g.interface = "wl_shell" then
    ({ w with mShell := some g.id }, [.bind g.id])
  else
    (w, [])

/-- The globals that are announced until the server has answered. -/
def registry (w : WaylandClient) : List Announcement → WaylandClient × List StartRequest
  | [] => (w, [])
  | g :: gs =>
    let (w, sent) := w.registryHandler g
    let (w, more) := w.registry gs
    (w, sent ++ more)

/-- `WaylandClient::WaylandClient`; without a connection there are no globals. The errors are the
texts of the exceptions. -/
def construct : Option (List Announcement) → Except String (WaylandClient × List StartRequest)
  | none => .error "Error opening display"
  | some gs =>
    let (w, sent) := registry {} gs
    if w.mCompositor.isSome && w.mSharedMemory.isSome then .ok (w, sent)
    else .error "cannot find wl_compositor or wl_shm"

/-- `WaylandClient::createSurface`: the constructor of `WaylandSurface` makes the surface and the
buffer. -/
def createSurface (w : WaylandClient) : List StartRequest :=
  w.mCompositor.toList.map .createSurface ++
    w.mSharedMemory.toList.map (.createBuffer · (createShmBuffer (List.replicate shmSize 0)))

/-- All it asks for until it redraws. -/
def start (gs : Option (List Announcement)) : Except String (List StartRequest) :=
  (construct gs).map fun p => p.2 ++ p.1.createSurface

theorem isSome_registry (w : WaylandClient) (gs : List Announcement) :
    ((w.registry gs).1.mCompositor.isSome ↔
      w.mCompositor.isSome ∨ "wl_compositor" ∈ gs.map (·.interface)) ∧
    ((w.registry gs).1.mSharedMemory.isSome ↔
      w.mSharedMemory.isSome ∨ "wl_shm" ∈ gs.map (·.interface)) := by
  induction gs generalizing w with
  | nil => simp [registry]
  | cons g gs ih =>
    obtain ⟨hcompositor, hshm⟩ := ih (w.registryHandler g).1
    refine ⟨hcompositor.trans ?_, hshm.trans ?_⟩
    · rw [List.map_cons, List.mem_cons]
      unfold registryHandler
      grind
    · rw [List.map_cons, List.mem_cons]
      unfold registryHandler
      grind

/-- **What a client needs of a server**: the client starts if a compositor and shared memory are
among the globals. A shell is not needed, though the destructor destroys one. -/
theorem starts_iff (gs : List Announcement) :
    (∃ sent, start (some gs) = .ok sent) ↔
      "wl_compositor" ∈ gs.map (·.interface) ∧ "wl_shm" ∈ gs.map (·.interface) := by
  obtain ⟨hcompositor, hshm⟩ := isSome_registry {} gs
  simp only [Option.isSome_none, Bool.false_eq_true, false_or] at hcompositor hshm
  rw [← hcompositor, ← hshm, ← Bool.and_eq_true]
  by_cases h : ((registry {} gs).1.mCompositor.isSome &&
    (registry {} gs).1.mSharedMemory.isSome) = true
  · have hok : construct (some gs) = .ok (registry {} gs) := if_pos h
    rw [start, hok]
    exact iff_of_true ⟨_, rfl⟩ h
  · have hthrown : construct (some gs) = .error "cannot find wl_compositor or wl_shm" := if_neg h
    rw [start, hthrown]
    refine iff_of_false ?_ h
    rintro ⟨sent, hsent⟩
    cases hsent

end WaylandClient

end Client

/-! ## The server's side -/

/-- The globals of `WaylandServer::WaylandServer`, in order, with the names of their interfaces. The
last one is libwayland's. -/
def Server.globals : List (String × Option Global) :=
  [("wl_compositor", some .compositor), ("wl_shell", some .shell), ("wl_output", some .output),
    ("wl_seat", some .seat), ("wl_shm", none)]

/-- What the registry of the server announces: the globals, numbered from 1. -/
def Server.announced : List Announcement :=
  (Server.globals.zipIdx 1).map fun p => ⟨p.2, p.1.1⟩

/-- The global object that was announced under the id. -/
def Server.globalAt (id : Nat) : Option Global :=
  ((Server.globals.zipIdx 1).find? fun p => p.2 = id).bind fun p => p.1.2

/-- The whole server while a client starts, with the client's requests in flight and the resources
that were made for it: for the globals it bound, its surface and its buffer. -/
structure Starting where
  server : Server
  requests : List StartRequest
  bound : List (Nat × WlResource) := []
  surface : Option WlResource := none
  buffer : Option WlResource := none

/-- What can happen next: the client's first request arrives, or somebody else does something. -/
inductive StartAction
  | deliver
  | other (act : LifetimeAction)
deriving DecidableEq, Repr

namespace Starting

/-- The server handles a request of the client. -/
def ask (blend : Blend) (w : Starting) (q : ClientRequest) : Exec Call Fault Starting :=
  w.server.lifetime blend (.serve (.request q)) >>= fun t => pure { w with server := t }

/-- The first request in flight arrives. -/
def deliver (blend : Blend) (c : WlClient) (w : Starting) : Exec Call Fault Starting :=
  match w.requests with
  | [] => pure w
  | .bind id :: rs =>
    match Server.globalAt id with
    | none => pure { w with requests := rs }
    | some g =>
      { w with
        requests := rs
        bound := (id, w.server.resources.length) :: w.bound }.ask blend (.bind c g)
  | .createSurface id :: rs =>
    match w.bound.lookup id with
    | none => pure { w with requests := rs }
    | some r =>
      { w with
        requests := rs
        surface := some w.server.resources.length }.ask blend (.createSurface r)
  | .createBuffer _ b :: rs =>
    { w with
      requests := rs
      buffer := some w.server.resources.length }.ask blend (.createBuffer c (some b))

/-- One action. What others do is not the client's, and the client does not leave. -/
def act (blend : Blend) (c : WlClient) (w : Starting) : StartAction → Exec Call Fault Starting
  | .deliver => w.deliver blend c
  | .other act =>
    if w.server.actor act = some c ∨ act = .forget c then pure w
    else w.server.lifetime blend act >>= fun t => pure { w with server := t }

end Starting

/-- All that a client asks for which starts at this server. -/
def startRequests : List StartRequest :=
  (WaylandClient.start (some Server.announced)).toOption.getD []

/-- A client connects to the server and starts. -/
def startMachine (blend : Blend) (s : Server) : Machine Call Fault Starting StartAction where
  init := { server := s.connect, requests := startRequests }
  step := Starting.act blend s.nextClient

theorem startRequests_eq : startRequests =
    [.bind 1, .bind 2, .bind 5, .createSurface 1,
      .createBuffer 5 (createShmBuffer (List.replicate shmSize 0))] := rfl

/-! ## What the server has of the client -/

/-- What the server made for the client is there. -/
structure Stands (c : WlClient) (w : Starting) : Prop where
  bound : ∀ id r g, w.bound.lookup id = some r → Server.globalAt id = some g →
    w.server.bindingAt g r = some c
  unmade : w.surface = none → w.server.surfacesOf c = []
  surface : ∀ r, w.surface = some r → ∃ z, w.server.surfacesOf c = [z] ∧ z.mResource = r ∧
    z.Unused ∧ w.server.wrapperAt .surface r = some (z.this, c)
  buffer : ∀ b, w.buffer = some b →
    w.server.hasBuffer c b = true ∧ (w.server.shm b).isSome

namespace Server

variable {s t : Server} {c : WlClient} {r : WlResource} {g : Global} {x : Resource}

theorem resource?_new (hx : x.live = true) :
    (s.addResource x).resource? s.resources.length = some x := by
  unfold resource?
  rw [getElem?_addResource, if_pos rfl, Option.filter_some, if_pos hx]

/-- A new resource leaves the client's resources as they are. -/
theorem resources_addResource (h : s.clientOf r = some c) :
    (s.addResource x).resources[r]? = s.resources[r]? := by
  rw [getElem?_addResource, if_neg (Nat.ne_of_lt (lt_of_clientOf h))]

/-- Others leave an unused surface unused. -/
theorem Undisturbed.unused {ds : List Call} (h : Undisturbed c s t ds) {z : Surface}
    (hz : s.surfacesOf c = [z]) (hunused : z.Unused) :
    ∃ z', t.surfacesOf c = [z'] ∧ z'.this = z.this ∧ z'.mResource = z.mResource ∧ z'.Unused := by
  have hstill := h.surfaces
  rw [hz, List.map_singleton, List.map_eq_singleton_iff] at hstill
  obtain ⟨z', hz', hsame⟩ := hstill
  have hcallback : z'.mFront.callbackDone = none := by
    by_contra hsome
    obtain ⟨cb, hcb⟩ := Option.ne_none_iff_exists'.mp hsome
    obtain ⟨v, hv, hvcb⟩ := h.waiting z' (hz' ▸ List.mem_singleton_self z') cb hcb
    rw [hz] at hv
    rw [List.mem_singleton.mp hv, hunused.1] at hvcb
    cases hvcb
  have hfront : z'.mFront = z'.still.mFront := by
    unfold Surface.still
    rw [← hcallback]
  refine ⟨z', hz', (congrArg Surface.this hsame :), (congrArg Surface.mResource hsame :), ?_,
    (congrArg Surface.mBack hsame :).trans hunused.2.1,
    (congrArg Surface.mBuffersFilled hsame :).trans hunused.2.2⟩
  rw [hfront, hsame, Surface.still, hunused.1]

end Server

namespace Stands

variable {c : WlClient} {w : Starting} {t : Server} {rs : List StartRequest}

/-- The client's resources stay as they are, and so do its bindings and its buffer. -/
theorem kept (h : Stands c w)
    (hres : ∀ r, w.server.clientOf r = some c → t.resources[r]? = w.server.resources[r]?) :
    (∀ id r g, w.bound.lookup id = some r → Server.globalAt id = some g →
      t.bindingAt g r = some c) ∧
      ∀ b, w.buffer = some b → t.hasBuffer c b = true ∧ (t.shm b).isSome := by
  constructor
  · intro id r g hr hg
    have hbinding := h.bound id r g hr hg
    rw [bindingAt_congr (hres r (clientOf_of_bindingAt hbinding))]
    exact hbinding
  · intro b hb
    obtain ⟨hbuffer, hshm⟩ := h.buffer b hb
    have hkept := hres b (clientOf_of_hasBuffer hbuffer)
    rw [hasBuffer_congr hkept, shm_congr hkept]
    exact ⟨hbuffer, hshm⟩

/-- And so does its surface. -/
theorem carried (h : Stands c w)
    (hres : ∀ r, w.server.clientOf r = some c → t.resources[r]? = w.server.resources[r]?)
    (hnone : w.server.surfacesOf c = [] → t.surfacesOf c = [])
    (hone : ∀ z, w.server.surfacesOf c = [z] → z.Unused →
      ∃ z', t.surfacesOf c = [z'] ∧ z'.this = z.this ∧ z'.mResource = z.mResource ∧ z'.Unused) :
    Stands c { w with server := t } where
  bound := (h.kept hres).1
  unmade hs := hnone (h.unmade hs)
  surface r hr := by
    obtain ⟨z, hz, hzr, hunused, hwrapper⟩ := h.surface r hr
    obtain ⟨z', hz', hthis, hres', hunused'⟩ := hone z hz hunused
    refine ⟨z', hz', hres'.trans hzr, hunused', ?_⟩
    rw [hthis]
    exact (wrapperAt_congr (hres r (clientOf_of_wrapperAt hwrapper))).trans hwrapper
  buffer := (h.kept hres).2

/-- Another resource of the client, which the surface does not need. -/
theorem addResource (h : Stands c w) (x : Resource) :
    Stands c { w with server := w.server.addResource x } :=
  h.carried (fun _ hr => resources_addResource hr) (fun hnone => hnone)
    fun z hz hunused => ⟨z, hz, rfl, rfl, hunused⟩

theorem bind (h : Stands c w) (id : Nat) {g : Global} (hg : Server.globalAt id = some g)
    (hc : c ∈ w.server.clients) :
    Stands c { w with
      server := w.server.bind c g
      requests := rs
      bound := (id, w.server.resources.length) :: w.bound } := by
  rw [Server.bind, if_pos hc]
  have hnext := h.addResource
    { client := c, userData := .global g, destructor := some .hookClientDisconects }
  refine ⟨fun id' r g' hr hg' => ?_, hnext.unmade, hnext.surface, hnext.buffer⟩
  rw [List.lookup_cons] at hr
  split at hr
  · next hid =>
    obtain rfl : id' = id := by simpa using hid
    obtain rfl := Option.some.inj hr
    obtain rfl := Option.some.inj (hg.symm.trans hg')
    show Server.bindingAt _ g _ = some c
    unfold bindingAt
    rw [resource?_new rfl, Option.bind_some, if_pos rfl]
  · exact hnext.bound id' r g' hr hg'

theorem createBuffer (h : Stands c w) (b : ShmBuffer) (hc : c ∈ w.server.clients) :
    Stands c { w with
      server := w.server.createBuffer c (some b)
      requests := rs
      buffer := some w.server.resources.length } := by
  rw [Server.createBuffer, if_pos hc]
  have hnext := h.addResource { client := c, userData := .buffer (some b) }
  refine ⟨hnext.bound, hnext.unmade, hnext.surface, fun b' hb' => ?_⟩
  obtain rfl := Option.some.inj hb'
  constructor
  · show Server.hasBuffer _ c _ = true
    unfold hasBuffer
    rw [resource?_new rfl]
    simp [UserData.isBuffer]
  · show (Server.shm _ _).isSome
    unfold Server.shm
    rw [getElem?_addResource, if_pos rfl]
    rfl

theorem createSurface (h : Stands c w) (hs : w.surface = none) {r : WlResource}
    (hr : w.server.bindingAt .compositor r = some c) :
    ∃ t, w.server.createSurface r = ⟨[.new ⟨.surface, w.server.nextAddress⟩ c], .ok t⟩ ∧
      Stands c { w with
        server := t
        requests := rs
        surface := some w.server.resources.length } := by
  refine ⟨_, by rw [Server.createSurface, hr]; rfl, ?_⟩
  have hkept := h.kept (t := (w.server.create .surface c).setSurfaces
      (w.server.mCompositor.mSurfacesList ++ [some (Surface.construct w.server.nextAddress
        w.server.resources.length c (some .compositor))])) fun _ hr => resources_addResource hr
  refine ⟨hkept.1, fun hnone => ?_, fun r' hr' => ?_, hkept.2⟩
  · cases hnone
  obtain rfl := Option.some.inj hr'
  refine ⟨Surface.construct w.server.nextAddress w.server.resources.length c (some .compositor),
    ?_, rfl, ⟨rfl, rfl, rfl⟩, ?_⟩
  · show (contents (_ ++ [some _])).filter _ = _
    rw [contents_append, List.filter_append]
    show w.server.surfacesOf c ++ _ = _
    rw [h.unmade hs]
    simp [contents, Surface.construct]
  · show Server.wrapperAt (Server.create _ _ _) _ _ = _
    unfold wrapperAt Server.create
    rw [resource?_new rfl]
    rfl

end Stands

/-! ## Whole starts -/

/-- The first `k` requests of the client have arrived. -/
structure Starting.Got (k : Nat) (w : Starting) : Prop where
  requests : w.requests = startRequests.drop k
  compositor : 1 ≤ k → (w.bound.lookup 1).isSome
  surface : w.surface.isSome ↔ 4 ≤ k
  buffer : 5 ≤ k → w.buffer.isSome

/-- Where a client comes to while it starts. -/
structure Comes (blend : Blend) (width height : Int) (c : WlClient) (w : Starting) : Prop where
  reached : ∃ as cs, (lifetimeMachine blend width height).Reaches as cs w.server
  connected : c ∈ w.server.clients
  stands : Stands c w
  got : ∃ k, w.Got k

namespace Comes

variable {blend : Blend} {width height : Int} {c : WlClient} {w w' : Starting} {s t : Server}
  {ds : List Call}

theorem start {as : List LifetimeAction} {cs : List Call}
    (hs : (lifetimeMachine blend width height).Reaches as cs s) (hrun : s.running = true) :
    Comes blend width height s.nextClient (startMachine blend s).init where
  reached := by
    have hconnect : (lifetimeMachine blend width height).step s (.serve .connect) =
        ⟨[], .ok s.connect⟩ := if_pos hrun
    exact ⟨_, _, hs.snoc hconnect⟩
  connected := List.mem_append_right _ (List.mem_singleton_self _)
  stands := by
    have hnone := (reaches_numbered hs hrun).surfacesOf_newcomer (reaches_separate hs)
    exact ⟨fun _ _ _ hr => (nomatch hr), fun _ => hnone, fun _ hr => (nomatch hr),
      fun _ hb => (nomatch hb)⟩
  got := ⟨0, rfl, fun h => (nomatch h), by simp [startMachine], fun h => (nomatch h)⟩

/-- Whoever acted, the client is connected and the server in a reached state. -/
theorem next (h : Comes blend width height c w) {act : LifetimeAction}
    (hact : act ≠ .forget c) (hstep : w.server.lifetime blend act = ⟨ds, .ok t⟩)
    {v : Starting} (hv : Stands c { v with server := t })
    (hgot : ∃ k, Starting.Got k { v with server := t }) :
    Comes blend width height c { v with server := t } := by
  obtain ⟨as, cs, hreached⟩ := h.reached
  exact ⟨⟨_, _, hreached.snoc hstep⟩,
    connected_lifetime h.connected hact hstep, hv, hgot⟩

/-- Others do something. -/
theorem others (h : Comes blend width height c w) {act : LifetimeAction}
    (hother : ¬ (w.server.actor act = some c ∨ act = .forget c))
    (hstep : w.server.lifetime blend act = ⟨ds, .ok t⟩) (hrun : t.running = true) :
    Comes blend width height c { w with server := t } := by
  obtain ⟨hactor, hact⟩ := not_or.mp hother
  obtain ⟨as, cs, hreached⟩ := h.reached
  have hsame := (reaches_separate hreached).undisturbed_others hactor hstep hrun
  obtain ⟨k, hk⟩ := h.got
  refine h.next hact hstep (h.stands.carried (fun r hr => hsame.resources r (.inl hr)) ?_
    fun z hz hunused => hsame.unused hz hunused) ⟨k, hk.requests, hk.compositor, hk.surface,
      hk.buffer⟩
  intro hnone
  have hstill := hsame.surfaces
  rw [hnone, List.map_nil, List.map_eq_nil_iff] at hstill
  exact hstill

theorem ask_ok {v : Starting} {q : ClientRequest} (hstep : v.ask blend q = ⟨ds, .ok w'⟩)
    (hrun : w'.server.running = true) :
    ∃ t, v.server.lifetime blend (.serve (.request q)) = ⟨ds, .ok t⟩ ∧
      v.server.request q = ⟨ds, .ok t⟩ ∧ w' = { v with server := t } := by
  obtain ⟨es, t, fs, ht, hret, rfl⟩ := Exec.bind_eq_ok.mp hstep
  cases hret
  have hrequest : v.server.lifetime blend (.serve (.request q)) = v.server.request q :=
    if_pos (running_lifetime ht hrun)
  rw [List.append_nil]
  exact ⟨t, ht, hrequest.symm.trans ht, rfl⟩

/-- A global is bound. -/
theorem bind (h : Comes blend width height c w) (id : Nat) {g : Global}
    (hg : Server.globalAt id = some g) {rs : List StartRequest} {k : Nat}
    (hgot : Starting.Got k { w with
      requests := rs
      bound := (id, w.server.resources.length) :: w.bound })
    (hstep : { w with
      requests := rs
      bound := (id, w.server.resources.length) :: w.bound }.ask blend (.bind c g) = ⟨ds, .ok w'⟩)
    (hrun : w'.server.running = true) : Comes blend width height c w' := by
  obtain ⟨t, ht, hrequest, rfl⟩ := ask_ok hstep hrun
  cases hrequest
  exact h.next (by simp) ht (h.stands.bind id hg h.connected)
    ⟨k, hgot.requests, hgot.compositor, hgot.surface, hgot.buffer⟩

/-- **The client's next request arrives.** -/
theorem deliver (h : Comes blend width height c w) (hstep : w.deliver blend c = ⟨ds, .ok w'⟩)
    (hrun : w'.server.running = true) : Comes blend width height c w' := by
  obtain ⟨k, hk⟩ := h.got
  have hrequests := hk.requests
  rw [startRequests_eq] at hrequests
  unfold Starting.deliver at hstep
  match k, hk, hrequests with
  | 0, hk, hrequests =>
    rw [List.drop_zero] at hrequests
    simp only [hrequests] at hstep
    refine h.bind 1 (g := .compositor) rfl (k := 1) ?_ hstep hrun
    exact ⟨rfl, fun _ => rfl, hk.surface.trans (by omega), by omega⟩
  | 1, hk, hrequests =>
    simp only [List.drop_succ_cons, List.drop_zero] at hrequests
    simp only [hrequests] at hstep
    refine h.bind 2 (g := .shell) rfl (k := 2) ?_ hstep hrun
    exact ⟨rfl, fun _ => hk.compositor (by omega), hk.surface.trans (by omega), by omega⟩
  | 2, hk, hrequests =>
    simp only [List.drop_succ_cons, List.drop_zero] at hrequests
    simp only [hrequests] at hstep
    -- what is bound for shared memory is libwayland's, and the server does not see it
    cases hstep
    exact ⟨h.reached, h.connected, ⟨h.stands.bound, h.stands.unmade, h.stands.surface,
      h.stands.buffer⟩, 3, rfl, fun _ => hk.compositor (by omega), hk.surface.trans (by omega),
      by omega⟩
  | 3, hk, hrequests =>
    simp only [List.drop_succ_cons, List.drop_zero] at hrequests
    obtain ⟨r, hr⟩ := Option.isSome_iff_exists.mp (hk.compositor (by omega))
    simp only [hrequests, hr] at hstep
    obtain ⟨t, ht, hrequest, rfl⟩ := ask_ok hstep hrun
    have hnone : w.surface = none := by
      rw [← Option.not_isSome_iff_eq_none, hk.surface]
      omega
    obtain ⟨u, hu, hstands⟩ := h.stands.createSurface hnone
      (h.stands.bound 1 r .compositor hr rfl)
    cases hrequest.symm.trans hu
    exact h.next (by simp) ht hstands ⟨4, rfl, fun _ => hk.compositor (by omega), by simp, by omega⟩
  | 4, hk, hrequests =>
    simp only [List.drop_succ_cons, List.drop_zero] at hrequests
    simp only [hrequests] at hstep
    obtain ⟨t, ht, hrequest, rfl⟩ := ask_ok hstep hrun
    cases hrequest
    exact h.next (by simp) ht (h.stands.createBuffer _ h.connected)
      ⟨5, rfl, fun _ => hk.compositor (by omega), hk.surface.trans (by omega), fun _ => rfl⟩
  | k + 5, hk, hrequests =>
    have hnil : w.requests = [] := by
      rw [hrequests]
      exact List.drop_eq_nil_of_le (Nat.le_add_left 5 k)
    simp only [hnil] at hstep
    cases hstep
    exact h

/-- A server that runs after an action ran before it. -/
theorem running_act {a : StartAction} (hstep : w.act blend c a = ⟨ds, .ok w'⟩)
    (hrun : w'.server.running = true) : w.server.running = true := by
  have hask : ∀ {v : Starting} {q : ClientRequest}, v.ask blend q = ⟨ds, .ok w'⟩ →
      v.server.running = true := fun h => by
    obtain ⟨t, ht, -, rfl⟩ := ask_ok h hrun
    exact running_lifetime ht hrun
  cases a with
  | deliver =>
    change w.deliver blend c = _ at hstep
    unfold Starting.deliver at hstep
    split at hstep
    · cases hstep
      exact hrun
    · split at hstep
      · cases hstep
        exact hrun
      · exact (hask hstep :)
    · split at hstep
      · cases hstep
        exact hrun
      · exact (hask hstep :)
    · exact (hask hstep :)
  | other act =>
    unfold Starting.act at hstep
    simp only at hstep
    split at hstep
    · cases hstep
      exact hrun
    · obtain ⟨_, t, _, ht, hret, -⟩ := Exec.bind_eq_ok.mp hstep
      cases hret
      exact running_lifetime ht hrun

/-- **Every state of a start.** -/
theorem reaches {as : List LifetimeAction} {cs : List Call}
    (hs : (lifetimeMachine blend width height).Reaches as cs s) (hrun : s.running = true)
    {bs : List StartAction} (hw : (startMachine blend s).Reaches bs ds w)
    (hrunning : w.server.running = true) : Comes blend width height s.nextClient w := by
  refine hw.induct (P := fun _ _ w => w.server.running = true →
    Comes blend width height s.nextClient w) (fun _ => start hs hrun) ?_ hrunning
  intro bs ds w a es w' _ ih hstep hafter
  have hcomes := ih (running_act hstep hafter)
  cases a with
  | deliver => exact hcomes.deliver hstep hafter
  | other act =>
    change w.act blend s.nextClient (.other act) = _ at hstep
    unfold Starting.act at hstep
    simp only at hstep
    split at hstep
    · cases hstep
      exact hcomes
    · next hother =>
      obtain ⟨_, t, _, ht, hret, rfl⟩ := Exec.bind_eq_ok.mp hstep
      cases hret
      exact hcomes.others hother ht hafter

end Comes

/-- The requests of a client that starts are served. -/
theorem Starting.deliver_ok (blend : Blend) (c : WlClient) (w : Starting) :
    ∃ ds w', w.deliver blend c = ⟨ds, .ok w'⟩ ∧ w'.requests = w.requests.tail := by
  have hask : ∀ (v : Starting) (q : ClientRequest), (∃ ds t, v.server.request q = ⟨ds, .ok t⟩) →
      ∃ ds w', v.ask blend q = ⟨ds, .ok w'⟩ ∧ w'.requests = v.requests := by
    rintro v q ⟨ds, t, ht⟩
    unfold ask Server.lifetime
    split
    · refine ⟨ds ++ [], { v with server := t }, ?_, rfl⟩
      exact Exec.bind_eq_ok.mpr ⟨ds, t, [], ht, rfl, rfl⟩
    · exact ⟨[], v, rfl, rfl⟩
  unfold deliver
  split
  · next hr => exact ⟨[], w, rfl, by rw [hr]; rfl⟩
  · next id rs hr =>
    rw [hr]
    split
    · exact ⟨[], _, rfl, rfl⟩
    · exact hask _ _ ⟨[], _, rfl⟩
  · next id rs hr =>
    rw [hr]
    split
    · exact ⟨[], _, rfl, rfl⟩
    · next r _ =>
      refine hask _ _ ?_
      show ∃ ds t, w.server.createSurface r = ⟨ds, .ok t⟩
      unfold Server.createSurface
      split
      · exact ⟨[], _, rfl⟩
      · exact ⟨_, _, rfl⟩
  · next b rs hr =>
    rw [hr]
    exact hask _ _ ⟨[], _, rfl⟩

/-- A client that has started is hosted. -/
theorem Comes.hosting {blend : Blend} {width height : Int} {c : WlClient} {w : Starting}
    (h : Comes blend width height c w) (hdone : w.requests = []) :
    ∃ h : Hosting, h.blend = blend ∧ h.server = w.server ∧ h.client = c ∧
      w.surface = some h.surface.mResource ∧ ∃ b, w.buffer = some b ∧ h.handles = [b] := by
  obtain ⟨as, cs, hreached⟩ := h.reached
  obtain ⟨k, hk⟩ := h.got
  have hall : 5 ≤ k := by
    have hnil := hk.requests
    rw [hdone, startRequests_eq] at hnil
    exact List.drop_eq_nil_iff.mp hnil.symm
  obtain ⟨r, hr⟩ := Option.isSome_iff_exists.mp (hk.surface.mpr (by omega))
  obtain ⟨b, hb⟩ := Option.isSome_iff_exists.mp (hk.buffer hall)
  obtain ⟨z, hz, rfl, hunused, hwrapper⟩ := h.stands.surface r hr
  obtain rfl : z.mClient = c := by
    have hmem : z ∈ w.server.surfacesOf c := hz ▸ List.mem_singleton_self z
    exact of_decide_eq_true (List.mem_filter.mp hmem).2
  refine ⟨{
    blend := blend
    width := width
    height := height
    before := as
    calls := cs
    server := w.server
    reached := hreached
    surface := z
    only := hz
    unused := hunused
    bound := hwrapper
    handles := [b]
    nodup := List.nodup_singleton b
    isShm := fun b' hb' => by
      obtain rfl := List.mem_singleton.mp hb'
      exact h.stands.buffer b' hb
    firstCallback := 0 }, rfl, rfl, rfl, hr, b, hb, rfl⟩

/-- **A client starts, and is hosted then.** On any server that runs, whatever other clients do
before, in between and afterwards: the next request of a client that starts is always served; and
once all have arrived, the client has one surface and its buffer, and is from then on where a client
with a server of its own would be. -/
theorem client_starts_hosted (blend : Blend) (width height : Int) (as : List LifetimeAction)
    (cs ds : List Call) (s : Server) (bs : List StartAction) (w : Starting)
    (hs : (lifetimeMachine blend width height).Reaches as cs s) (hrun : s.running = true)
    (hw : (startMachine blend s).Reaches bs ds w) (hrunning : w.server.running = true) :
    (∃ es w', (startMachine blend s).step w .deliver = ⟨es, .ok w'⟩ ∧
      w'.requests = w.requests.tail) ∧
    (w.requests = [] → ∃ h : Hosting, h.blend = blend ∧ h.server = w.server ∧
      h.client = s.nextClient ∧ w.surface = some h.surface.mResource ∧
      (∃ b, w.buffer = some b ∧ h.handles = [b]) ∧
      ∀ as ms v, (hostedMachine h).Reaches as ms v → v.server.running = true →
        ∃ bs ns l, (linkMachine h.setup).Reaches bs ns l ∧ (v.link h).Mirrors l) := by
  refine ⟨Starting.deliver_ok blend s.nextClient w, fun hdone => ?_⟩
  obtain ⟨h, hblend, hserver, hclient, hsurface, hbuffer⟩ :=
    (Comes.reaches hs hrun hw hrunning).hosting hdone
  refine ⟨h, hblend, hserver, hclient, hsurface, hbuffer, fun as ms v hv hrunv => ?_⟩
  obtain ⟨bs, ns, l, hl, hR⟩ := (hosted_simulation h).reaches hv
  exact ⟨bs, ns, l, hl, (hR hrunv).mirrors⟩

/-- One client connects, binds the compositor and makes a surface, and leaves, while another one
starts. -/
def startingBeside : List StartAction :=
  [.deliver, .other (.serve .connect), .deliver, .other (.serve (.request (.bind 1 .compositor))),
    .deliver, .other (.serve .repaint), .deliver,
    .other (.serve (.request (.createSurface 2))), .other (.destroyResource 4),
    .other (.destroyResource 2), .other (.forget 1), .deliver]

theorem client_starts_hosted_startingBeside :
    ∃ ds w, (startMachine integerBlend (Server.start 1 1)).Reaches startingBeside ds w ∧
      ∃ h : Hosting, h.server = w.server ∧ h.client = 0 ∧ h.surface.mResource = 3 ∧
        h.handles = [5] := by
  obtain ⟨h, -, hserver, hclient, hsurface, ⟨b, hb, hhandles⟩, -⟩ :=
    (client_starts_hosted integerBlend 1 1 [] [] _ (Server.start 1 1) startingBeside _ rfl rfl rfl
      rfl).2 rfl
  cases hb
  exact ⟨_, _, rfl, h, hserver, hclient, (Option.some.inj hsurface).symm, hhandles⟩

end WaylandTest
