import WaylandTest.Server.OneSurface
import WaylandTest.Link.Mirrors

/-!
# A connection in the whole server

The connection of `Link/Basic.lean` has a surface of its own at the server's end. Here that end is
the whole server: the client's requests are dispatched to its surface among all surfaces, the server
does anything else in between (it serves other clients, repaints all surfaces, moves the pointers,
destroys what others have), and the client receives those of the server's events that are for it.

`Follows` relates the two, and `hosted_simulation` is the refinement: what a client sees of the
whole server is what it would see of a server of its own. So what is proved of the connection holds
of the connections of all clients, whatever the others do (`hosted_buffers_in_one_place`).
-/

set_option autoImplicit false

namespace WaylandTest

open Lib Client Server

/-- The surface is as it was made. -/
def Surface.Unused (z : Surface) : Prop := z.mFront = {} ∧ z.mBack = {} ∧ z.mBuffersFilled = 0

/-- A client in a state that the server reached: it has one surface, which it has not used yet, and
its buffers. -/
structure Hosting where
  blend : Blend
  width : Int
  height : Int
  before : List LifetimeAction
  calls : List Call
  server : Server
  reached : (lifetimeMachine blend width height).Reaches before calls server
  surface : Surface
  only : server.surfacesOf surface.mClient = [surface]
  unused : surface.Unused
  bound : server.wrapperAt .surface surface.mResource = some (surface.this, surface.mClient)
  handles : List WlResource
  nodup : handles.Nodup
  isShm : ∀ b ∈ handles, server.hasBuffer surface.mClient b = true ∧ (server.shm b).isSome
  firstCallback : WlResource

namespace Hosting

def client (h : Hosting) : WlClient := h.surface.mClient

/-- The client with a server of its own. -/
def setup (h : Hosting) : Setup h.server.shm where
  handles := h.handles
  nodup := h.nodup
  isShm b hb := (h.isShm b hb).2
  firstCallback := h.firstCallback
  this := h.surface.this
  resource := h.surface.mResource
  client := h.surface.mClient
  listener := h.surface.mDestroyListener

end Hosting

/-- The whole server, the client's end, and what is in flight between them. -/
structure Hosted where
  server : Server
  buffers : List WaylandBuffer
  nextCallback : WlResource
  requests : List Request := []
  events : List Event := []

/-- What can happen next: the client redraws or takes in an event, its first request arrives, or
somebody else does something. -/
inductive HostedAction
  | redraw (buffer : WlResource)
  | deliverRequest
  | deliverEvent
  | other (act : LifetimeAction)

/-- The request as the server gets it, for the surface behind the handle. -/
def Client.Request.sent (surface : WlResource) : Request → Option ClientRequest
  | .attach b x y => some (.surfaceAttach surface (some b) x y)
  | .damage _ _ _ _ => none
  | .frame _ => some (.surfaceFrame surface)
  | .commit => some (.surfaceCommit surface)

namespace Hosted

/-- The start: every buffer is ready, nothing is in flight. -/
def start (h : Hosting) : Hosted where
  server := h.server
  buffers := h.handles.map fun b => { mBuffer := b }
  nextCallback := h.firstCallback

/-- The connection, with the client's surface for the server's end. -/
def link (h : Hosting) (w : Hosted) : Link where
  buffers := w.buffers
  nextCallback := w.nextCallback
  requests := w.requests
  surface := (w.server.surfacesOf h.client).head?.getD h.surface
  events := w.events

/-- What an action of the client leaves. -/
def withLink (w : Hosted) (l : Link) : Hosted :=
  { w with
    buffers := l.buffers
    nextCallback := l.nextCallback
    requests := l.requests
    events := l.events }

/-- The server does something, and the client is sent what is for it. -/
def serve (h : Hosting) (w : Hosted) (act : LifetimeAction) : Exec Mark Fault Hosted :=
  match w.server.lifetime h.blend act with
  | ⟨_, .error e⟩ => ⟨[], .error e⟩
  | ⟨ds, .ok s⟩ => ⟨[], .ok { w with server := s, events := w.events ++ s.eventsFor h.client ds }⟩

/-- One action. What the client does by itself it does on the connection; what is done by others is
not the client's. -/
def act (h : Hosting) (w : Hosted) : HostedAction → Exec Mark Fault Hosted
  | .redraw b =>
    ⟨((w.link h).redraw b).2, .ok (w.withLink ((w.link h).redraw b).1)⟩
  | .deliverEvent => ⟨[], .ok (w.withLink (w.link h).deliverEvent)⟩
  | .deliverRequest =>
    match w.requests with
    | [] => ⟨[], .ok w⟩
    | r :: rs =>
      match r.sent h.surface.mResource with
      | none => ⟨[], .ok { w with requests := rs }⟩
      | some q => { w with requests := rs }.serve h (.serve (.request q))
  | .other act => if w.server.actor act = some h.client then ⟨[], .ok w⟩ else w.serve h act

end Hosted

theorem Hosted.serve_ok {h : Hosting} {w w' : Hosted} {act : LifetimeAction} {ms : List Mark}
    (hstep : w.serve h act = ⟨ms, .ok w'⟩) :
    ∃ ds t, w.server.lifetime h.blend act = ⟨ds, .ok t⟩ ∧
      w' = { w with server := t, events := w.events ++ t.eventsFor h.client ds } := by
  unfold Hosted.serve at hstep
  split at hstep
  · cases hstep
  · next ds t ht =>
    cases hstep
    exact ⟨ds, t, ht, rfl⟩

/-- The marks of a run are what the client does; the server adds none. -/
theorem Hosted.calls_serve (h : Hosting) (w : Hosted) (act : LifetimeAction) :
    (w.serve h act).calls = [] := by
  unfold Hosted.serve
  split <;> rfl

theorem Hosted.calls_deliverRequest (h : Hosting) (w : Hosted) :
    (w.act h .deliverRequest).calls = [] := by
  unfold Hosted.act
  cases w.requests with
  | nil => rfl
  | cons r rs =>
    cases hq : r.sent h.surface.mResource with
    | none => simp only [hq]
    | some q => simp only [hq, calls_serve]

theorem Hosted.calls_other (h : Hosting) (w : Hosted) (act : LifetimeAction) :
    (w.act h (.other act)).calls = [] := by
  show (if w.server.actor act = some h.client then _ else w.serve h act : Exec _ _ _).calls = []
  split
  · rfl
  · exact calls_serve h w act

/-- A client of the whole server. -/
def hostedMachine (h : Hosting) : Machine Mark Fault Hosted HostedAction where
  init := Hosted.start h
  step := Hosted.act h

/-! ## What the server keeps for the client -/

namespace Server

variable {s t : Server} {c : WlClient} {r : WlResource}

theorem wrapperAt_congr {kind : WrapperClass} (h : t.resources[r]? = s.resources[r]?) :
    t.wrapperAt kind r = s.wrapperAt kind r := by
  unfold wrapperAt resource?
  rw [h]

theorem bindingAt_congr {g : Global} (h : t.resources[r]? = s.resources[r]?) :
    t.bindingAt g r = s.bindingAt g r := by
  unfold bindingAt resource?
  rw [h]

theorem hasBuffer_congr (h : t.resources[r]? = s.resources[r]?) :
    t.hasBuffer c r = s.hasBuffer c r := by
  unfold hasBuffer resource?
  rw [h]

theorem shm_congr (h : t.resources[r]? = s.resources[r]?) : t.shm r = s.shm r := by
  unfold Server.shm
  rw [h]

theorem lt_of_clientOf (h : s.clientOf r = some c) : r < s.resources.length := by
  obtain ⟨x, hx, -⟩ := Option.map_eq_some_iff.mp h
  exact lt_of_getElem? hx

/-- The client's resources stay as they are. -/
def Retains (c : WlClient) (s t : Server) : Prop :=
  ∀ r, s.clientOf r = some c → t.resources[r]? = s.resources[r]?

theorem Retains.refl (c : WlClient) (s : Server) : s.Retains c s := fun _ _ => rfl

/-- New resources leave the others as they are. -/
theorem retains_append (xs : List Resource) (h : t.resources = s.resources ++ xs) :
    Retains c s t := by
  intro r hr
  rw [h, List.getElem?_append_left (lt_of_clientOf hr)]

end Server

/-- The hosted client is where the client with a server of its own is. -/
structure Follows (h : Hosting) (w : Hosted) (l : Link) : Prop where
  separate : ∃ cs, Separate cs w.server
  bound : w.server.wrapperAt .surface h.surface.mResource = some (h.surface.this, h.client)
  isShm : ∀ b ∈ h.handles, w.server.hasBuffer h.client b = true ∧ (w.server.shm b).isSome
  only : ∃ z, w.server.surfacesOf h.client = [z] ∧ z.this = h.surface.this
  owned : Link.Owned h.setup l
  mirrors : (w.link h).Mirrors l

namespace Follows

variable {h : Hosting} {w : Hosted} {l : Link}

theorem start (h : Hosting) : Follows h (Hosted.start h) (Link.start h.setup) where
  separate := ⟨h.calls, reaches_separate h.reached⟩
  bound := h.bound
  isShm := h.isShm
  only := ⟨h.surface, h.only, rfl⟩
  owned := Link.owned_start h.setup
  mirrors := by
    have hsurface : (h.server.surfacesOf h.client).head?.getD h.surface = h.surface := by
      rw [Hosting.client, h.only]
      rfl
    refine ⟨rfl, rfl, rfl, ?_, rfl⟩
    show ((h.server.surfacesOf h.client).head?.getD h.surface).Mirrors _
    rw [hsurface]
    obtain ⟨hfront, hback, hfilled⟩ := h.unused
    exact ⟨by rw [hfront]; rfl, by rw [hback]; rfl, hfilled⟩

/-- The server still has the client's surface behind its handle, and the client's buffers. -/
theorem kept (hf : Follows h w l) {t : Server} (hretains : Retains h.client w.server t) :
    t.wrapperAt .surface h.surface.mResource = some (h.surface.this, h.client) ∧
      ∀ b ∈ h.handles, t.hasBuffer h.client b = true ∧ (t.shm b).isSome := by
  constructor
  · rw [wrapperAt_congr (hretains _ (clientOf_of_wrapperAt hf.bound))]
    exact hf.bound
  · intro b hb
    obtain ⟨hbuffer, hshm⟩ := hf.isShm b hb
    have hsame := hretains b (clientOf_of_hasBuffer hbuffer)
    rw [hasBuffer_congr hsame, shm_congr hsame]
    exact ⟨hbuffer, hshm⟩

theorem surface_eq {z : Surface} (hz : w.server.surfacesOf h.client = [z]) :
    (w.link h).surface = z := by
  show (w.server.surfacesOf h.client).head?.getD h.surface = z
  rw [hz]
  rfl

/-- The client does something by itself. -/
theorem withLink (hf : Follows h w l) {l₁ l₂ : Link} (hsurface : l₁.surface = (w.link h).surface)
    (hmirrors : l₁.Mirrors l₂) (ho : Link.Owned h.setup l₂) : Follows h (w.withLink l₁) l₂ where
  separate := hf.separate
  bound := hf.bound
  isShm := hf.isShm
  only := hf.only
  owned := ho
  mirrors := by
    have hsame : (w.withLink l₁).link h = l₁ := by
      show ({ l₁ with surface := (w.link h).surface } : Link) = l₁
      rw [← hsurface]
    rw [hsame]
    exact hmirrors

/-- The server's end is in another state. -/
theorem link_served {z : Surface} {t : Server} {rs : List Request} {es : List Event}
    (hz : t.surfacesOf h.client = [z]) :
    ({ w with server := t, requests := rs, events := w.events ++ es } : Hosted).link h =
      { w.link h with requests := rs, surface := z, events := (w.link h).events ++ es } := by
  show ({ w.link h with
    requests := rs
    surface := (t.surfacesOf h.client).head?.getD h.surface
    events := w.events ++ es } : Link) = _
  rw [hz]
  rfl

/-- Others do something. -/
theorem others (hf : Follows h w l) {act : LifetimeAction} {ds : List Call} {t : Server}
    (hact : w.server.actor act ≠ some h.client)
    (hstep : w.server.lifetime h.blend act = ⟨ds, .ok t⟩) (hrun : t.running = true) :
    (∃ l', (l' = l ∨ l' = l.repaint h.server.shm) ∧
      Follows h { w with server := t, events := w.events ++ t.eventsFor h.client ds } l') ∧
      Retains h.client w.server t := by
  obtain ⟨cs, hsep⟩ := hf.separate
  obtain ⟨z, hz, hthis⟩ := hf.only
  obtain ⟨hres, z', hshift, hcases⟩ := hsep.others_step hz hact hstep hrun
  obtain ⟨hbound, hshm⟩ := hf.kept hres
  refine ⟨?_, hres⟩
  have hsurface := hf.mirrors.surface
  rw [surface_eq hz] at hsurface
  have hmirrors : z'.Mirrors l.surface := by
    rw [hshift]
    exact ⟨hsurface.front, hsurface.back, hsurface.filled⟩
  rcases hcases with ⟨ht, hnone⟩ | ⟨ht, hsent⟩
  · refine ⟨l, .inl rfl, ⟨_, hsep.lifetime hstep⟩, hbound, hshm,
      ⟨z', ht, hshift.this.trans hthis⟩, hf.owned, ?_⟩
    rw [hnone, link_served ht, List.append_nil]
    exact ⟨hf.mirrors.buffers, hf.mirrors.nextCallback, hf.mirrors.requests, hmirrors,
      hf.mirrors.events⟩
  · have hthis' : (z'.repainted w.server.shm).1.this = h.surface.this :=
      (Surface.this_of_identity Surface.identity_repainted).trans (hshift.this.trans hthis)
    refine ⟨l.repaint h.server.shm, .inr rfl, ⟨_, hsep.lifetime hstep⟩, hbound, hshm,
      ⟨_, ht, hthis'⟩, hf.owned.repaint, ?_⟩
    obtain ⟨hz', hsent'⟩ := hmirrors.repainted w.server.shm h.server.shm
      (hmirrors.symm.consistent hf.owned.consistent)
    rw [hsent, link_served ht]
    have hserved := hf.mirrors.served l.requests hz' hsent'
    exact ⟨hserved.buffers, hserved.nextCallback, hf.mirrors.requests, hserved.surface,
      hserved.events⟩

/-! ## The client's own requests -/

/-- A handler of the client's surface gets it. -/
theorem onSurface_eq (hf : Follows h w l) {z : Surface} (hz : w.server.surfacesOf h.client = [z])
    (hthis : z.this = h.surface.this) (handler : Surface → WlClient → Exec Call Fault Server) :
    w.server.onSurface h.surface.mResource handler = handler z h.client := by
  obtain ⟨cs, hsep⟩ := hf.separate
  have hmem : z ∈ w.server.surfaces := List.mem_of_mem_filter (hz ▸ List.mem_singleton_self z)
  obtain ⟨y, hy⟩ := exists_surface? hmem hthis
  obtain rfl : y = z := List.inj_on_of_nodup_map hsep.owned.nodup_surfaces
    (List.mem_of_find?_eq_some hy) hmem ((surface?_this hy).trans hthis.symm)
  rw [onSurface, hf.bound]
  show (Exec.ofOption Fault.useAfterFree (w.server.surface? h.surface.this) >>= _) = _
  rw [hy]
  rfl

/-- An operation on the only surface of a client. -/
theorem surfacesOf_perform {s : Server} {c : WlClient} {z : Surface} (hz : s.surfacesOf c = [z])
    (shm : ShmTable) (op : SurfaceOp) :
    (s.updateSurface z.this fun y => (y.perform shm op).1).surfacesOf c =
      [(z.perform shm op).1] := by
  have hclient : ((fun y : Surface => decide (y.mClient = c)) ∘ fun y : Surface =>
      if y.this = z.this then (y.perform shm op).1 else y) = fun y => decide (y.mClient = c) := by
    funext y
    have hsame : (y.perform shm op).1.mClient = y.mClient :=
      Surface.mClient_of_identity (Surface.identity_perform op)
    by_cases hy : y.this = z.this
    · simp only [Function.comp_apply, hy, if_true, hsame]
    · simp only [Function.comp_apply, hy, if_false]
  rw [surfacesOf, surfaces_updateSurface, List.filter_map, hclient]
  show List.map _ (s.surfacesOf c) = _
  rw [hz, List.map_singleton, if_pos rfl]

/-- The operation of the client's first request reaches its surface. -/
theorem performed (hf : Follows h w l) {z : Surface} (hz : w.server.surfacesOf h.client = [z])
    (hthis : z.this = h.surface.this) (q : ClientRequest) (op : SurfaceOp) {u : Server}
    {xs : List Resource} (hu : u = { w.server with resources := w.server.resources ++ xs })
    (hq : w.server.sender q = some h.client) (hrequest : w.server.request q = u.performOn z op)
    {ds : List Call} {t : Server}
    (hstep : w.server.lifetime h.blend (.serve (.request q)) = ⟨ds, .ok t⟩)
    (hrun : t.running = true) {r : Request} {rs : List Request} (hr : w.requests = r :: rs)
    (halike : (z.perform u.shm op).1.Mirrors (Link.serve h.server.shm l.surface r).1 ∧
      SendAlike (z.perform u.shm op).2 (Link.serve h.server.shm l.surface r).2) :
    Follows h { w with
      server := t
      requests := rs
      events := w.events ++ t.eventsFor h.client ds } (l.deliverRequest h.server.shm) ∧
      Retains h.client w.server t := by
  obtain ⟨cs, hsep⟩ := hf.separate
  have hactor : w.server.actor (.serve (.request q)) = some h.client := hq
  have hconfined := hsep.confined_lifetime hactor hstep
  have hnext := hsep.lifetime hstep
  have hrunning := running_lifetime hstep hrun
  have hone : u.surfacesOf h.client = [z] := by
    rw [hu]
    exact hz
  unfold Server.lifetime at hstep
  rw [if_pos hrunning] at hstep
  change w.server.request q = _ at hstep
  rw [hrequest, performOn_eq] at hstep
  cases hstep
  have hafter := surfacesOf_perform hone u.shm op
  have hretains : Retains h.client w.server
      (u.updateSurface z.this fun y => (y.perform u.shm op).1) := retains_append xs (by
    rw [hu]
    rfl)
  obtain ⟨hbound, hshm⟩ := hf.kept hretains
  refine ⟨⟨⟨_, hnext⟩, hbound, hshm, ⟨_, hafter, ?_⟩, hf.owned.deliverRequest, ?_⟩, hretains⟩
  · exact (Surface.this_of_identity (Surface.identity_perform op)).trans hthis
  · rw [link_served hafter, hconfined.eventsFor_self,
      Link.deliverRequest_cons (hf.mirrors.requests.symm.trans hr)]
    exact hf.mirrors.served rs halike.1 halike.2

/-- **The client's first request arrives**, at the server and on the connection. -/
theorem deliverRequest (hf : Follows h w l) {ms : List Mark} {w' : Hosted}
    (hstep : w.act h .deliverRequest = ⟨ms, .ok w'⟩) (hrun : w'.server.running = true) :
    Follows h w' (l.deliverRequest h.server.shm) ∧ Retains h.client w.server w'.server := by
  obtain ⟨z, hz, hthis⟩ := hf.only
  have hmirrors := hf.mirrors.surface
  rw [surface_eq hz] at hmirrors
  have hown : w.server.clientOf h.surface.mResource = some h.client :=
    clientOf_of_wrapperAt hf.bound
  unfold Hosted.act at hstep
  cases hr : w.requests with
  | nil =>
    simp only [hr] at hstep
    cases hstep
    rw [Link.deliverRequest_nil (hf.mirrors.requests.symm.trans hr)]
    exact ⟨hf, .refl _ _⟩
  | cons r rs =>
    simp only [hr] at hstep
    have hrl : l.requests = r :: rs := hf.mirrors.requests.symm.trans hr
    have hsame : w.server = { w.server with resources := w.server.resources ++ [] } := by
      rw [List.append_nil]
    cases r with
    | damage x y width height =>
      cases hstep
      refine ⟨⟨hf.separate, hf.bound, hf.isShm, hf.only, hf.owned.deliverRequest, ?_⟩,
        .refl _ _⟩
      rw [Link.deliverRequest_cons hrl]
      refine ⟨hf.mirrors.buffers, hf.mirrors.nextCallback, rfl, hf.mirrors.surface, ?_⟩
      show _ = (l.events ++ []).map Event.anon
      rw [List.append_nil]
      exact hf.mirrors.events
    | attach b x y =>
      obtain ⟨ds, t, ht, rfl⟩ := Hosted.serve_ok hstep
      have hb : b ∈ h.handles :=
        hf.owned.attached (.attach b x y) (hrl ▸ List.mem_cons_self) b rfl
      obtain ⟨hbuffer, hshm⟩ := hf.isShm b hb
      refine hf.performed hz hthis (.surfaceAttach h.surface.mResource (some b) x y)
        (.attach (some b) x y) hsame hown ?_ ht hrun hr
        (hmirrors.surfaceAttach hshm (h.isShm b hb).2 x y)
      show w.server.onSurface h.surface.mResource _ = _
      rw [hf.onSurface_eq hz hthis]
      exact if_pos hbuffer
    | frame cb =>
      obtain ⟨ds, t, ht, rfl⟩ := Hosted.serve_ok hstep
      refine hf.performed (u := w.server.addResource { client := h.client, userData := .null })
        hz hthis (.surfaceFrame h.surface.mResource) (.frame (some w.server.resources.length)) rfl
        hown (hf.onSurface_eq hz hthis _) ht hrun hr ⟨hmirrors.surfaceFrame _ _, rfl⟩
    | commit =>
      obtain ⟨ds, t, ht, rfl⟩ := Hosted.serve_ok hstep
      exact hf.performed hz hthis (.surfaceCommit h.surface.mResource) .commit hsame hown
        (hf.onSurface_eq hz hthis _) ht hrun hr
        (hmirrors.surfaceCommit (hmirrors.symm.consistent hf.owned.consistent))

/-! ## The refinement -/

theorem running_serve {v : Hosted} {act : LifetimeAction} {ms : List Mark} {w' : Hosted}
    (hstep : v.serve h act = ⟨ms, .ok w'⟩) (hrun : w'.server.running = true) :
    v.server.running = true := by
  obtain ⟨ds, t, ht, rfl⟩ := Hosted.serve_ok hstep
  exact running_lifetime ht hrun

/-- A server that runs after an action ran before it. -/
theorem running_act {a : HostedAction} {ms : List Mark} {w' : Hosted}
    (hstep : w.act h a = ⟨ms, .ok w'⟩) (hrun : w'.server.running = true) :
    w.server.running = true := by
  cases a with
  | redraw b =>
    cases hstep
    exact hrun
  | deliverEvent =>
    cases hstep
    exact hrun
  | deliverRequest =>
    unfold Hosted.act at hstep
    cases hr : w.requests with
    | nil =>
      simp only [hr] at hstep
      cases hstep
      exact hrun
    | cons r rs =>
      simp only [hr] at hstep
      cases hq : r.sent h.surface.mResource with
      | none =>
        simp only [hq] at hstep
        cases hstep
        exact hrun
      | some q =>
        simp only [hq] at hstep
        have hbefore := running_serve hstep hrun
        exact hbefore
  | other act =>
    unfold Hosted.act at hstep
    simp only at hstep
    split at hstep
    · cases hstep
      exact hrun
    · exact running_serve hstep hrun

/-- **One action** is matched on the connection by the same action of the client, by a repaint or
by nothing. -/
theorem act (hf : Follows h w l) {a : HostedAction} {ms : List Mark} {w' : Hosted}
    (hstep : w.act h a = ⟨ms, .ok w'⟩) (hrun : w'.server.running = true) :
    ∃ as ds l', (linkMachine h.setup).runFrom l as = ⟨ds, .ok l'⟩ ∧ Follows h w' l' := by
  cases a with
  | redraw b =>
    cases hstep
    exact ⟨[.redraw b], _, _, Machine.runFrom_singleton.mpr rfl,
      hf.withLink (Link.surface_redraw b) (hf.mirrors.redraw b).1 (hf.owned.redraw b)⟩
  | deliverEvent =>
    cases hstep
    exact ⟨[.deliverEvent], _, _, Machine.runFrom_singleton.mpr rfl,
      hf.withLink Link.surface_deliverEvent hf.mirrors.deliverEvent hf.owned.deliverEvent⟩
  | deliverRequest =>
    exact ⟨[.deliverRequest], _, _, Machine.runFrom_singleton.mpr rfl,
      (hf.deliverRequest hstep hrun).1⟩
  | other act =>
    unfold Hosted.act at hstep
    simp only at hstep
    split at hstep
    · cases hstep
      exact ⟨[], [], l, rfl, hf⟩
    · next hother =>
      obtain ⟨ds, t, ht, rfl⟩ := Hosted.serve_ok hstep
      obtain ⟨⟨l', rfl | rfl, hf'⟩, -⟩ := hf.others hother ht hrun
      · exact ⟨[], [], _, rfl, hf'⟩
      · exact ⟨[.repaint], _, _, Machine.runFrom_singleton.mpr rfl, hf'⟩

/-- The client does not draw into the buffer the server shows. -/
theorem draws_elsewhere (hf : Follows h w l) {z : Surface}
    (hz : w.server.surfacesOf h.client = [z]) {a : HostedAction} {b : WlResource}
    (hd : .draw b ∈ (w.act h a).calls) : z.mFront.buffer ≠ some b := by
  cases a with
  | redraw c =>
    have hd' : Mark.draw b ∈ ((w.link h).redraw c).2 := hd
    rw [(hf.mirrors.redraw c).2] at hd'
    have hsurface := hf.mirrors.surface.frontBuffer
    rw [surface_eq hz] at hsurface
    rw [hsurface]
    by_cases hr : l.Ready c
    · rw [Link.redraw_ready (hf.owned.handles ▸ h.nodup) hr] at hd'
      obtain rfl : b = c := by simpa [frameRequests] using hd'
      exact (hf.owned.ready_elsewhere hr).2
    · rw [Link.redraw_not_ready hr] at hd'
      cases hd'
  | deliverEvent => cases hd
  | deliverRequest =>
    rw [Hosted.calls_deliverRequest] at hd
    cases hd
  | other act =>
    rw [Hosted.calls_other] at hd
    cases hd

end Follows

/-- As long as the server runs, the hosted client is where the client with a server of its own
is. -/
theorem hosted_simulation (h : Hosting) :
    Machine.Simulation (hostedMachine h) (linkMachine h.setup)
      fun w l => w.server.running = true → Follows h w l where
  init := ⟨[], [], _, rfl, fun _ => .start h⟩
  step w l a ms w' hR hstep := by
    by_cases hrun : w'.server.running = true
    · obtain ⟨as, ds, l', hl', hf⟩ := (hR (Follows.running_act hstep hrun)).act hstep hrun
      exact ⟨as, ds, l', hl', fun _ => hf⟩
    · exact ⟨[], [], l, rfl, fun h => absurd h hrun⟩

/-- **A client of the whole server has, for all it can see, a server of its own.** In every state of
every run, whatever other clients do in between: the client, what is in flight and its surface are
those of a run of the connection, but for the handles of callbacks and where the surface is. So each
buffer is in exactly one place, and the client does not draw into the one that the server shows. -/
theorem hosted_client_runs_alone (h : Hosting) (as : List HostedAction) (ms : List Mark)
    (w : Hosted) (hw : (hostedMachine h).Reaches as ms w) (hrun : w.server.running = true) :
    (∃ bs ds l, (linkMachine h.setup).Reaches bs ds l ∧ (w.link h).Mirrors l) ∧
      (∀ b ∈ h.handles, ∃ p, (w.link h).places b = [p]) ∧
      ∃ z, w.server.surfacesOf h.client = [z] ∧
        ∀ a b, .draw b ∈ (w.act h a).calls → z.mFront.buffer ≠ some b := by
  obtain ⟨bs, ds, l, hl, hR⟩ := (hosted_simulation h).reaches hw
  have hf := hR hrun
  obtain ⟨z, hz, -⟩ := hf.only
  refine ⟨⟨bs, ds, l, hl, hf.mirrors⟩, fun b hb => ?_, z, hz, fun a b => hf.draws_elsewhere hz⟩
  rw [hf.mirrors.places]
  exact List.length_eq_one_iff.mp ((l.length_places b).trans (hf.owned.single b hb))

/-- Two clients with a surface and a buffer each, before either has used them. -/
def besideAnother : List LifetimeAction :=
  [.serve .connect, .serve .connect, .serve (.request (.bind 0 .compositor)),
    .serve (.request (.bind 1 .compositor)), .serve (.request (.createSurface 0)),
    .serve (.request (.createSurface 1)),
    .serve (.request (.createBuffer 0 (some ⟨1, 1, 4, .argb8888, [1, 2, 3, 4]⟩))),
    .serve (.request (.createBuffer 1 (some ⟨1, 1, 4, .argb8888, [5, 6, 7, 8]⟩)))]

/-- The first of the two. -/
def firstOfTwo : Hosting where
  blend := integerBlend
  width := 1
  height := 1
  before := besideAnother
  calls := ((lifetimeMachine integerBlend 1 1).run besideAnother).calls
  server :=
    match ((lifetimeMachine integerBlend 1 1).run besideAnother).result with
    | .ok s => s
    | .error _ => Server.start 1 1
  reached := rfl
  surface := Surface.construct 0 2 0 (some .compositor)
  only := rfl
  unused := ⟨rfl, rfl, rfl⟩
  bound := rfl
  handles := [4]
  nodup := by decide
  isShm b hb := by
    obtain rfl := List.mem_singleton.mp hb
    exact ⟨rfl, rfl⟩
  firstCallback := 20

/-- The client shows its buffer, and so does the other one; the timer repaints, and the other client
leaves. -/
def shownBeside : List HostedAction :=
  [.redraw 4, .deliverRequest, .other (.serve (.request (.surfaceAttach 3 (some 5) 0 0))),
    .deliverRequest, .deliverRequest, .other (.serve (.request (.surfaceCommit 3))),
    .deliverRequest, .other (.serve .repaint), .other (.destroyResource 3), .deliverEvent,
    .redraw 4]

theorem hosted_client_runs_alone_shownBeside :
    ∃ ms w, (hostedMachine firstOfTwo).Reaches shownBeside ms w ∧ w.server.running = true ∧
      (w.link firstOfTwo).places 4 = [.front] ∧
      (∃ bs ds l, (linkMachine firstOfTwo.setup).Reaches bs ds l ∧
        (w.link firstOfTwo).Mirrors l) :=
  ⟨_, _, rfl, rfl, rfl,
    (hosted_client_runs_alone firstOfTwo shownBeside _ _ rfl rfl).1⟩

end WaylandTest
