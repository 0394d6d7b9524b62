import WaylandTest.Server.Cursors
import WaylandTest.Server.Projection

/-!
# What clients have

A server has one list of surfaces, one of regions and one of pointers for all of its clients, and
handlers that follow user data from any handle a request names. What keeps the clients apart is
whose the handles are: `Sealed` says that every handle that a surface holds is of the surface's
client. A step is `Confined` to a client, if what others have stays as it is.
-/

set_option autoImplicit false

namespace WaylandTest

open Lib

/-- The resource that an event is for. libwayland sends the event to the resource's client. -/
def Event.handle : Event → WlResource
  | .done cb => cb
  | .release b => b

/-- The handles that come with an operation: those that the client named in the request, or that
were made for it. -/
def SurfaceOp.handles : SurfaceOp → List WlResource
  | .attach b _ _ => b.toList
  | .frame cb => cb.toList
  | _ => []

/-- The handles that a state holds. -/
def SurfaceState.handles (st : SurfaceState) : List WlResource :=
  st.buffer.toList ++ st.callbackDone.toList

namespace Surface

variable {z : Surface} {shm : ShmTable} {r : WlResource} {e : Event}

/-- The handles that a surface holds: those of its wrappers' resources, and the buffers and
callbacks of its two states. All that the server sends about the surface is for these
(`events_perform`). -/
def handles (z : Surface) : List WlResource :=
  z.wrappers.map (·.2) ++ z.mFront.handles ++ z.mBack.handles

/-- `fillBack` may send a callback and drop it; it brings no handle. -/
theorem handles_fillBack (h : r ∈ z.fillBack.1.handles) : r ∈ z.handles := by
  unfold fillBack at h
  simp only at h
  split at h
  · simp [handles, SurfaceState.handles, SurfaceState.sendDone, wrappers] at h ⊢
    grind
  · exact h

/-- `releaseBack` may let go of a buffer and of a callback; it brings no handle. -/
theorem handles_releaseBack (h : r ∈ z.releaseBack.1.handles) : r ∈ z.handles := by
  unfold releaseBack at h
  split at h
  · exact h
  · simp [handles, SurfaceState.handles, SurfaceState.sendDone, wrappers] at h ⊢
    grind

/-- The swap exchanges the two states, and the surface holds what it held. -/
theorem handles_swapBuffers : r ∈ z.swapBuffers.handles ↔ r ∈ z.handles := by
  simp [handles, swapBuffers, wrappers]
  grind

/-- The one event that a first commit sends is the `done` of the callback in the back state. -/
theorem events_fillBack (h : e ∈ wireEvents z.fillBack.2) : e.handle ∈ z.handles := by
  unfold fillBack at h
  simp only at h
  split at h
  · rw [SurfaceState.wireEvents_sendDone] at h
    obtain ⟨cb, hcb, rfl⟩ := List.mem_map.mp h
    simp [handles, SurfaceState.handles, Event.handle] at hcb ⊢
    grind
  · cases h

/-- A later commit sends the release of the buffer that was shown and the `done` of its callback,
both held by the state that was swapped to the back. -/
theorem events_releaseBack (h : e ∈ wireEvents z.releaseBack.2) : e.handle ∈ z.handles := by
  unfold releaseBack at h
  split at h
  · cases h
  · next b hb =>
    rcases List.mem_cons.mp h with rfl | h
    · simp [handles, SurfaceState.handles, Event.handle, hb]
    · change e ∈ wireEvents (SurfaceState.sendDone _).2 at h
      rw [SurfaceState.wireEvents_sendDone] at h
      obtain ⟨cb, hcb, rfl⟩ := List.mem_map.mp h
      simp [handles, SurfaceState.handles, Event.handle] at hcb ⊢
      grind

/-- An operation brings a surface no handles but its own. -/
theorem handles_perform {op : SurfaceOp} (h : r ∈ (z.perform shm op).1.handles) :
    r ∈ z.handles ∨ r ∈ op.handles := by
  cases op with
  | attach b x y =>
    change r ∈ (z.surfaceAttach shm b x y).1.handles at h
    unfold surfaceAttach at h
    split at h
    · exact .inl h
    · simp [handles, SurfaceState.handles, wrappers, SurfaceOp.handles] at h ⊢
      grind
  | frame cb =>
    simp [perform, surfaceFrame, handles, SurfaceState.handles, wrappers, SurfaceOp.handles] at h ⊢
    grind
  | commit =>
    change r ∈ z.surfaceCommit.1.handles at h
    unfold surfaceCommit at h
    split at h
    · exact .inl h
    · exact .inl (handles_fillBack (handles_swapBuffers.mp (handles_releaseBack h)))
  | lockBuffer => exact .inl h
  | unlockBuffer =>
    change r ∈ z.unlockBuffer.1.handles at h
    unfold unlockBuffer at h
    split at h
    · exact .inl h
    · simp [handles, SurfaceState.handles, SurfaceState.sendDone, wrappers] at h ⊢
      grind
  | setX x => exact .inl h
  | setY y => exact .inl h

/-- What an operation sends is for handles that the surface holds. -/
theorem events_perform {op : SurfaceOp} (h : e ∈ wireEvents (z.perform shm op).2) :
    e.handle ∈ z.handles := by
  cases op with
  | attach b x y =>
    change e ∈ wireEvents (z.surfaceAttach shm b x y).2 at h
    rw [surfaceAttach_calls] at h
    cases h
  | frame cb => cases h
  | commit =>
    change e ∈ wireEvents z.surfaceCommit.2 at h
    unfold surfaceCommit at h
    split at h
    · cases h
    · rw [wireEvents_append] at h
      rcases List.mem_append.mp h with h | h
      · exact events_fillBack h
      · exact handles_fillBack (handles_swapBuffers.mp (events_releaseBack h))
  | lockBuffer =>
    change e ∈ wireEvents (z.lockBuffer shm).2 at h
    unfold lockBuffer at h
    split at h <;> cases h
  | unlockBuffer =>
    change e ∈ wireEvents z.unlockBuffer.2 at h
    unfold unlockBuffer at h
    split at h
    · cases h
    · change e ∈ wireEvents z.mFront.sendDone.2 at h
      rw [SurfaceState.wireEvents_sendDone] at h
      obtain ⟨cb, hcb, rfl⟩ := List.mem_map.mp h
      simp [handles, SurfaceState.handles, Event.handle] at hcb ⊢
      grind
  | setX x => cases h
  | setY y => cases h

end Surface

namespace Server

variable {s t u : Server} {c c' : WlClient} {r r' : WlResource} {x : Resource}
  {ws : List (Wrapper × WlResource)} {cs ds es : List Call} {blend : Blend}

/-! ## Whose a handle is -/

/-- The client that a handle is of, or was of. -/
def clientOf (s : Server) (r : WlResource) : Option WlClient := (s.resources[r]?).map (·.client)

/-- Of a live handle the client is read off the resource. -/
theorem clientOf_of_resource? (h : s.resource? r = some x) : s.clientOf r = some x.client := by
  unfold clientOf
  rw [(resource?_eq_some.mp h).1, Option.map_some]

/-- The handlers of requests find the client together with the wrapper; it is the handle's. -/
theorem clientOf_of_wrapperAt {kind : WrapperClass} {a : Address}
    (h : s.wrapperAt kind r = some (a, c)) : s.clientOf r = some c := by
  obtain ⟨x, hx, hw⟩ := Option.bind_eq_some_iff.mp h
  rw [clientOf_of_resource? hx]
  split at hw
  · split at hw
    · cases hw
      rfl
    · cases hw
  · cases hw

/-- So do the handlers of requests on globals. -/
theorem clientOf_of_bindingAt {g : Global} (h : s.bindingAt g r = some c) :
    s.clientOf r = some c := by
  obtain ⟨x, hx, rfl, -⟩ := info_eq_some.mp (bindingAt_eq.mp h)
  exact clientOf_of_resource? hx

/-- A buffer that a client may attach is the client's own. -/
theorem clientOf_of_hasBuffer (h : s.hasBuffer c r = true) : s.clientOf r = some c := by
  obtain ⟨x, hx, hand⟩ := (Option.any_eq_true _ _).mp h
  rw [Bool.and_eq_true] at hand
  rw [clientOf_of_resource? hx, of_decide_eq_true hand.1]

/-- A handle with a hook is, or was, somebody's. -/
theorem clientOf_of_hook {w : Wrapper} (h : s.hook r = some w) : s.clientOf r ≠ none := by
  obtain ⟨x, hx, -⟩ := Option.bind_eq_some_iff.mp h
  simp [clientOf, hx]

/-- A new resource is its creator's; the others are whose they were. -/
theorem clientOf_addResource :
    (s.addResource x).clientOf r =
      if r = s.resources.length then some x.client else s.clientOf r := by
  unfold clientOf
  rw [getElem?_addResource]
  split
  · rfl
  · rfl

/-- A resource that is freed stays its client's: the handle is not given to anybody else. -/
theorem clientOf_bury : (s.bury r').clientOf r = s.clientOf r := by
  unfold clientOf
  rw [getElem?_bury, Option.map_map]
  congr 1
  funext x
  by_cases h : r = r' <;> simp [h]

/-- Of the resources, only ones of the client changed, or are new. -/
def Touches (c : WlClient) (s t : Server) : Prop :=
  ∀ r, t.resources[r]? = s.resources[r]? ∨
    t.clientOf r = some c ∧ (s.clientOf r = none ∨ s.clientOf r = some c)

/-- A step that leaves the table of resources touches nothing. -/
theorem touches_of_eq (h : t.resources = s.resources) : s.Touches c t := by
  intro r
  rw [h]
  exact .inl rfl

namespace Touches

/-- Whose a resource is does not change, also not by a step that changes the resource. -/
theorem clientOf (h : s.Touches c t) (hr : s.clientOf r ≠ none) : t.clientOf r = s.clientOf r := by
  rcases h r with hsame | ⟨ht, hnone | hs⟩
  · unfold Server.clientOf
    rw [hsame]
  · exact absurd hnone hr
  · rw [ht, hs]

/-- `Touches.clientOf`, for a handle whose client is known. -/
theorem keeps (h : s.Touches c t) (hr : s.clientOf r = some c') : t.clientOf r = some c' := by
  rw [h.clientOf (by simp [hr]), hr]

/-- A resource of another client is what it was. -/
theorem other (h : s.Touches c t) (hr : t.clientOf r ≠ some c) :
    t.resources[r]? = s.resources[r]? := (h r).resolve_right fun hc => hr hc.1

/-- Two steps of one client are a step of that client. -/
theorem trans (h : s.Touches c t) (h' : t.Touches c u) : s.Touches c u := by
  intro r
  rcases h' r with hsame | ⟨hu, hnone | ht⟩
  · unfold Server.clientOf
    rw [hsame]
    exact h r
  · refine .inr ⟨hu, .inl ?_⟩
    by_contra hr
    exact hr ((h.clientOf hr).symm.trans hnone)
  · rcases h r with hsame | ⟨-, hs⟩
    · refine .inr ⟨hu, .inr ?_⟩
      rw [← ht]
      unfold Server.clientOf
      rw [hsame]
    · exact .inr ⟨hu, hs⟩

end Touches

/-- A client that makes a resource touches the new handle only. -/
theorem touches_addResource (s : Server) (x : Resource) : s.Touches x.client (s.addResource x) := by
  intro r
  unfold clientOf
  rw [getElem?_addResource]
  by_cases hr : r = s.resources.length
  · simp [hr]
  · rw [if_neg hr]
    exact .inl rfl

/-- And so does a client that makes a wrapper with its resource. -/
theorem touches_create (s : Server) (kind : WrapperClass) (c : WlClient) :
    s.Touches c (s.create kind c) :=
  touches_addResource { s with nextAddress := s.nextAddress + 1 } _

/-- A client that destroys its own resource touches that one. -/
theorem touches_bury (hr : s.clientOf r = some c) : s.Touches c (s.bury r) := by
  intro r'
  unfold clientOf
  rw [getElem?_bury]
  by_cases h : r' = r
  · subst h
    obtain ⟨x, hx, hc⟩ := Option.map_eq_some_iff.mp hr
    simp [hx, hc]
  · simp [h]

/-- The wrappers that a client's destruction deletes disarm resources of that client, if all
wrappers are the owners of their resources. -/
theorem touches_disarm (hws : ∀ w ∈ ws, s.clientOf w.2 = some c) : s.Touches c (s.disarm ws) := by
  intro r
  unfold clientOf
  rw [getElem?_disarm]
  by_cases h : r ∈ ws.map (·.2)
  · obtain ⟨w, hw, rfl⟩ := List.mem_map.mp h
    obtain ⟨x, hx, hc⟩ := Option.map_eq_some_iff.mp (hws w hw)
    simp [hx, hc, h]
  · simp [h]

/-! ## What a client has -/

/-- The client's surfaces, in the order of the list. -/
def surfacesOf (s : Server) (c : WlClient) : List Surface := s.surfaces.filter (·.mClient = c)

/-- The client's regions. A region does not hold its client, so it is told by the resource. -/
def regionsOf (s : Server) (c : WlClient) : List WaylandRegion :=
  s.mCompositor.mRegions.filter fun p => s.clientOf p.mResource = some c

/-- The client's pointers, with their cursors. -/
def pointersOf (s : Server) (c : WlClient) : List Pointer :=
  s.mPointerList.filter fun p => s.clientOf p.mResource = some c

/-- A step with the calls `ds` that is the client's own business: what other clients have stays as
it is, what its surfaces hold is its own, and so is what is sent. -/
structure Confined (c : WlClient) (s t : Server) (ds : List Call) : Prop where
  resources : s.Touches c t
  surfaces : ∀ c', c' ≠ c → t.surfacesOf c' = s.surfacesOf c'
  regions : ∀ c', c' ≠ c → t.regionsOf c' = s.regionsOf c'
  pointers : ∀ c', c' ≠ c → t.pointersOf c' = s.pointersOf c'
  own : ∀ z ∈ t.surfaces, z.mClient = c → ∀ r ∈ z.handles, t.clientOf r = some c
  events : ∀ e ∈ wireEvents ds, t.clientOf e.handle = some c

/-- Every handle that a surface holds is of the surface's client. -/
def Sealed (s : Server) : Prop := ∀ z ∈ s.surfaces, ∀ r ∈ z.handles, s.clientOf r = some z.mClient

/-- **A confined step keeps the clients apart.** -/
theorem Sealed.confined (h : s.Sealed) (hstep : Confined c s t ds) : t.Sealed := by
  intro z hz r hr
  by_cases hc : z.mClient = c
  · rw [hc]
    exact hstep.own z hz hc r hr
  · have hof : z ∈ t.surfacesOf z.mClient := List.mem_filter.mpr ⟨hz, decide_eq_true rfl⟩
    rw [hstep.surfaces _ hc] at hof
    exact hstep.resources.keeps (h z (List.mem_of_mem_filter hof) r hr)

/-- A map that leaves what a test picks, and picks nothing more: how a step that changes the
elements of one client in place is not seen by the others. -/
theorem filter_map_same {α : Type} {p : α → Bool} {f : α → α} {l : List α}
    (h : ∀ a ∈ l, f a = a ∨ p a = false ∧ p (f a) = false) : (l.map f).filter p = l.filter p := by
  induction l with
  | nil => rfl
  | cons a l ih =>
    have hrest := ih fun b hb => h b (List.mem_cons_of_mem _ hb)
    rw [List.map_cons, List.filter_cons, List.filter_cons, hrest]
    rcases h a List.mem_cons_self with hsame | ⟨ha, hfa⟩
    · rw [hsame]
    · simp [ha, hfa]

end Server

end WaylandTest
