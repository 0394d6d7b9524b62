import WaylandTest.Lib.RemoveIf
import WaylandTest.Server.Compositor

/-!
# The server: resources, wrappers and their owners

A `wl_resource` is a handle into the table `resources`: handles are given out in order and never
reused, and a destroyed one stays in the table as not live. A wrapper is an object of a class made
by `WaylandResourceFactory::create`. It holds the handle of its resource, and the resource points
back at it: its user data is the wrapper, its destructor `hookDestroy`, until `~WaylandResource`
sets the destructor to null.

The wrappers have four owners: `mSurfacesList` and `mRegions` of the compositor, each surface for
its shell surface, and `mPointerList` of the seat.

What a call does to a handle that is not live is undefined. The model records the call and lets it
find what the handle held, so that runs go on and what is asked of such calls can be said.
-/

set_option autoImplicit false

namespace WaylandTest

open Lib

/-- The destructors the server gives to resources. -/
inductive Destructor
  | hookDestroy
  | hookClientDisconects
deriving DecidableEq, Repr

/-- The global objects. -/
inductive Global
  | compositor
  | shell
  | output
  | seat
deriving DecidableEq, Repr

/-- What the user data of a resource points at: the global object of a binding, a wrapper, the
buffer behind a `wl_buffer` (which is libwayland's, and may be no shm buffer), or nothing. -/
inductive UserData
  | global (g : Global)
  | wrapper (w : Wrapper)
  | buffer (b : Option ShmBuffer)
  | null
deriving DecidableEq, Repr

/-- The resource is a `wl_buffer`. -/
def UserData.isBuffer : UserData → Bool
  | .buffer _ => true
  | _ => false

/-- A `wl_resource`. -/
structure Resource where
  client : WlClient
  userData : UserData
  destructor : Option Destructor := none
  live : Bool := true
deriving DecidableEq, Repr

/-- `class Pointer`. Its constructor leaves `mSurface` (`none`) and the hotspot unset. -/
structure Pointer where
  this : Address
  mResource : WlResource
  mSurface : Option Address := none
  mHotspotX : Int := 0
  mHotspotY : Int := 0
deriving DecidableEq, Repr

/-- `class WaylandServer`, with the state libwayland keeps for it: the resources and the connected
clients. `mShell` and `mOutput` have no state. -/
structure Server where
  resources : List Resource := []
  clients : List WlClient := []
  nextClient : WlClient := 0
  nextAddress : Address := 0
  mCompositor : Compositor
  mPointerList : List Pointer := []
  running : Bool := true
deriving DecidableEq, Repr

def ShellSurface.wrapper (p : ShellSurface) : Wrapper × WlResource :=
  (⟨.shellSurface, p.this⟩, p.mResource)

/-- The wrappers that are deleted with a surface, in order, with their handles: its shell surface
is a member, and the base class's destructor comes last. -/
def Surface.wrappers (s : Surface) : List (Wrapper × WlResource) :=
  s.mShellSurface.toList.map ShellSurface.wrapper ++ [(⟨.surface, s.this⟩, s.mResource)]

def WaylandRegion.wrapper (p : WaylandRegion) : Wrapper × WlResource :=
  (⟨.region, p.this⟩, p.mResource)

def Pointer.wrapper (p : Pointer) : Wrapper × WlResource := (⟨.pointer, p.this⟩, p.mResource)

/-- What `~WaylandResource` and `delete` send for the wrappers. -/
def deleteCalls (ws : List (Wrapper × WlResource)) : List Call :=
  ws.flatMap fun w => [.resourceSetDestructor w.2, .delete w.1]

namespace Server

/-- A server before its first client, with a display of `width` times `height` pixels. -/
def start (width height : Int) : Server where
  mCompositor :=
    { mDisplayWidth := width
      mDisplayHeight := height
      mDisplayBuffer := List.replicate (width * height * bytesPerPixel).toNat 0 }

/-! ## Resources -/

/-- The resource behind a live handle. -/
def resource? (s : Server) (r : WlResource) : Option Resource :=
  (s.resources[r]?).filter (·.live)

/-- The handle is live. -/
def live (s : Server) (r : WlResource) : Bool := (s.resource? r).isSome

/-- The live resources of a client. -/
def resourcesOf (s : Server) (c : WlClient) : List WlResource :=
  (List.range s.resources.length).filter fun r => (s.resource? r).any (·.client = c)

/-- The wrapper of class `kind` that the user data of a live resource points at, with the client. -/
def wrapperAt (s : Server) (kind : WrapperClass) (r : WlResource) : Option (Address × WlClient) :=
  (s.resource? r).bind fun x =>
    match x.userData with
    | .wrapper w => if w.kind = kind then some (w.address, x.client) else none
    | _ => none

/-- The client of a live binding of the global object `g`. -/
def bindingAt (s : Server) (g : Global) (r : WlResource) : Option WlClient :=
  (s.resource? r).bind fun x => if x.userData = .global g then some x.client else none

/-- The handle is a live `wl_buffer` of the client. -/
def hasBuffer (s : Server) (c : WlClient) (b : WlResource) : Bool :=
  (s.resource? b).any fun x => x.client = c && x.userData.isBuffer

/-- The shared-memory buffers behind the handles. -/
def shm (s : Server) : ShmTable := fun r =>
  (s.resources[r]?).bind fun x =>
    match x.userData with
    | .buffer b => b
    | _ => none

/-- `wl_resource_create`, with the implementation the caller then sets. The new handle is the
length of the table. -/
def addResource (s : Server) (x : Resource) : Server := { s with resources := s.resources ++ [x] }

/-- libwayland frees the resource. -/
def bury (s : Server) (r : WlResource) : Server :=
  { s with resources := s.resources.modify r fun x => { x with live := false } }

/-- `wl_resource_set_destructor(mResource, nullptr)` for the wrappers that are deleted. -/
def disarm (s : Server) (ws : List (Wrapper × WlResource)) : Server :=
  { s with
    resources := ws.foldl (fun rs w => rs.modify w.2 fun x => { x with destructor := none })
      s.resources }

/-! ## Wrappers -/

/-- The surfaces that exist. -/
def surfaces (s : Server) : List Surface := contents s.mCompositor.mSurfacesList

/-- The wrappers that exist, with their handles. -/
def wrappers (s : Server) : List (Wrapper × WlResource) :=
  s.surfaces.flatMap Surface.wrappers ++ s.mCompositor.mRegions.map WaylandRegion.wrapper ++
    s.mPointerList.map Pointer.wrapper

/-- `WaylandResourceFactory::create`: the new wrapper has the address `s.nextAddress`, its resource
the handle `s.resources.length`. -/
def create (s : Server) (kind : WrapperClass) (c : WlClient) : Server :=
  { s with nextAddress := s.nextAddress + 1 }.addResource
    { client := c, userData := .wrapper ⟨kind, s.nextAddress⟩, destructor := some .hookDestroy }

def setSurfaces (s : Server) (ps : List (Option Surface)) : Server :=
  { s with mCompositor := { s.mCompositor with mSurfacesList := ps } }

/-- The surface at an address. -/
def surface? (s : Server) (a : Address) : Option Surface := s.surfaces.find? (·.this = a)

/-- The list with the surface at an address changed. -/
def updateSurface (s : Server) (a : Address) (f : Surface → Surface) : Server :=
  s.setSurfaces (s.mCompositor.mSurfacesList.map (Option.map fun t =>
    if t.this = a then f t else t))

/-- A handler of the surface that the user data of a wl_surface resource points at, given the
surface and the client. The request is dropped if there is no such resource. -/
def onSurface (s : Server) (r : WlResource)
    (handler : Surface → WlClient → Exec Call Fault Server) : Exec Call Fault Server :=
  match s.wrapperAt .surface r with
  | none => pure s
  | some (a, c) => Exec.ofOption .useAfterFree (s.surface? a) >>= fun t => handler t c

/-! ## The compositor's list -/

/-- `Compositor::notify`: the surface at `a` is erased. -/
def notify (s : Server) (a : Address) : Exec Call Fault Server :=
  let swept := removeIf (fun p => .ok (p.any (·.this = a))) [] s.mCompositor.mSurfacesList
  swept.relog (fun t => deleteCalls t.wrappers) >>= fun r =>
    Exec.log ((contents r.2).flatMap fun t => deleteCalls t.wrappers) >>= fun _ =>
      pure ((s.setSurfaces r.1).disarm
        ((swept.calls ++ contents r.2).flatMap Surface.wrappers))

/-- The test of `Compositor::clientDisconnects`. -/
def clientTest (c : WlClient) (p : Option Surface) : Except Fault Bool :=
  match p with
  | none => .error .nullDereference
  | some t => .ok (c = t.mClient)

/-- `Compositor::clientDisconnects`: the entries are moved, and the list keeps its length. -/
def clientDisconnects (s : Server) (c : WlClient) : Exec Call Fault Server :=
  let swept := removeIf (clientTest c) [] s.mCompositor.mSurfacesList
  swept.relog (fun t => deleteCalls t.wrappers) >>= fun r =>
    pure ((s.setSurfaces (r.1 ++ r.2)).disarm (swept.calls.flatMap Surface.wrappers))

/-! ## Destruction -/

/-- `WaylandResource::hookDestroy`: the virtual `destroy` of the wrapper. Only `Surface` overrides
it. -/
def hookDestroy (s : Server) (w : Wrapper) : Exec Call Fault Server := do
  Exec.guard .useAfterFree (w ∈ s.wrappers.map (·.1))
  match w.kind with
  | .surface =>
    match (s.surface? w.address).bind (·.mDestroyListener) with
    | none => pure s
    | some .compositor => s.notify w.address
  | _ => pure s

/-- `WaylandGlobalObject::hookClientDisconects`: only the compositor overrides
`clientDisconnects`. -/
def hookClientDisconects (s : Server) (g : Global) (c : WlClient) : Exec Call Fault Server :=
  match g with
  | .compositor => s.clientDisconnects c
  | _ => pure s

/-- The destructor of a resource is called, if it has one. -/
def runDestructor (s : Server) (x : Resource) : Exec Call Fault Server :=
  match x.destructor, x.userData with
  | some .hookDestroy, .wrapper w => s.hookDestroy w
  | some .hookClientDisconects, .global g => s.hookClientDisconects g x.client
  | _, _ => pure s

/-- libwayland destroys a resource, while it still is one at its destructor. -/
def destroyResource (s : Server) (r : WlResource) : Exec Call Fault Server :=
  match s.resource? r with
  | none => pure s
  | some x => s.runDestructor x >>= fun s => pure (s.bury r)

/-- `~WaylandServer`: the seat, then the compositor's regions, then its surfaces. The resources of
clients that are still connected stay. -/
def teardown (s : Server) : Exec Call Fault Server :=
  let ws := s.mPointerList.map Pointer.wrapper ++
    s.mCompositor.mRegions.map WaylandRegion.wrapper ++ s.surfaces.flatMap Surface.wrappers
  Exec.log (deleteCalls ws) >>= fun _ =>
    pure { s.disarm ws with
      mCompositor := { s.mCompositor with mSurfacesList := [], mRegions := [] }
      mPointerList := []
      running := false }

end Server

end WaylandTest
