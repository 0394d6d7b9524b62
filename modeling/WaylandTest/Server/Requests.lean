import WaylandTest.Lib.Machine
import WaylandTest.Server.Server
import WaylandTest.Server.Repaint

/-!
# What clients, the timer and libwayland make the server do

A request names the resource it is sent to. libwayland dispatches it if that resource is live, has
the right interface and, as its arguments, belongs to the client; otherwise the client gets an
error and the server nothing. Each handler is the source's, from the hook to the object.

Three machines run over the same server. `requestMachine` serves connected clients, repaints and
moves pointers. `lifetimeMachine` adds that libwayland destroys any resource at any time, as it
does one by one with all of a client's when the client disconnects, and that the server is torn
down at the end. `sessionMachine` has whole disconnects for its steps.
-/

set_option autoImplicit false

namespace WaylandTest

open Lib

/-- The requests a client can send, with the resource they are sent to first. `bind` and
`createBuffer`, which are sent to objects of libwayland, have the client first. -/
inductive ClientRequest
  | bind (client : WlClient) (g : Global)
  | createSurface (compositor : WlResource)
  | createRegion (compositor : WlResource)
  | getShellSurface (shell surface : WlResource)
  | getPointer (seat : WlResource)
  | setCursor (pointer : WlResource) (surface : Option WlResource) (hotspotX hotspotY : Int)
  | surfaceDestroy (surface : WlResource)
  | surfaceAttach (surface : WlResource) (buffer : Option WlResource) (x y : Int)
  | surfaceFrame (surface : WlResource)
  | surfaceCommit (surface : WlResource)
  | createBuffer (client : WlClient) (buffer : Option ShmBuffer)
  | destroyBuffer (buffer : WlResource)
deriving DecidableEq, Repr

namespace Server

/-- `WaylandGlobalObject::hookBind`. What the seat sends on a binding is left out. -/
def bind (s : Server) (c : WlClient) (g : Global) : Server :=
  if c ∈ s.clients then
    s.addResource
      { client := c, userData := .global g, destructor := some .hookClientDisconects }
  else s

/-- `Compositor::createSurface`. -/
def createSurface (s : Server) (compositor : WlResource) : Exec Call Fault Server :=
  match s.bindingAt .compositor compositor with
  | none => pure s
  | some c =>
    Exec.log [.new ⟨.surface, s.nextAddress⟩ c] >>= fun _ =>
      pure ((s.create .surface c).setSurfaces (s.mCompositor.mSurfacesList ++
        [some (Surface.construct s.nextAddress s.resources.length c (some .compositor))]))

/-- `Compositor::createRegion`. -/
def createRegion (s : Server) (compositor : WlResource) : Exec Call Fault Server :=
  match s.bindingAt .compositor compositor with
  | none => pure s
  | some c =>
    Exec.log [.new ⟨.region, s.nextAddress⟩ c] >>= fun _ =>
      pure { s.create .region c with
        mCompositor := { s.mCompositor with
          mRegions := s.mCompositor.mRegions ++ [⟨s.nextAddress, s.resources.length⟩] } }

/-- `Surface::setShellSurface` with a shell surface just made, for the surface `t`. The one it
replaces is deleted after that. -/
def setShellSurface (s : Server) (t : Surface) (c : WlClient) : Exec Call Fault Server :=
  Exec.log (.new ⟨.shellSurface, s.nextAddress⟩ c ::
      deleteCalls (t.mShellSurface.toList.map ShellSurface.wrapper)) >>= fun _ =>
    pure (((s.create .shellSurface c).updateSurface t.this fun x =>
        { x with mShellSurface := some ⟨s.nextAddress, s.resources.length⟩ }).disarm
      (t.mShellSurface.toList.map ShellSurface.wrapper))

/-- `Shell::getShellSurface`. -/
def getShellSurface (s : Server) (shell surface : WlResource) : Exec Call Fault Server :=
  match s.bindingAt .shell shell with
  | none => pure s
  | some c => s.onSurface surface fun t c' => if c' = c then s.setShellSurface t c else pure s

/-- `Seat::getPointer`. -/
def getPointer (s : Server) (seat : WlResource) : Exec Call Fault Server :=
  match s.bindingAt .seat seat with
  | none => pure s
  | some c =>
    Exec.log [.new ⟨.pointer, s.nextAddress⟩ c] >>= fun _ =>
      pure { s.create .pointer c with
        mPointerList :=
          s.mPointerList ++ [{ this := s.nextAddress, mResource := s.resources.length }] }

/-- `Pointer::setCursor`. The client may send no surface, whose user data is then read through
null. -/
def setCursor (s : Server) (pointer : WlResource) (surface : Option WlResource)
    (hotspotX hotspotY : Int) : Exec Call Fault Server :=
  match s.wrapperAt .pointer pointer, surface with
  | none, _ => pure s
  | some _, none => Exec.fail .nullDereference
  | some (a, c), some r =>
    match s.wrapperAt .surface r with
    | none => pure s
    | some (a', c') =>
      if c' = c then
        Exec.guard .useAfterFree (a ∈ s.mPointerList.map (·.this)) >>= fun _ =>
          pure { s with
            mPointerList := s.mPointerList.map fun p =>
              if p.this = a then
                { p with mSurface := some a', mHotspotX := hotspotX, mHotspotY := hotspotY }
              else p }
      else pure s

/-- An operation of a surface by itself. -/
def performOn (s : Server) (t : Surface) (op : SurfaceOp) : Exec Call Fault Server :=
  Exec.log (t.perform s.shm op).2 >>= fun _ =>
    pure (s.updateSurface t.this fun x => (x.perform s.shm op).1)

/-- `WaylandSurface::surfaceDestroy`: `Surface` does not override it, so the hook finds the
surface and does nothing. -/
def surfaceDestroy (s : Server) (surface : WlResource) : Exec Call Fault Server :=
  s.onSurface surface fun _ _ => pure s

/-- `Surface::surfaceAttach`. -/
def surfaceAttach (s : Server) (surface : WlResource) (buffer : Option WlResource) (x y : Int) :
    Exec Call Fault Server :=
  s.onSurface surface fun t c =>
    if buffer.all (s.hasBuffer c) then s.performOn t (.attach buffer x y) else pure s

/-- `Surface::surfaceFrame`. -/
def surfaceFrame (s : Server) (surface : WlResource) : Exec Call Fault Server :=
  s.onSurface surface fun t c =>
    (s.addResource { client := c, userData := .null }).performOn t
      (.frame (some s.resources.length))

/-- `Surface::surfaceCommit`. -/
def surfaceCommit (s : Server) (surface : WlResource) : Exec Call Fault Server :=
  s.onSurface surface fun t _ => s.performOn t .commit

/-- A client makes a `wl_buffer`. -/
def createBuffer (s : Server) (c : WlClient) (b : Option ShmBuffer) : Server :=
  if c ∈ s.clients then s.addResource { client := c, userData := .buffer b } else s

/-- `wl_buffer.destroy`, which libwayland handles. -/
def destroyBuffer (s : Server) (r : WlResource) : Server :=
  if (s.resource? r).any (·.userData.isBuffer) then s.bury r else s

/-- A request is dispatched. -/
def request (s : Server) : ClientRequest → Exec Call Fault Server
  | .bind c g => pure (s.bind c g)
  | .createSurface r => s.createSurface r
  | .createRegion r => s.createRegion r
  | .getShellSurface r surface => s.getShellSurface r surface
  | .getPointer r => s.getPointer r
  | .setCursor r surface x y => s.setCursor r surface x y
  | .surfaceDestroy r => s.surfaceDestroy r
  | .surfaceAttach r b x y => s.surfaceAttach r b x y
  | .surfaceFrame r => s.surfaceFrame r
  | .surfaceCommit r => s.surfaceCommit r
  | .createBuffer c b => pure (s.createBuffer c b)
  | .destroyBuffer r => pure (s.destroyBuffer r)

/-- A client connects. -/
def connect (s : Server) : Server :=
  { s with clients := s.clients ++ [s.nextClient], nextClient := s.nextClient + 1 }

/-- The timer calls `Compositor::repaint`, over `line` for `blitLine`. -/
def repaintBy (line : ShmBuffer → Line (Memory UInt8)) (s : Server) : Exec Call Fault Server :=
  s.mCompositor.repaintBy line s.shm >>= fun c => pure { s with mCompositor := c }

/-- The timer calls `Compositor::repaint`. -/
def repaint (blend : Blend) (s : Server) : Exec Call Fault Server :=
  s.mCompositor.repaint blend s.shm >>= fun c => pure { s with mCompositor := c }

/-- `Pointer::move`. -/
def movePointer (s : Server) (p : Pointer) (x y : Int) : Exec Call Fault Server := do
  let a ← Exec.ofOption .uninitialised p.mSurface
  let _ ← Exec.ofOption .useAfterFree (s.surface? a)
  let x ← checked (x - p.mHotspotX)
  let y ← checked (y - p.mHotspotY)
  pure (s.updateSurface a fun t => (t.setX x).setY y)

/-- `Seat::move`. -/
def move (s : Server) (x y : Int) : Exec Call Fault Server :=
  s.mPointerList.foldlM (fun s p => s.movePointer p x y) s

/-- A client whose resources are all destroyed is gone. -/
def forget (s : Server) (c : WlClient) : Server :=
  if s.resourcesOf c = [] then { s with clients := s.clients.erase c } else s

/-- A client disconnects, and libwayland destroys its resources in the order `order`, which is one
of all of them. -/
def disconnect (s : Server) (c : WlClient) (order : List WlResource) : Exec Call Fault Server :=
  if c ∈ s.clients ∧ order.Perm (s.resourcesOf c) then
    order.foldlM destroyResource s >>= fun s => pure { s with clients := s.clients.erase c }
  else pure s

end Server

/-- What happens to a server whose clients stay. -/
inductive ServeAction
  | connect
  | request (r : ClientRequest)
  | repaint
  | move (x y : Int)
deriving DecidableEq, Repr

def Server.serve (blend : Blend) (s : Server) : ServeAction → Exec Call Fault Server
  | .connect => pure s.connect
  | .request r => s.request r
  | .repaint => s.repaint blend
  | .move x y => s.move x y

/-- Clients connect and send requests, the timer repaints, the pointer moves. -/
def requestMachine (blend : Blend) (width height : Int) :
    Machine Call Fault Server ServeAction where
  init := Server.start width height
  step := Server.serve blend

/-- What happens to a server whose clients come and go. -/
inductive LifetimeAction
  | serve (a : ServeAction)
  | destroyResource (r : WlResource)
  | forget (c : WlClient)
  | teardown
deriving DecidableEq, Repr

/-- One action; after its teardown the server does nothing. -/
def Server.lifetime (blend : Blend) (s : Server) (a : LifetimeAction) : Exec Call Fault Server :=
  if s.running then
    match a with
    | .serve a => s.serve blend a
    | .destroyResource r => s.destroyResource r
    | .forget c => pure (s.forget c)
    | .teardown => s.teardown
  else pure s

/-- As `requestMachine`, where libwayland also destroys resources, and the server is torn down. -/
def lifetimeMachine (blend : Blend) (width height : Int) :
    Machine Call Fault Server LifetimeAction where
  init := Server.start width height
  step := Server.lifetime blend

/-- The part of the server that whole sessions of clients show. -/
inductive SessionAction
  | connect
  | bind (c : WlClient)
  | createSurface (compositor : WlResource)
  | relayoutSurfaces
  | disconnect (c : WlClient) (order : List WlResource)
deriving DecidableEq, Repr

def Server.session (s : Server) : SessionAction → Exec Call Fault Server
  | .connect => pure s.connect
  | .bind c => pure (s.bind c .compositor)
  | .createSurface r => s.createSurface r
  | .relayoutSurfaces =>
    s.mCompositor.relayoutSurfaces >>= fun c => pure { s with mCompositor := c }
  | .disconnect c order => s.disconnect c order

/-- Clients connect, bind the compositor, create surfaces and disconnect. -/
def sessionMachine (width height : Int) : Machine Call Fault Server SessionAction where
  init := Server.start width height
  step := Server.session

end WaylandTest
