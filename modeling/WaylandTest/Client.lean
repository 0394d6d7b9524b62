import WaylandTest.Server.Surface

/-!
# The client's side

`client/waylandbuffer.hpp` and `client/waylandsurface.hpp`: a buffer with its `mReadyToDraw`, and
the body of `redraw`, which draws into a buffer and sends the requests that show it. What the
repository's client does with one buffer, other clients do with several; `redraw` is per buffer.
-/

set_option autoImplicit false

namespace WaylandTest.Client

/-- The requests a client sends about its surface. -/
inductive Request
  | attach (buffer : WlResource) (x y : Int)
  | damage (x y width height : Int)
  | frame (callback : WlResource)
  | commit
deriving DecidableEq, Repr

/-- The operation of the server's surface a request is dispatched to. `surfaceDamage` is empty. -/
def Request.op : Request → Option SurfaceOp
  | .attach b x y => some (.attach (some b) x y)
  | .damage _ _ _ _ => none
  | .frame cb => some (.frame (some cb))
  | .commit => some .commit

/-- `client::WaylandBuffer`. -/
structure WaylandBuffer where
  mBuffer : WlResource
  mReadyToDraw : Bool := true
deriving DecidableEq, Repr

/-- `WaylandBuffer::setReadyToDraw`. -/
def WaylandBuffer.setReadyToDraw (w : WaylandBuffer) (ready : Bool) : WaylandBuffer :=
  { w with mReadyToDraw := ready }

/-- `WaylandBuffer::release`. -/
def WaylandBuffer.release (w : WaylandBuffer) : WaylandBuffer := { w with mReadyToDraw := true }

/-- `mWidth` of `client::WaylandSurface`. -/
def mWidth : Int := 480

/-- `mHeight` of `client::WaylandSurface`. -/
def mHeight : Int := 360

/-- The requests of one `redraw`, in order. -/
def frameRequests (buffer callback : WlResource) : List Request :=
  [.attach buffer 0 0, .damage 0 0 mWidth mHeight, .frame callback, .commit]

/-- `WaylandSurface::redraw` for one buffer: nothing if the buffer is not ready; otherwise it is
drawn into, sent, and not ready any more. `callback` is the new frame callback; destroying the
answered one is the client's own affair. -/
def WaylandBuffer.redraw (w : WaylandBuffer) (callback : WlResource) :
    Option (WaylandBuffer × List Request) :=
  if w.mReadyToDraw then
    some (w.setReadyToDraw false, frameRequests w.mBuffer callback)
  else
    none

end WaylandTest.Client
