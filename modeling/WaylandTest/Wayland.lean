import Mathlib.Data.List.Basic

/-!
# What the server sees of libwayland

Handles, shared-memory buffers, the calls the server makes into libwayland and its backend, and the
undefined behaviours the model tells apart. libwayland itself is not under `src/`: a handle is a
number, and what a call does to a handle is modelled where the server relies on it
(`Server/Server.lean`).
-/

set_option autoImplicit false

namespace WaylandTest

/-- A `wl_client*`. -/
abbrev WlClient := Nat

/-- A `wl_resource*` that is not null. A handle is never reused. -/
abbrev WlResource := Nat

/-- The address of an object of the server. -/
abbrev Address := Nat

/-- The two formats every wl_shm offers. Nothing in the server reads a buffer's format. -/
inductive ShmFormat
  | argb8888
  | xrgb8888
deriving DecidableEq, Repr

/-- A `wl_shm_buffer`, with the bytes behind `wl_shm_buffer_get_data`. -/
structure ShmBuffer where
  width : Int
  height : Int
  stride : Int
  format : ShmFormat
  data : List UInt8
deriving DecidableEq, Repr

/-- Which handles are shared-memory buffers, and what they hold. -/
abbrev ShmTable := WlResource → Option ShmBuffer

/-- `wl_shm_buffer_get`: null for null and for a resource that is no shm buffer. -/
def ShmTable.get (shm : ShmTable) (buffer : Option WlResource) : Option ShmBuffer :=
  buffer.bind shm

/-- The classes `WaylandResourceFactory::create` is instantiated at. -/
inductive WrapperClass
  | surface
  | shellSurface
  | region
  | pointer
deriving DecidableEq, Repr

/-- A wrapper object: its class and its address. -/
structure Wrapper where
  kind : WrapperClass
  address : Address
deriving DecidableEq, Repr

/-- What the server does to the outside: its calls into libwayland (the timestamp of
`wl_callback_send_done` is the constant 0), the frames it hands to the backend, and the creation
and deletion of its wrapper objects. -/
inductive Call
  | shmBufferGet (buffer : Option WlResource)
  | shmBufferBeginAccess (buffer : Option WlResource)
  | shmBufferEndAccess (buffer : Option WlResource)
  | callbackSendDone (callback : WlResource)
  | queueRelease (buffer : WlResource)
  | resourceSetDestructor (resource : WlResource)
  | drawBuffer (bytes : List UInt8)
  | timerUpdate (delay : Nat)
  | new (object : Wrapper) (client : WlClient)
  | delete (object : Wrapper)
deriving DecidableEq, Repr

/-- The undefined behaviours the code can run into, and a loop that does not end. -/
inductive Fault
  | nullDereference
  | useAfterFree
  | uninitialised
  | signedOverflow
  | outOfRange
  | divergence
deriving DecidableEq, Repr

/-- An event on the wire to a client. -/
inductive Event
  | done (callback : WlResource)
  | release (buffer : WlResource)
deriving DecidableEq, Repr

/-- The event a call sends, if it sends one. -/
def Call.event? : Call → Option Event
  | .callbackSendDone cb => some (.done cb)
  | .queueRelease b => some (.release b)
  | _ => none

/-- The events the calls `cs` send, in order. -/
def wireEvents (cs : List Call) : List Event := cs.filterMap Call.event?

/-- The buffers the calls `cs` release, in order. -/
def releases (cs : List Call) : List WlResource :=
  cs.filterMap fun
    | .queueRelease b => some b
    | _ => none

@[simp] theorem wireEvents_nil : wireEvents [] = [] := rfl

@[simp] theorem wireEvents_append (cs ds : List Call) :
    wireEvents (cs ++ ds) = wireEvents cs ++ wireEvents ds :=
  List.filterMap_append

@[simp] theorem releases_append (cs ds : List Call) :
    releases (cs ++ ds) = releases cs ++ releases ds :=
  List.filterMap_append

end WaylandTest
