import WaylandTest.Lib.Exec
import WaylandTest.Lib.Outcome
import WaylandTest.Lib.Machine
import WaylandTest.Lib.Returns
import WaylandTest.Lib.Trace
import WaylandTest.Lib.Memory
import WaylandTest.Lib.RemoveIf
import WaylandTest.Lib.Paired
import WaylandTest.Lib.Ledger
import WaylandTest.Lib.Bands
import WaylandTest.Lib.Rounding
import WaylandTest.Wayland
import WaylandTest.Server.Surface
import WaylandTest.Server.SurfaceHistory
import WaylandTest.Server.FrameCallbacks
import WaylandTest.Server.SurfaceOffset
import WaylandTest.Server.Blit
import WaylandTest.Server.AlphaBlending
import WaylandTest.Server.Clipping
import WaylandTest.Server.CopyOverflow
import WaylandTest.Server.BlitEnds
import WaylandTest.Server.Strides
import WaylandTest.Server.Compositor
import WaylandTest.Server.Layout
import WaylandTest.Server.Repaint
import WaylandTest.Server.SameShape
import WaylandTest.Server.UnusedByte
import WaylandTest.Server.Layers
import WaylandTest.Server.Windows
import WaylandTest.Server.Server
import WaylandTest.Server.Requests
import WaylandTest.Server.Handles
import WaylandTest.Server.Handlers
import WaylandTest.Server.Wrappers
import WaylandTest.Server.Lifetimes
import WaylandTest.Server.Sessions
import WaylandTest.Server.Cursors
import WaylandTest.Server.CursorPosition
import WaylandTest.Server.RepaintOverflow
import WaylandTest.Server.DestroyRequest
import WaylandTest.Server.LiveBuffers
import WaylandTest.Server.EachSurface
import WaylandTest.Server.RepaintTwice
import WaylandTest.Server.Releases
import WaylandTest.Server.CallbackResources
import WaylandTest.Server.LiveHandles
import WaylandTest.Server.Crashes
import WaylandTest.Server.Projection
import WaylandTest.Server.Delivery
import WaylandTest.Server.WellBehaved
import WaylandTest.Server.Belongings
import WaylandTest.Server.Isolation
import WaylandTest.Server.IdleClients
import WaylandTest.Server.OneSurface
import WaylandTest.Server.Newcomers
import WaylandTest.Server.Accounts
import WaylandTest.Client
import WaylandTest.Link.Basic
import WaylandTest.Link.Ownership
import WaylandTest.Link.Pictures
import WaylandTest.Link.Screen
import WaylandTest.Link.Turns
import WaylandTest.Link.FrameLoop
import WaylandTest.Link.Paced
import WaylandTest.Link.Mirrors
import WaylandTest.Link.Hosted
import WaylandTest.Link.StartUp
import WaylandTest.Link.InPlace
