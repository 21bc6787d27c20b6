import HftComponents.Timer.Wheel.Amortised
import HftComponents.Timer.Wheel.Reference
import HftComponents.Timer.Wheel.Cancel
import HftComponents.Timer.Epoll.Exceptions
import HftComponents.Timer.Epoll.Stop
import HftComponents.Spsc.Notify
import HftComponents.Spsc.Liveness
import HftComponents.Spsc.FastForward
import HftComponents.Spsc.Mark
import HftComponents.Spsc.Delivery
import HftComponents.Spsc.Startup
import HftComponents.Pool.Rounding
import HftComponents.Pool.Slab
import HftComponents.Pool.Shared
import HftComponents.Pool.Monitor
import HftComponents.Tcp.Client
import HftComponents.Tcp.Lifecycle
import HftComponents.Tcp.Pipelining
import HftComponents.Common.WallTime
import HftComponents.Tcp.Output
import HftComponents.Spsc.WaitFree
import HftComponents.Pool.Batching
import HftComponents.Timer.Epoll.Work
import HftComponents.Pool.Turns
import HftComponents.Spsc.CatchUp
import HftComponents.Tcp.Starvation
import HftComponents.Common.Ownership
