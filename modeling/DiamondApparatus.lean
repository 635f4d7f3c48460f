import DiamondApparatus.Data.RoundTrip
import DiamondApparatus.Tcp.Framing
import DiamondApparatus.Server.Reject
import DiamondApparatus.Server.Refine
import DiamondApparatus.Server.Delivery
import DiamondApparatus.Client
import DiamondApparatus.Client.Waiting
import DiamondApparatus.Client.Wakeup
import DiamondApparatus.Client.Hangup
import DiamondApparatus.Client.Refcount
import DiamondApparatus.Bounds
import DiamondApparatus.Lib.Mirror
import DiamondApparatus.Client.Copies
import DiamondApparatus.System
import DiamondApparatus.System.Agreement
import DiamondApparatus.Server.Naming
import DiamondApparatus.Server.Replay
import DiamondApparatus.Client.History
import DiamondApparatus.Client.Cache
import DiamondApparatus.Client.Fresh
import DiamondApparatus.Client.Session
import DiamondApparatus.Lib.Keys
import DiamondApparatus.Server.Served
import DiamondApparatus.Server.Special
import DiamondApparatus.Lib.Binary32
import DiamondApparatus.Server.Counters
import DiamondApparatus.Server.Stats
import DiamondApparatus.Server.Commute
import DiamondApparatus.Server.Shutdown
import DiamondApparatus.Data.Filling
import DiamondApparatus.Tcp.Retry
import DiamondApparatus.Tcp.Reads
import DiamondApparatus.Server.Dropped
import DiamondApparatus.Network
import DiamondApparatus.Network.Refine
import DiamondApparatus.Network.Transport
import DiamondApparatus.Network.Progress
import DiamondApparatus.Network.Scan
import DiamondApparatus.Kill
import DiamondApparatus.Lib.Heap
import DiamondApparatus.Data.Memory
import DiamondApparatus.Data.Memory.Specs
import DiamondApparatus.Data.Memory.Refine
import DiamondApparatus.System.Relay
import DiamondApparatus.Main
import DiamondApparatus.Main.Listen
import DiamondApparatus.System.History
import DiamondApparatus.Main.Published
import DiamondApparatus.Client.Mutex
import DiamondApparatus.Client.Statements
import DiamondApparatus.Client.Atomic
import DiamondApparatus.Client.Release
import DiamondApparatus.System.Provenance
import DiamondApparatus.Linkage
import DiamondApparatus.Linkage.Built
import DiamondApparatus.Client.Lifetime
import DiamondApparatus.Client.Age
import DiamondApparatus.Main.Table
import DiamondApparatus.Main.Pub
