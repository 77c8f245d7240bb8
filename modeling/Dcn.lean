import Dcn.Foundation.Runs
import Dcn.Foundation.Bytes
import Dcn.Foundation.Loop
import Dcn.Memory.Queue
import Dcn.Memory.Map
import Dcn.Wire.Packet
import Dcn.Net.Connection
import Dcn.Net.Framing
import Dcn.Net.Writing
import Dcn.Server.Worker
import Dcn.Server.Registry
import Dcn.Server.Effects
import Dcn.Server.Interest
import Dcn.Server.Routing
import Dcn.Client.Session
import Dcn.Client.Conversation
import Dcn.Client.Mailbox
import Dcn.Foundation.Forest
import Dcn.Foundation.Worklist
import Dcn.Router.Forwarding
import Dcn.Router.Network
import Dcn.Router.Spread
import Dcn.Router.Storm
import Dcn.Router.Bridge
import Dcn.Wire.Codec
import Dcn.Net.Decoding
import Dcn.Memory.SlotRuns
import Dcn.Client.Delivery
import Dcn.Client.Integrity
import Dcn.Foundation.Wakeup
import Dcn.Sync.Waiter
import Dcn.Sync.Future
import Dcn.Client.Requests
import Dcn.Client.Numbering
import Dcn.Client.Answering
import Dcn.Client.Responses
import Dcn.Client.Serving
import Dcn.Sync.Granting
import Dcn.Net.Dispatch
import Dcn.Server.Ordering
import Dcn.Server.Polling
import Dcn.Net.Reading
import Dcn.Server.Ownership
import Dcn.Foundation.Custody
import Dcn.Router.Origin
import Dcn.Sync.Lifecycle
import Dcn.Sync.Once
import Dcn.Foundation.Records
import Dcn.Memory.FlatMap
import Dcn.Memory.MapRuns
import Dcn.Foundation.Linked
import Dcn.Memory.Allocator
import Dcn.Memory.Tracking
import Dcn.Client.Collecting
import Dcn.Client.Locking
import Dcn.Client.Peers
import Dcn.Memory.Array
import Dcn.Memory.Failing
import Dcn.Server.Broadcasting
import Dcn.Server.Uninitialised
import Dcn.Sync.Gathering
import Dcn.Foundation.Lifetime
import Dcn.Sync.Lifetime
import Dcn.Foundation.Heap
import Dcn.Sync.Blocks
import Dcn.Client.Refusals
import Dcn.Client.Traceroutes
import Dcn.Client.Calls
import Dcn.Router.Linking
import Dcn.Server.Headers
import Dcn.Sync.Events
import Dcn.System.Channels
import Dcn.Sync.Capacity
import Dcn.System.Stream
import Dcn.Sync.Shutdown
import Dcn.Foundation.Hierarchy
import Dcn.Sync.Locks
import Dcn.Router.Runners
import Dcn.Server.Dangling
import Dcn.Client.Gatherers
import Dcn.Memory.Pointers
import Dcn.Server.Lookups
import Dcn.Server.Stale
import Dcn.Client.Accepting
import Dcn.System.Isolation
import Dcn.Foundation.Locking
