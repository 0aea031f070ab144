import Swarm.Hlc
import Swarm.Convergence
import Swarm.Merkle.Attestations
import Swarm.Merkle.Drift
import Swarm.Gate
import Swarm.Engine.Flood
import Swarm.Engine.Forwarding
import Swarm.Engine.Exchange
import Swarm.Sync
import Swarm.Authentic
import Swarm.Adversary
import Swarm.Store.Orders
import Swarm.Store.Death
import Swarm.Store.Caps
import Swarm.Store.Restored
import Swarm.Store.Retention
import Swarm.Engine.OwnWrites
import Swarm.Engine.Outbound
import Swarm.Engine.Stream
import Swarm.Engine.Grafts
import Swarm.Engine.Departed
import Swarm.Subscribe.Once
import Swarm.Subscribe.Gap
import Swarm.Subscribe.Drain
import Swarm.Content.Fetch
import Swarm.Content.Pending
import Swarm.Content.Holders
import Swarm.Wire
import Swarm.Tokens
import Swarm.Topics
import Swarm.Store.Window
import Swarm.Content.Authors
import Swarm.Content.Serve
import Swarm.Merkle.Order
import Swarm.Identity
import Swarm.Backpressure
import Swarm.Engine.Reach
import Swarm.Engine.Repair
import Swarm.Engine.Core
import Swarm.Engine.Gossip
import Swarm.Engine.Reads
import Swarm.Lifecycle
import Swarm.Lib.SliceHeap
import Swarm.Sim.Mesh
import Swarm.Sim.Stub
