import Cmw.Library.Run
import Cmw.Library.ByteImage
import Cmw.Library.Ordered
import Cmw.Library.Table
import Cmw.Library.Decimal
import Cmw.Library.Lines
import Cmw.Library.Thread
import Cmw.Library.Ring
import Cmw.Library.Atomic
import Cmw.Library.Linked
import Cmw.Library.Heap
import Cmw.Library.Sequential
import Cmw.Library.Probing
import Cmw.Library.Traverse
import Cmw.Base.Signal
import Cmw.Base.Emission
import Cmw.Base.BoundedQueue
import Cmw.Base.QueueOrder
import Cmw.Base.UnboundedQueue
import Cmw.Base.UnboundedNodes
import Cmw.Base.UnboundedSteps
import Cmw.Base.UnboundedRuns
import Cmw.Base.ConcurrentObjectPool
import Cmw.Base.PoolPlaces
import Cmw.Base.PoolConstruction
import Cmw.Base.AtomicHashMap
import Cmw.Base.ConcurrentMap
import Cmw.Base.Buckets
import Cmw.Base.ConcurrentCalls
import Cmw.Base.Linearization
import Cmw.Base.AtomicRWLock
import Cmw.Task.Pools
import Cmw.Task.Accounting
import Cmw.Scheduler.RemoveTask
import Cmw.Scheduler.SchedulerClassic
import Cmw.Scheduler.CRoutine
import Cmw.Scheduler.ClassicContext
import Cmw.Scheduler.Turns
import Cmw.Scheduler.DataRoutine
import Cmw.Scheduler.Wakeup
import Cmw.Scheduler.PinThread
import Cmw.Scheduler.Affinity
import Cmw.Task.Workers
import Cmw.Serialize.DataStream
import Cmw.Serialize.Types
import Cmw.Serialize.Image
import Cmw.Config.RoleAttributes
import Cmw.Time.Rate
import Cmw.Common.GlobalData
import Cmw.Serialize.RoundTrip
import Cmw.Serialize.Fifo
import Cmw.Serialize.Malformed
import Cmw.Serialize.Mismatch
import Cmw.Serialize.Size
import Cmw.Serialize.Vector
import Cmw.Serialize.Reserve
import Cmw.Serialize.Show
import Cmw.Discovery.Graph
import Cmw.Discovery.GraphExact
import Cmw.Discovery.Direction
import Cmw.Discovery.Role
import Cmw.Discovery.SpecificManager
import Cmw.Discovery.Warehouses
import Cmw.Discovery.NodeGraph
import Cmw.Discovery.Neighbours
import Cmw.Discovery.Replication
import Cmw.Discovery.TopoLeave
import Cmw.Discovery.EarliestNode
import Cmw.Discovery.TopologyManager
import Cmw.Discovery.Kinds
import Cmw.Transport.Endpoint
import Cmw.Transport.MessageInfo
import Cmw.Transport.Receiver
import Cmw.Transport.Connections
import Cmw.Transport.Transmitter
import Cmw.Transport.Payload
import Cmw.Blocker.Blocker
import Cmw.Blocker.BlockerManager
import Cmw.Node.Subscriber
import Cmw.Node.NodeChannelImpl
import Cmw.Discovery.HasNode
import Cmw.Node.CroutineNames
import Cmw.Transport.RtpsDispatcher
import Cmw.Node.Publisher
import Cmw.Node.FlowNames
import Cmw.Transport.Shm.ShmConf
import Cmw.Transport.Shm.Kernel
import Cmw.Transport.Shm.Segment
import Cmw.Transport.Shm.SegmentRules
import Cmw.Transport.Shm.NullSafety
import Cmw.Transport.Shm.Layout
import Cmw.Transport.Shm.Message
import Cmw.Transport.Shm.Blocks
import Cmw.Transport.Shm.Openers
import Cmw.Transport.Shm.ReadMessage
import Cmw.Transport.Shm.ReferenceCount
import Cmw.Transport.Shm.Ownership
import Cmw.Transport.Shm.ConditionNotifier
import Cmw.Transport.Shm.Publication
import Cmw.Transport.Shm.Lag
import Cmw.Transport.Shm.Routing
import Cmw.Data.CacheBuffer
import Cmw.Data.DataVisitor
import Cmw.Data.AllLatest
import Cmw.ClassLoader.Holders
import Cmw.ClassLoader.ClassLoaderManager
import Cmw.Library.Memory
import Cmw.Library.Amd64
import Cmw.Library.Broadcast
import Cmw.Library.Earliest
import Cmw.Croutine.RoutineContext
import Cmw.Croutine.Switching
import Cmw.Croutine.Transparent
import Cmw.Scheduler.Tasks
import Cmw.Scheduler.TaskRules
import Cmw.Scheduler.TaskRuns
import Cmw.Data.DataDispatcher
import Cmw.Discovery.Network
import Cmw.Discovery.ChannelNetwork
import Cmw.Discovery.FlowAgreement
import Cmw.Discovery.NodeNetwork
import Cmw.Serialize.Decodable
import Cmw.Transport.Shm.Multicast
import Cmw.Node.Delivery
