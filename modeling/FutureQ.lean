import FutureQ.Core.ByteOrder
import FutureQ.Core.GoRuntime
import FutureQ.Core.OrderedStore
import FutureQ.Core.Transition
import FutureQ.Storage.Contract
import FutureQ.Storage.Keys
import FutureQ.Storage.Repository
import FutureQ.Core.Buffer
import FutureQ.Event.Commands
import FutureQ.Event.CommandCodec
import FutureQ.Event.StateMachine
import FutureQ.Event.Journal
import FutureQ.Event.Replica
import FutureQ.Event.Replay
import FutureQ.Event.Freshness
import FutureQ.Event.DeleteRetry
import FutureQ.Event.Snapshot
import FutureQ.Event.CatchUp
import FutureQ.Event.Streaming
import FutureQ.Broker.Producer
import FutureQ.Broker.Acknowledged
import FutureQ.Broker.CommitOrder
import FutureQ.Broker.Deleter
import FutureQ.Broker.BadTag
import FutureQ.Broker.Consumers
import FutureQ.Storage.DueScan
import FutureQ.Broker.Subscriptions
import FutureQ.Broker.Dispatcher
import FutureQ.Broker.Punctual
import FutureQ.Broker.Isolation
import FutureQ.Broker.Backends
import FutureQ.Broker.WritePaths
import FutureQ.Event.KeySpace
import FutureQ.Broker.Indexes
import FutureQ.Metadata.Commands
import FutureQ.Metadata.Codec
import FutureQ.Metadata.StateMachine
import FutureQ.Metadata.Recovery
import FutureQ.Metadata.Service
import FutureQ.Broker.Rounds
import FutureQ.Broker.Redelivery
import FutureQ.Broker.AtLeastOnce
import FutureQ.Broker.Deleted
import FutureQ.Broker.Startup
import FutureQ.Event.Engines
import FutureQ.Event.Decoders
import FutureQ.Event.SnapshotStream
import FutureQ.Broker.Janitor
import FutureQ.Broker.Suppression
import FutureQ.Broker.Registry
import FutureQ.Cluster.Members
import FutureQ.Cluster.Join
import FutureQ.Broker.DeleteLoop
import FutureQ.Core.SortedCursor
import FutureQ.Storage.Bolt
import FutureQ.Broker.Fanout
import FutureQ.Broker.RoundRobin
import FutureQ.Broker.InFlightLists
import FutureQ.Broker.AllOrNothing
import FutureQ.Broker.Subscribe
import FutureQ.Core.Mailbox
import FutureQ.Broker.Backlog
import FutureQ.Cluster.Failover
import FutureQ.Broker.DispatchLoop
import FutureQ.Broker.PublishStream
import FutureQ.Cluster.StreamOrder
import FutureQ.Broker.DispatchAll
import FutureQ.Broker.LoopPass
import FutureQ.Broker.Expiry
import FutureQ.Cluster.Handlers
import FutureQ.Metadata.Directory
import FutureQ.Cluster.SharedLog
import FutureQ.Cluster.Durability
import FutureQ.Cluster.Settled
import FutureQ.Broker.Shutdown
import FutureQ.Broker.LastFlush
import FutureQ.Broker.Lifetime
