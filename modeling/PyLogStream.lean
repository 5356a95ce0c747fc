import PyLogStream.Log.Session
import PyLogStream.Log.Isolation
import PyLogStream.Log.Structure
import PyLogStream.Log.Handles
import PyLogStream.Log.Retention
import PyLogStream.Log.Bounds
import PyLogStream.Log.References
import PyLogStream.Log.Rollover
import PyLogStream.Log.Recency
import PyLogStream.Log.Reclaim
import PyLogStream.Log.Restart
import PyLogStream.Network.Pull
import PyLogStream.Network.Completion
import PyLogStream.Network.ControllerConnection
import PyLogStream.Network.Connecting
import PyLogStream.Network.Handler
import PyLogStream.Network.WriteOrder
import PyLogStream.Network.Stored
import PyLogStream.Network.Batches
import PyLogStream.Network.DataTopics
import PyLogStream.Network.Requests
import PyLogStream.Network.Exchanges
import PyLogStream.Replication.Acks
import PyLogStream.Replication.Metadata
import PyLogStream.Replication.Monotone
import PyLogStream.Replication.IsrAgreement
import PyLogStream.Replication.Served
import PyLogStream.Replication.Rejected
import PyLogStream.Replication.Waiters
import PyLogStream.Replication.Shutdown
import PyLogStream.Metastore.Election
import PyLogStream.Metastore.Concurrent
import PyLogStream.Metastore.Restart
import PyLogStream.Metastore.Racing
import PyLogStream.Metastore.Resuming
import PyLogStream.Metastore.Interchange
import PyLogStream.Metastore.Values
import PyLogStream.Controller.Registration
import PyLogStream.Controller.Versions
import PyLogStream.Controller.Leadership
import PyLogStream.Controller.LeaderElection
import PyLogStream.Controller.Described
import PyLogStream.Controller.CascadeSteps
import PyLogStream.Controller.IsrList
import PyLogStream.Controller.ControlPlane
import PyLogStream.Controller.Takeover
import PyLogStream.Controller.Heartbeats
import PyLogStream.Protocol.Stream
import PyLogStream.Protocol.Errors
import PyLogStream.Client.Consumer
import PyLogStream.Client.Producer
