import Oxideq.Storage.Types
import Oxideq.Storage.Memory
import Oxideq.Lib.Json
import Oxideq.Lib.JsonRoundTrip
import Oxideq.Storage.Replay
import Oxideq.Lib.JsonScan
import Oxideq.Lib.JsonLines
import Oxideq.Storage.Call
import Oxideq.Storage.Recovery
import Oxideq.Storage.TornTail
import Oxideq.Http.App
import Oxideq.Http.Network
import Oxideq.Replication.Agreement
import Oxideq.Concurrent.Alignment
import Oxideq.Concurrent.BatchAck
import Oxideq.Concurrent.Cancel
import Oxideq.Concurrent.Creation
import Oxideq.Concurrent.QueueNames
import Oxideq.Concurrent.Restarts
import Oxideq.Http.BatchFormats
import Oxideq.Replication.AppendEntries
import Oxideq.Replication.Compaction
import Oxideq.Replication.TrackedMembership
import Oxideq.Sequential.Heartbeat
import Oxideq.Sequential.Location
import Oxideq.Sequential.Origins
import Oxideq.Storage.Divergence
import Oxideq.Concurrent.Progress
import Oxideq.Replication.Snapshot
import Oxideq.Http.Cluster
import Oxideq.Storage.Batches
import Oxideq.Sequential.Failures
import Oxideq.Sequential.Arrival
import Oxideq.Sequential.Retries
import Oxideq.Replication.LeaderCleanup
import Oxideq.Replication.LogStore
import Oxideq.Replication.MessageText
import Oxideq.Replication.Directory
import Oxideq.Http.Service
import Oxideq.Http.Integrity
import Oxideq.Replication.SnapshotText
import Oxideq.Http.Accept
import Oxideq.Storage.WalFile
import Oxideq.Storage.AnyFile
import Oxideq.Replication.Reachable
import Oxideq.Concurrent.Outcomes
import Oxideq.Sequential.Timeouts
import Oxideq.Storage.Frames
import Oxideq.Http.Routes
import Oxideq.Concurrent.Ownership
import Oxideq.Concurrent.Atomic
import Oxideq.Concurrent.Linearizable
import Oxideq.Lib.Descent
import Oxideq.Concurrent.Termination
import Oxideq.Concurrent.Sweep
import Oxideq.Concurrent.Dropped
