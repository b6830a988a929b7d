import Oxideq.Storage.Types

/-!
# Replicated commands

The records of `replication/types.rs` and the parts of openraft's log entries the state machine
looks at.
-/

namespace Oxideq

abbrev NodeId := UInt64

/-- The leader that wrote an entry. -/
structure LeaderId where
  term : UInt64
  nodeId : NodeId
  deriving DecidableEq, Repr

structure LogId where
  leaderId : LeaderId
  index : UInt64
  deriving DecidableEq, Repr

structure BasicNode where
  addr : String
  deriving DecidableEq, Repr

/-- A cluster configuration: its voter sets, two of them while it changes, and its nodes. -/
structure Membership where
  configs : List (List NodeId)
  nodes : List (NodeId × BasicNode)
  deriving DecidableEq, Repr

/-- The commands that modify the state machine. -/
inductive ClientRequest where
  | createQueue (name : String)
  | enqueue (queue : String) (data : Bytes)
  | dequeue (queue : String)
  | ack (taskId : String)
  | nack (taskId : String)
  | extendVisibility (taskId : String) (durationSeconds : UInt64)
  | enqueueBatch (queue : String) (data : List Bytes)
  | dequeueBatch (queue : String) (count : UInt64)
  | ackBatch (taskIds : List String)
  deriving DecidableEq, Repr

/-- The responses of the state machine. -/
inductive ClientResponse where
  | ok
  | task (task : Option (InFlightTask Bytes))
  | tasks (tasks : List (InFlightTask Bytes))
  | err (message : String)
  deriving DecidableEq, Repr

inductive EntryPayload where
  | blank
  | normal (req : ClientRequest)
  | membership (membership : Membership)
  deriving DecidableEq, Repr

/-- A log entry. -/
structure Entry where
  logId : LogId
  payload : EntryPayload
  deriving DecidableEq, Repr

end Oxideq
