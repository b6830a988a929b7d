import Oxideq.Lib.SortedTree
import Oxideq.Replication.CombinedStorage
import Mathlib.Data.Prod.Lex

/-!
# The storage of a Raft node

The callbacks of `replication/combined_storage.rs` that openraft calls on a node: the log and the
vote in a sled directory, the state machine beside it, and the snapshots between nodes.

A sled tree is an ordered map. The log entries are kept under the eight big-endian bytes of their
index, which order as the indexes do, so the tree is keyed by the index itself. The tree `store`
has two keys, the vote and the last purged log id. Every callback that writes flushes before it
returns, so a restart finds the directory as the last callback left it.

What `serde_json` makes of a snapshot is a parameter, `SnapshotFormat`: `toVec` writes the copied
tables, `fromSlice` reads any bytes.
-/

namespace Oxideq

/-! ### Log ids -/

/-- The derived order of log ids: by leader, then by index. -/
def LogId.rank (l : LogId) : ℕ ×ₗ ℕ ×ₗ ℕ :=
  toLex (l.leaderId.term.toNat, toLex (l.leaderId.nodeId.toNat, l.index.toNat))

instance : LE LogId := ⟨fun a b => a.rank ≤ b.rank⟩

instance (a b : LogId) : Decidable (a ≤ b) := inferInstanceAs (Decidable (a.rank ≤ b.rank))

theorem LogId.le_refl (l : LogId) : l ≤ l := le_rfl (a := l.rank)

/-- `id` is the largest of `ids`; there is none when there are no ids. -/
def Largest (ids : List LogId) : Option LogId → Prop
  | none => ids = []
  | some id => id ∈ ids ∧ ∀ id' ∈ ids, id' ≤ id

/-! ### What is stored -/

structure Vote where
  leaderId : LeaderId
  committed : Bool
  deriving DecidableEq, Repr

/-- A membership, and the id of the entry it comes from. -/
structure StoredMembership where
  logId : Option LogId
  membership : Membership
  deriving DecidableEq, Repr

/-- `Membership::default()`: no voters, no nodes. -/
def Membership.default : Membership := ⟨[], []⟩

/-- `StoredMembership::default()`. -/
def StoredMembership.default : StoredMembership := ⟨none, .default⟩

structure SnapshotMeta where
  lastLogId : Option LogId
  lastMembership : StoredMembership
  snapshotId : String
  deriving DecidableEq, Repr

structure Snapshot where
  snapshotMeta : SnapshotMeta
  snapshot : Bytes
  deriving DecidableEq, Repr

structure LogState where
  lastPurgedLogId : Option LogId
  lastLogId : Option LogId
  deriving DecidableEq, Repr

/-- The copies a snapshot is made of. -/
structure Tables where
  queues : DashMap (List (QueueItem Bytes))
  inFlight : DashMap (InFlightTask Bytes)

/-- `serde_json::to_vec` and `serde_json::from_slice` at the type of the copied tables. -/
structure SnapshotFormat where
  toVec : Tables → Bytes
  fromSlice : Bytes → Except String Tables

/-- The text of empty tables, `[{},{}]`. A node without queues writes and reads no other. -/
def SnapshotFormat.emptyTables : SnapshotFormat where
  toVec _ := [0x5b, 0x7b, 0x7d, 0x2c, 0x7b, 0x7d, 0x5d]
  fromSlice bs :=
    if bs = [0x5b, 0x7b, 0x7d, 0x2c, 0x7b, 0x7d, 0x5d] then .ok ⟨∅, ∅⟩
    else .error "expected value at line 1 column 1"

namespace InMemoryStorage

/-- `get_snapshot_data`, while nothing else runs. -/
def getSnapshotData (s : InMemoryStorage Bytes) : Tables := ⟨s.queues, s.inFlight⟩

/-- `restore_from_snapshot`: both tables are cleared and refilled. -/
def restoreFromSnapshot (s : InMemoryStorage Bytes) (t : Tables) : InMemoryStorage Bytes :=
  { s with queues := t.queues, inFlight := t.inFlight }

end InMemoryStorage

/-! ### The sled directory -/

/-- The trees `logs` and `store`. -/
structure SledDb where
  logs : SortedTree ℕ Entry
  vote : Option Vote
  lastPurgedLogId : Option LogId

namespace SledDb

/-- A directory that is opened for the first time. -/
def empty : SledDb := ⟨.empty, none, none⟩

/-- The last purged log id is written by `purge_logs_upto` and not read here. -/
def getLogState (db : SledDb) : LogState :=
  match db.logs.last with
  | some (_, entry) => ⟨none, some entry.logId⟩
  | none => ⟨none, none⟩

def saveVote (db : SledDb) (vote : Vote) : SledDb := { db with vote := some vote }

def readVote (db : SledDb) : Option Vote := db.vote

def appendToLog (db : SledDb) (entries : List Entry) : SledDb :=
  { db with logs := entries.foldl (fun t e => t.insert e.logId.index.toNat e) db.logs }

def deleteConflictLogsSince (db : SledDb) (logId : LogId) : SledDb :=
  { db with logs := db.logs.removeWhere (logId.index.toNat ≤ ·) }

def purgeLogsUpto (db : SledDb) (logId : LogId) : SledDb :=
  { db with
    logs := db.logs.removeWhere (· ≤ logId.index.toNat)
    lastPurgedLogId := some logId }

end SledDb

/-! ### The state machine callbacks -/

namespace CombinedStorage

/-- `last_applied_state`: the membership it reports is always the default one. -/
def lastAppliedState (c : CombinedStorage) : Option LogId × StoredMembership :=
  (c.lastAppliedLog, ⟨c.lastAppliedLog, .default⟩)

/-- `format!("snap-{}", last_log.map(|l| l.index).unwrap_or(0))`. -/
def snapshotName (lastLog : Option LogId) : String :=
  "snap-" ++ toString ((lastLog.map (·.index)).getD 0)

/-- `build_snapshot`, while nothing else runs. -/
def buildSnapshot (format : SnapshotFormat) (c : CombinedStorage) : Snapshot where
  snapshotMeta :=
    { lastLogId := c.lastAppliedLog
      lastMembership := ⟨c.lastAppliedLog, .default⟩
      snapshotId := snapshotName c.lastAppliedLog }
  snapshot := format.toVec c.stateMachine.getSnapshotData

/-- `install_snapshot`: bytes that do not decode change nothing. -/
def installSnapshot (format : SnapshotFormat) (c : CombinedStorage)
    (snapshotMeta : SnapshotMeta) (snapshot : Bytes) :
    Except String Unit × CombinedStorage :=
  match format.fromSlice snapshot with
  | .error e => (.error e, c)
  | .ok tables => (.ok (), ⟨c.stateMachine.restoreFromSnapshot tables, snapshotMeta.lastLogId⟩)

/-- `get_current_snapshot` keeps nothing to offer. -/
def getCurrentSnapshot (_ : CombinedStorage) : Option Snapshot := none

end CombinedStorage

/-! ### The node -/

/-- A node: its directory, and the state machine of the running process. -/
structure RaftNode where
  db : SledDb
  storage : CombinedStorage

namespace RaftNode

/-- The first start of a node, on an empty directory. -/
def new : RaftNode := ⟨.empty, .new⟩

/-- The callbacks that change a node or hand out a snapshot, and a restart of the process:
`CombinedStorage::new` on the same directory with a fresh `InMemoryStorage`. -/
inductive Event where
  | appendToLog (entries : List Entry)
  | deleteConflictLogsSince (logId : LogId)
  | purgeLogsUpto (logId : LogId)
  | saveVote (vote : Vote)
  | applyToStateMachine (envs : ℕ → Env) (entries : List Entry)
  | buildSnapshot
  | installSnapshot (snapshotMeta : SnapshotMeta) (snapshot : Bytes)
  | restart

def step (format : SnapshotFormat) (n : RaftNode) : Event → RaftNode
  | .appendToLog entries => { n with db := n.db.appendToLog entries }
  | .deleteConflictLogsSince logId => { n with db := n.db.deleteConflictLogsSince logId }
  | .purgeLogsUpto logId => { n with db := n.db.purgeLogsUpto logId }
  | .saveVote vote => { n with db := n.db.saveVote vote }
  | .applyToStateMachine envs entries =>
    { n with storage := (n.storage.applyToStateMachine envs entries).2 }
  | .buildSnapshot => n
  -- an error leaves the state machine as it is, so only the second half is kept
  | .installSnapshot snapshotMeta snapshot =>
    { n with storage := (n.storage.installSnapshot format snapshotMeta snapshot).2 }
  -- the state machine of a process is never written to the directory
  | .restart => ⟨n.db, .new⟩

end RaftNode

end Oxideq
