import Oxideq.Lib.JsonTyped
import Oxideq.Replication.AppendEntries
import Oxideq.Replication.Snapshot

/-!
# The text of a snapshot

`build_snapshot` copies the two tables of the state machine and writes the copies as one JSON text,
an array of two objects keyed by queue names and task ids. `install_snapshot` reads such a text and
refills the tables of its own state machine. The format is written out here field by field; what
comes from outside the source, the texts of timestamps and of refusals, is a parameter
(`SerdeTexts`).

Every reader undoes its writer (`Tables.reads`), whatever order the copies are iterated in, and
copying and refilling a table entry by entry gives the table (`getSnapshotData_refill`,
`restoreFromSnapshot_refill`). The state machine of a node has no log of its own, so all there is
to it are the tables, and the two nodes are equal once the snapshot is installed. They stay so
under the same entries and the same draws. Together, `CombinedStorage.snapshot_round_trip`.
-/

namespace Oxideq

open Json (Value Reads asArray asFields asMap asString asUInt8 asUInt32 members)

/-! ### Writing -/

/-- What is not in the source: chrono's text of a timestamp and what it reads from a text, and the
words in which `serde_json` refuses bytes. -/
structure SerdeTexts where
  ofTimestamp : Int → String
  toTimestamp : String → Option Int
  refusal : Bytes → String

/-- The text of the epoch, the only timestamp of a node whose clock stands still there. -/
def SerdeTexts.epoch : SerdeTexts where
  ofTimestamp _ := "1970-01-01T00:00:00Z"
  toTimestamp text := if text = "1970-01-01T00:00:00Z" then some 0 else none
  refusal _ := "expected value at line 1 column 1"

def QueueItem.toValue (item : QueueItem Bytes) : Value :=
  .obj [("data", bytesValue item.data), ("delivery_attempts", .int item.deliveryAttempts.toNat)]

def InFlightTask.toValue (texts : SerdeTexts) (task : InFlightTask Bytes) : Value :=
  .obj [("id", .str task.id), ("data", bytesValue task.data),
    ("consumed_at", .str (texts.ofTimestamp task.consumedAt)),
    ("queue_name", .str task.queueName),
    ("delivery_attempts", .int task.deliveryAttempts.toNat)]

/-- The pair of the copied maps; each is iterated in an order of its own. -/
def Tables.toValue (texts : SerdeTexts) (queueOrder taskOrder : IterOrder) (t : Tables) : Value :=
  .arr
    [.obj (members (queueOrder.list t.queues.keys.val)
      (fun items => .arr (items.map QueueItem.toValue)) t.queues),
    .obj (members (taskOrder.list t.inFlight.keys.val) (InFlightTask.toValue texts) t.inFlight)]

/-! ### Reading -/

def QueueItem.ofValue (v : Value) : Option (QueueItem Bytes) :=
  match asFields ["data", "delivery_attempts"] v with
  -- the fields come back in the order they are asked for, whatever their order in the text
  | some [data, deliveryAttempts] => do
    let data ← asArray asUInt8 data
    let deliveryAttempts ← asUInt32 deliveryAttempts
    return ⟨data, deliveryAttempts⟩
  | _ => none

def InFlightTask.ofValue (texts : SerdeTexts) (v : Value) : Option (InFlightTask Bytes) :=
  match asFields ["id", "data", "consumed_at", "queue_name", "delivery_attempts"] v with
  | some [id, data, consumedAt, queueName, deliveryAttempts] => do
    let id ← asString id
    let data ← asArray asUInt8 data
    let consumedAt ← (asString consumedAt).bind texts.toTimestamp
    let queueName ← asString queueName
    let deliveryAttempts ← asUInt32 deliveryAttempts
    return ⟨id, data, consumedAt, queueName, deliveryAttempts⟩
  | _ => none

def Tables.ofValue (texts : SerdeTexts) : Value → Option Tables
  | .arr [queues, inFlight] => do
    let queues ← asMap (asArray QueueItem.ofValue) queues
    let inFlight ← asMap (InFlightTask.ofValue texts) inFlight
    return ⟨queues, inFlight⟩
  | _ => none

/-- The format of `serde_json`. A member that no field asks for is skipped; here its value has to
be a JSON text too. -/
def SnapshotFormat.json (texts : SerdeTexts) (queueOrder taskOrder : IterOrder) :
    SnapshotFormat where
  toVec t := Json.print (t.toValue texts queueOrder taskOrder)
  fromSlice bs :=
    match (Json.parse bs).bind (Tables.ofValue texts) with
    | some t => .ok t
    | none => .error (texts.refusal bs)

/-! ### Round trips -/

theorem reads_bytes (data : Bytes) : Reads (asArray asUInt8) (bytesValue data) data :=
  Json.reads_array fun b _ => Json.reads_uint8 b

theorem QueueItem.reads (item : QueueItem Bytes) : Reads ofValue item.toValue item := by
  have hdata := reads_bytes item.data
  have hattempts := Json.reads_uint32 item.deliveryAttempts
  refine ⟨?_, ?_⟩
  · simp only [toValue, Json.noFloat, Json.noFloatMembers, hdata.noFloat, Bool.and_self]
  · have hfields : asFields ["data", "delivery_attempts"] item.toValue
        = some [bytesValue item.data, .int item.deliveryAttempts.toNat] := rfl
    rw [ofValue, hfields]
    simp only [hdata.eq_some, hattempts.eq_some]
    rfl

/-- The timestamps of the tasks in flight are read back. -/
def Tables.Timestamped (texts : SerdeTexts) (t : Tables) : Prop :=
  ∀ id task, t.inFlight.lookup id = some task →
    texts.toTimestamp (texts.ofTimestamp task.consumedAt) = some task.consumedAt

theorem InFlightTask.reads {texts : SerdeTexts} {task : InFlightTask Bytes}
    (h : texts.toTimestamp (texts.ofTimestamp task.consumedAt) = some task.consumedAt) :
    Reads (ofValue texts) (task.toValue texts) task := by
  have hdata := reads_bytes task.data
  have hattempts := Json.reads_uint32 task.deliveryAttempts
  refine ⟨?_, ?_⟩
  · simp only [toValue, Json.noFloat, Json.noFloatMembers, hdata.noFloat, Bool.and_self]
  · have hfields : asFields ["id", "data", "consumed_at", "queue_name", "delivery_attempts"]
        (task.toValue texts)
        = some [.str task.id, bytesValue task.data,
          .str (texts.ofTimestamp task.consumedAt), .str task.queueName,
          .int task.deliveryAttempts.toNat] := rfl
    rw [ofValue, hfields]
    simp only [hdata.eq_some, hattempts.eq_some, (Json.reads_string _).eq_some, Option.bind_some, h]
    rfl

theorem Tables.reads {texts : SerdeTexts} {t : Tables} (h : t.Timestamped texts)
    (queueOrder taskOrder : IterOrder) :
    Reads (ofValue texts) (t.toValue texts queueOrder taskOrder) t := by
  have hqueues : Reads (asMap (asArray QueueItem.ofValue))
      (.obj (members (queueOrder.list t.queues.keys.val)
        (fun items => .arr (items.map QueueItem.toValue)) t.queues)) t.queues :=
    Json.reads_map (fun _ items _ => Json.reads_array fun item _ => item.reads)
      (queueOrder.coe_list _)
  have hinFlight : Reads (asMap (InFlightTask.ofValue texts))
      (.obj (members (taskOrder.list t.inFlight.keys.val) (InFlightTask.toValue texts)
        t.inFlight)) t.inFlight :=
    Json.reads_map (fun id task hl => InFlightTask.reads (h id task hl)) (taskOrder.coe_list _)
  refine ⟨?_, ?_⟩
  · rw [toValue, Json.noFloat, Json.noFloats, hqueues.noFloat, Json.noFloats, hinFlight.noFloat]
    rfl
  · rw [toValue, ofValue]
    simp only [hqueues.eq_some, hinFlight.eq_some]
    rfl

/-- A snapshot that was written is read as the tables it was made of. -/
theorem SnapshotFormat.fromSlice_toVec {texts : SerdeTexts} {t : Tables}
    (h : t.Timestamped texts) (queueOrder taskOrder : IterOrder) :
    (json texts queueOrder taskOrder).fromSlice ((json texts queueOrder taskOrder).toVec t)
      = .ok t := by
  have hparse := (Tables.reads h queueOrder taskOrder).parse_print
  simp only [json, hparse]

/-! ### Copying and refilling -/

namespace InMemoryStorage

/-- `get_snapshot_data` iterates over each table and collects its entries in a fresh map. -/
theorem getSnapshotData_refill (s : InMemoryStorage Bytes) (queueOrder taskOrder : IterOrder) :
    s.getSnapshotData
      = ⟨Table.refill s.queues (queueOrder.list s.queues.keys.val) ∅,
        Table.refill s.inFlight (taskOrder.list s.inFlight.keys.val) ∅⟩ := by
  rw [Table.refill_eq (queueOrder.coe_list _), Table.refill_eq (taskOrder.coe_list _)]
  rfl

/-- `restore_from_snapshot` clears each table and inserts the entries of the map it is given. -/
theorem restoreFromSnapshot_refill (s : InMemoryStorage Bytes) (t : Tables)
    (queueOrder taskOrder : IterOrder) :
    s.restoreFromSnapshot t
      = { s with
          queues := Table.refill t.queues (queueOrder.list t.queues.keys.val) ∅
          inFlight := Table.refill t.inFlight (taskOrder.list t.inFlight.keys.val) ∅ } := by
  rw [Table.refill_eq (queueOrder.coe_list _), Table.refill_eq (taskOrder.coe_list _)]
  rfl

end InMemoryStorage

/-! ### What a node is -/

/-- Any state of a node: its tables, which are all there is to a state machine without a log, and
the id of the last entry it has applied. -/
def CombinedStorage.ofTables (t : Tables) (lastAppliedLog : Option LogId) : CombinedStorage :=
  ⟨⟨t.queues, t.inFlight, none⟩, lastAppliedLog⟩

/-! ### Installing a snapshot -/

namespace CombinedStorage

/-- A node in any state becomes the node the snapshot was built on. -/
theorem installSnapshot_buildSnapshot {texts : SerdeTexts} {source : CombinedStorage}
    (hwal : source.stateMachine.wal = none)
    (htexts : source.stateMachine.getSnapshotData.Timestamped texts)
    (queueOrder taskOrder : IterOrder) (t : Tables) (lastAppliedLog : Option LogId) :
    let format := SnapshotFormat.json texts queueOrder taskOrder
    let snapshot := source.buildSnapshot format
    (ofTables t lastAppliedLog).installSnapshot format snapshot.snapshotMeta snapshot.snapshot
      = (.ok (), source) := by
  intro format snapshot
  have hread : format.fromSlice snapshot.snapshot = .ok source.stateMachine.getSnapshotData :=
    SnapshotFormat.fromSlice_toVec htexts queueOrder taskOrder
  rw [installSnapshot, hread]
  -- with no log the tables and the id are the whole node
  obtain ⟨⟨queues, inFlight, wal⟩, last⟩ := source
  change wal = none at hwal
  rw [hwal]
  rfl

/-- The node that a log leads to. -/
def reached (envs : ℕ → Env) (log : List Entry) : CombinedStorage :=
  (new.applyToStateMachine envs log).2

/-- **Snapshot round trip.** A snapshot of a state that a log leads to, installed on a node in any
state, leaves there the queues, the tasks in flight and the last applied id of its source, and
whatever entries follow have the same responses and the same effect on both. Bytes that are not a
snapshot change nothing. -/
theorem snapshot_round_trip (texts : SerdeTexts) (queueOrder taskOrder : IterOrder)
    (envs : ℕ → Env) (log : List Entry)
    (htexts : ∀ id task, (reached envs log).stateMachine.inFlight.lookup id = some task →
      texts.toTimestamp (texts.ofTimestamp task.consumedAt) = some task.consumedAt)
    (t : Tables) (lastAppliedLog : Option LogId) :
    let format := SnapshotFormat.json texts queueOrder taskOrder
    let source := reached envs log
    let target := ofTables t lastAppliedLog
    let snapshot := source.buildSnapshot format
    (∃ installed : CombinedStorage,
      target.installSnapshot format snapshot.snapshotMeta snapshot.snapshot = (.ok (), installed) ∧
      installed.stateMachine.queues = source.stateMachine.queues ∧
      installed.stateMachine.inFlight = source.stateMachine.inFlight ∧
      installed.lastAppliedLog = source.lastAppliedLog ∧
      ∀ (suffix : List Entry) (envs envs' : ℕ → Env), (∀ k, (envs k).SameDraws (envs' k)) →
        installed.applyToStateMachine envs suffix = source.applyToStateMachine envs' suffix) ∧
    ∀ (snapshotMeta : SnapshotMeta) (bytes : Bytes),
      (∀ tables, format.fromSlice bytes ≠ .ok tables) →
        ∃ e, target.installSnapshot format snapshotMeta bytes = (.error e, target) := by
  intro format source target snapshot
  have hwal : source.stateMachine.wal = none := applyToStateMachine_wal rfl envs log
  constructor
  · refine ⟨source,
      installSnapshot_buildSnapshot hwal htexts queueOrder taskOrder t lastAppliedLog, rfl, rfl,
      rfl, fun suffix envs envs' h => applyToStateMachine_congr hwal h suffix⟩
  · intro snapshotMeta bytes hbytes
    cases hread : format.fromSlice bytes with
    | error e => exact ⟨e, by rw [installSnapshot, hread]⟩
    | ok tables => exact absurd hread (hbytes tables)

/-! ### A task in flight -/

/-- The snapshot is installed on a node with a queue of its own. -/
theorem snapshot_round_trip_delivered :
    let format := SnapshotFormat.json .epoch .sorted .sorted
    let source := reached (fun _ => Env.quiet ["t1"]) SharedStorage.jobLog
    let target := ofTables ⟨Finmap.singleton "old" [⟨[0x6f], 2⟩], ∅⟩ none
    let snapshot := source.buildSnapshot format
    ∃ installed : CombinedStorage,
      target.installSnapshot format snapshot.snapshotMeta snapshot.snapshot = (.ok (), installed) ∧
      installed.stateMachine.queues = source.stateMachine.queues ∧
      installed.stateMachine.inFlight = source.stateMachine.inFlight ∧
      installed.lastAppliedLog = source.lastAppliedLog := by
  have htexts : Tables.Timestamped .epoch
      (reached (fun _ => Env.quiet ["t1"]) SharedStorage.jobLog).stateMachine.getSnapshotData := by
    intro id task hl
    have hentries : ∀ e ∈ (reached (fun _ => Env.quiet ["t1"])
        SharedStorage.jobLog).stateMachine.inFlight.entries, e.2.consumedAt = 0 := by
      decide +kernel
    rw [hentries _ (Finmap.lookup_eq_some_iff.mp hl)]
    rfl
  obtain ⟨⟨installed, hinstall, hqueues, hinFlight, hlast, -⟩, -⟩ :=
    snapshot_round_trip .epoch .sorted .sorted (fun _ => Env.quiet ["t1"]) SharedStorage.jobLog
      htexts ⟨Finmap.singleton "old" [⟨[0x6f], 2⟩], ∅⟩ none
  exact ⟨installed, hinstall, hqueues, hinFlight, hlast⟩

end CombinedStorage

end Oxideq
