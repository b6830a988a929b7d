import Oxideq.Replication.AppendEntries
import Oxideq.Replication.SnapshotText

/-!
# The texts of entries and messages

How the messages of `AppendEntries` are read back. A log entry, a vote and a log id are stored in
the sled directory as JSON, and a leader posts its entries as JSON, each with the serialisation
serde derives: records by their field names, enumerations externally tagged, an absent `Option` as
`null` or not at all, and the maps and sets of a membership as objects and arrays that are read
in the order of their keys.

The readers accept everything a derived deserializer does, so other versions of a text are read
too; what is proved is that a text that was written is read as what it was written for. The lists
that stand for the ordered sets and maps of a membership have to be in order
(`Membership.Ordered`), because the reader puts them in order.
-/

namespace Oxideq

open Json (Value Reads asUInt8 asUInt64 asBool asString asArray asOption asOptFields asSingle
  asPair asSet asNumberMap asVariant)

/-! ### Reading -/

def LeaderId.ofValue (v : Value) : Option LeaderId :=
  (asPair "term" asUInt64 "node_id" asUInt64 v).map fun p => ⟨p.1, p.2⟩

def LogId.ofValue (v : Value) : Option LogId :=
  (asPair "leader_id" LeaderId.ofValue "index" asUInt64 v).map fun p => ⟨p.1, p.2⟩

def Vote.ofValue (v : Value) : Option Vote :=
  (asPair "leader_id" LeaderId.ofValue "committed" asBool v).map fun p => ⟨p.1, p.2⟩

/-- A `Vec<u8>`. -/
def asBytes : Value → Option Bytes := asArray asUInt8

def ClientRequest.ofValue (v : Value) : Option ClientRequest :=
  match asVariant v with
  | some ("CreateQueue", some v) => (asSingle "name" asString v).map .createQueue
  | some ("Enqueue", some v) =>
    (asPair "queue" asString "data" asBytes v).map fun p => .enqueue p.1 p.2
  | some ("Dequeue", some v) => (asSingle "queue" asString v).map .dequeue
  | some ("Ack", some v) => (asSingle "task_id" asString v).map .ack
  | some ("Nack", some v) => (asSingle "task_id" asString v).map .nack
  | some ("ExtendVisibility", some v) =>
    (asPair "task_id" asString "duration_seconds" asUInt64 v).map fun p =>
      .extendVisibility p.1 p.2
  | some ("EnqueueBatch", some v) =>
    (asPair "queue" asString "data" (asArray asBytes) v).map fun p => .enqueueBatch p.1 p.2
  | some ("DequeueBatch", some v) =>
    (asPair "queue" asString "count" asUInt64 v).map fun p => .dequeueBatch p.1 p.2
  | some ("AckBatch", some v) => (asSingle "task_ids" (asArray asString) v).map .ackBatch
  | _ => none

def BasicNode.ofValue (v : Value) : Option BasicNode := (asSingle "addr" asString v).map .mk

/-- The voter sets are `BTreeSet`s, the nodes a `BTreeMap`. -/
def Membership.ofValue (v : Value) : Option Membership :=
  (asPair "configs" (asArray (asSet asUInt64 UInt64.toNat))
    "nodes" (asNumberMap (2 ^ 64) BasicNode.ofValue) v).map fun p =>
      ⟨p.1, p.2.map fun n => (UInt64.ofNat n.1, n.2)⟩

def EntryPayload.ofValue (v : Value) : Option EntryPayload :=
  match asVariant v with
  | some ("Blank", none) => some .blank
  | some ("Blank", some .null) => some .blank
  | some ("Normal", some v) => (ClientRequest.ofValue v).map .normal
  | some ("Membership", some v) => (Membership.ofValue v).map .membership
  | _ => none

def Entry.ofValue (v : Value) : Option Entry :=
  (asPair "log_id" LogId.ofValue "payload" EntryPayload.ofValue v).map fun p => ⟨p.1, p.2⟩

def AppendEntriesRequest.ofValue (v : Value) : Option AppendEntriesRequest :=
  match asOptFields
    [("vote", false), ("prev_log_id", true), ("entries", false), ("leader_commit", true)] v with
  | some [vote, prevLogId, entries, leaderCommit] => do
    let vote ← Vote.ofValue vote
    let prevLogId ← asOption LogId.ofValue prevLogId
    let entries ← asArray Entry.ofValue entries
    let leaderCommit ← asOption LogId.ofValue leaderCommit
    return ⟨vote, prevLogId, entries, leaderCommit⟩
  | _ => none

/-- What the peer makes of a body. -/
def AppendEntriesRequest.ofBody (body : Bytes) : Option AppendEntriesRequest :=
  (Json.parse body).bind AppendEntriesRequest.ofValue

/-! ### What is written is read back -/

theorem LeaderId.reads (l : LeaderId) : Reads ofValue l.toValue l :=
  (Json.reads_pair "term" "node_id" (by decide)
    (Json.reads_uint64 l.term) (Json.reads_uint64 l.nodeId)).map _

theorem LogId.reads (l : LogId) : Reads ofValue l.toValue l :=
  (Json.reads_pair "leader_id" "index" (by decide)
    l.leaderId.reads (Json.reads_uint64 l.index)).map _

theorem reads_optLogId (l : Option LogId) : Reads (asOption LogId.ofValue) (optLogId l) l := by
  cases l with
  | none => exact Json.reads_none _
  | some l => exact l.reads.some (by simp [LogId.toValue])

theorem Vote.reads (v : Vote) : Reads ofValue v.toValue v :=
  (Json.reads_pair "leader_id" "committed" (by decide)
    v.leaderId.reads (Json.reads_bool v.committed)).map _

theorem reads_strings (ss : List String) : Reads (asArray asString) (.arr (ss.map .str)) ss :=
  Json.reads_array fun s _ => Json.reads_string s

theorem reads_byteLists (data : List Bytes) :
    Reads (asArray asBytes) (.arr (data.map bytesValue)) data :=
  Json.reads_array fun d _ => reads_bytes d

theorem ClientRequest.reads (req : ClientRequest) : Reads ofValue req.toValue req := by
  cases req with
  | createQueue name =>
    have h := Json.reads_single "name" (Json.reads_string name)
    exact Json.reads_variant "CreateQueue" (by simp [ofValue, asVariant]) h
  | enqueue queue data =>
    have hdata : Reads asBytes (bytesValue data) data := reads_bytes data
    have h := Json.reads_pair "queue" "data" (by decide) (Json.reads_string queue) hdata
    exact Json.reads_variant (f := ofValue) (c := fun p => .enqueue p.1 p.2)
      "Enqueue" (by simp [ofValue, asVariant]) h
  | dequeue queue =>
    have h := Json.reads_single "queue" (Json.reads_string queue)
    exact Json.reads_variant "Dequeue" (by simp [ofValue, asVariant]) h
  | ack taskId =>
    have h := Json.reads_single "task_id" (Json.reads_string taskId)
    exact Json.reads_variant "Ack" (by simp [ofValue, asVariant]) h
  | nack taskId =>
    have h := Json.reads_single "task_id" (Json.reads_string taskId)
    exact Json.reads_variant "Nack" (by simp [ofValue, asVariant]) h
  | extendVisibility taskId durationSeconds =>
    have h := Json.reads_pair "task_id" "duration_seconds" (by decide) (Json.reads_string taskId)
      (Json.reads_uint64 durationSeconds)
    exact Json.reads_variant (f := ofValue) (c := fun p => .extendVisibility p.1 p.2)
      "ExtendVisibility" (by simp [ofValue, asVariant]) h
  | enqueueBatch queue data =>
    have h := Json.reads_pair "queue" "data" (by decide) (Json.reads_string queue)
      (reads_byteLists data)
    exact Json.reads_variant (f := ofValue) (c := fun p => .enqueueBatch p.1 p.2)
      "EnqueueBatch" (by simp [ofValue, asVariant]) h
  | dequeueBatch queue count =>
    have h := Json.reads_pair "queue" "count" (by decide) (Json.reads_string queue)
      (Json.reads_uint64 count)
    exact Json.reads_variant (f := ofValue) (c := fun p => .dequeueBatch p.1 p.2)
      "DequeueBatch" (by simp [ofValue, asVariant]) h
  | ackBatch taskIds =>
    have h := Json.reads_single "task_ids" (reads_strings taskIds)
    exact Json.reads_variant "AckBatch" (by simp [ofValue, asVariant]) h

/-! ### Memberships -/

/-- The voter sets and the nodes are listed in the order of the ids, each of them once. -/
structure Membership.Ordered (m : Membership) : Prop where
  configs : ∀ ids ∈ m.configs, ids.Pairwise fun a b => a.toNat < b.toNat
  nodes : m.nodes.Pairwise fun a b => a.1.toNat < b.1.toNat

theorem Membership.reads {m : Membership} (h : m.Ordered) : Reads ofValue m.toValue m := by
  have hconfigs : Reads (asArray (asSet asUInt64 UInt64.toNat))
      (.arr (m.configs.map fun ids => .arr (ids.map fun id => .int id.toNat))) m.configs :=
    Json.reads_array fun ids hids =>
      Json.reads_set (fun id _ => Json.reads_uint64 id) (h.configs ids hids)
  have hnodes : Reads (asNumberMap (2 ^ 64) BasicNode.ofValue)
      (.obj (m.nodes.map fun n => (toString n.1, .obj [("addr", .str n.2.addr)])))
      (m.nodes.map fun n => (n.1.toNat, n.2)) := by
    have hmembers : (m.nodes.map fun n => (toString n.1, Value.obj [("addr", .str n.2.addr)]))
        = (m.nodes.map fun n => (n.1.toNat, n.2)).map fun e =>
          (toString e.1, Value.obj [("addr", .str e.2.addr)]) := by
      rw [List.map_map]
      rfl
    rw [hmembers]
    refine Json.reads_numberMap (g := fun node : BasicNode => .obj [("addr", .str node.addr)]) ?_ ?_
    · intro e he
      obtain ⟨n, -, rfl⟩ := List.mem_map.mp he
      exact ⟨n.1.toNat_lt, (Json.reads_single "addr" (Json.reads_string n.2.addr)).map _⟩
    · exact List.pairwise_map.mpr h.nodes
  have hread := (Json.reads_pair "configs" "nodes" (by decide) hconfigs hnodes).map
    fun p => (⟨p.1, p.2.map fun n => (UInt64.ofNat n.1, n.2)⟩ : Membership)
  -- the ids come back from the numbers they were
  have hback : (m.nodes.map fun n => (n.1.toNat, n.2)).map
      (fun n : ℕ × BasicNode => (UInt64.ofNat n.1, n.2)) = m.nodes := by
    rw [List.map_map]
    conv_rhs => rw [← List.map_id m.nodes]
    refine List.map_congr_left fun n _ => ?_
    change (UInt64.ofNat n.1.toNat, n.2) = n
    rw [UInt64.ofNat_toNat]
  dsimp only at hread
  rw [hback] at hread
  exact hread

/-- The membership of the entry, if it has one, is in order. -/
def Entry.Ordered (e : Entry) : Prop := ∀ m, e.payload = .membership m → m.Ordered

theorem Entry.reads {e : Entry} (h : e.Ordered) : Reads ofValue e.toValue e := by
  have hpayload : Reads EntryPayload.ofValue e.payload.toValue e.payload := by
    cases hp : e.payload with
    | blank => exact ⟨rfl, rfl⟩
    | normal req => exact Json.reads_variant "Normal" rfl req.reads
    | membership m => exact Json.reads_variant "Membership" rfl (Membership.reads (h m hp))
  exact (Json.reads_pair "log_id" "payload" (by decide) e.logId.reads hpayload).map _

theorem AppendEntriesRequest.reads {r : AppendEntriesRequest} (h : ∀ e ∈ r.entries, e.Ordered) :
    Reads ofValue r.toValue r := by
  have hvote := r.vote.reads
  have hprev := reads_optLogId r.prevLogId
  have hentries : Reads (asArray Entry.ofValue) (.arr (r.entries.map Entry.toValue)) r.entries :=
    Json.reads_array fun e he => Entry.reads (h e he)
  have hcommit := reads_optLogId r.leaderCommit
  refine ⟨?_, ?_⟩
  · rw [toValue, Json.noFloat]
    simp only [Json.noFloatMembers, hvote.noFloat, hprev.noFloat, hentries.noFloat,
      hcommit.noFloat, Bool.and_self]
  · have hfields : asOptFields
        [("vote", false), ("prev_log_id", true), ("entries", false), ("leader_commit", true)]
        r.toValue = some [r.vote.toValue, optLogId r.prevLogId,
          .arr (r.entries.map Entry.toValue), optLogId r.leaderCommit] := rfl
    rw [ofValue, hfields]
    simp only [hvote.eq_some, hprev.eq_some, hentries.eq_some, hcommit.eq_some]
    rfl

/-- An enqueue of bytes and the entry that adds node 2, sent after the first entry of the log. -/
def AppendEntriesRequest.joining : AppendEntriesRequest where
  vote := ⟨⟨1, 1⟩, true⟩
  prevLogId := some ⟨⟨1, 1⟩, 0⟩
  entries :=
    [⟨⟨⟨1, 1⟩, 1⟩, .normal (.enqueue "a\"b" [0, 255])⟩,
      ⟨⟨⟨1, 1⟩, 2⟩, .membership
        ⟨[[1], [1, 2]], [(1, ⟨"127.0.0.1:8541"⟩), (2, ⟨"127.0.0.1:8542"⟩)]⟩⟩]
  leaderCommit := none

end Oxideq
