import Oxideq.Http.BatchFormats
import Oxideq.Http.Network
import Oxideq.Lib.JsonLength
import Oxideq.Replication.RaftStorage

/-!
# What a follower can be sent

A leader sends its entries to a peer as JSON, in the body of a request to `/raft/append`. The
payload of an enqueue is a `Vec<u8>`, which serde writes as an array of decimal numbers, so a byte
takes up to four bytes of the body. The routes clients use have limits of one and ten megabytes;
`/raft/append` has none of its own, and its extractor refuses bodies over axum's default of two
megabytes (`raftAppend_refused`).

The length of the body is computed exactly: a frame of the log ids and the vote, the command with
its queue name, and the decimal text of the payload (`Frame.length_body_enqueue`,
`Frame.length_body_enqueueBatch`). So an accepted enqueue can be replicated exactly when these add
up to two megabytes at most (`replicated_iff`).
-/

namespace Oxideq

open Json (Value decimals commaLength)

/-! ### The JSON of the messages -/

def LeaderId.toValue (l : LeaderId) : Value :=
  .obj [("term", .int l.term.toNat), ("node_id", .int l.nodeId.toNat)]

def LogId.toValue (l : LogId) : Value :=
  .obj [("leader_id", l.leaderId.toValue), ("index", .int l.index.toNat)]

/-- `None` is written as `null`. -/
def optLogId (l : Option LogId) : Value := (l.map LogId.toValue).getD .null

def Vote.toValue (v : Vote) : Value :=
  .obj [("leader_id", v.leaderId.toValue), ("committed", .bool v.committed)]

/-- A `Vec<u8>`: an array of numbers. -/
def bytesValue (data : Bytes) : Value := .arr (data.map fun b => .int b.toNat)

/-- A variant of an enum with the fields of its struct. -/
def variant (tag : String) (fields : List (String × Value)) : Value := .obj [(tag, .obj fields)]

def ClientRequest.toValue : ClientRequest → Value
  | .createQueue name => variant "CreateQueue" [("name", .str name)]
  | .enqueue queue data => variant "Enqueue" [("queue", .str queue), ("data", bytesValue data)]
  | .dequeue queue => variant "Dequeue" [("queue", .str queue)]
  | .ack taskId => variant "Ack" [("task_id", .str taskId)]
  | .nack taskId => variant "Nack" [("task_id", .str taskId)]
  | .extendVisibility taskId durationSeconds =>
    variant "ExtendVisibility"
      [("task_id", .str taskId), ("duration_seconds", .int durationSeconds.toNat)]
  | .enqueueBatch queue data =>
    variant "EnqueueBatch" [("queue", .str queue), ("data", .arr (data.map bytesValue))]
  | .dequeueBatch queue count =>
    variant "DequeueBatch" [("queue", .str queue), ("count", .int count.toNat)]
  | .ackBatch taskIds => variant "AckBatch" [("task_ids", .arr (taskIds.map .str))]

def Membership.toValue (m : Membership) : Value :=
  .obj [("configs", .arr (m.configs.map fun ids => .arr (ids.map fun id => .int id.toNat))),
    ("nodes", .obj (m.nodes.map fun n => (toString n.1, .obj [("addr", .str n.2.addr)])))]

def EntryPayload.toValue : EntryPayload → Value
  | .blank => .str "Blank"
  | .normal req => .obj [("Normal", req.toValue)]
  | .membership m => .obj [("Membership", m.toValue)]

def Entry.toValue (e : Entry) : Value :=
  .obj [("log_id", e.logId.toValue), ("payload", e.payload.toValue)]

structure AppendEntriesRequest where
  vote : Vote
  prevLogId : Option LogId
  entries : List Entry
  leaderCommit : Option LogId
  deriving DecidableEq, Repr

def AppendEntriesRequest.toValue (r : AppendEntriesRequest) : Value :=
  .obj [("vote", r.vote.toValue), ("prev_log_id", optLogId r.prevLogId),
    ("entries", .arr (r.entries.map Entry.toValue)), ("leader_commit", optLogId r.leaderCommit)]

/-- The body `append_entries` posts. -/
def AppendEntriesRequest.body (r : AppendEntriesRequest) : Bytes := Json.print r.toValue

/-- What surrounds a command in a request that carries nothing else. -/
structure Frame where
  vote : Vote
  prevLogId : Option LogId
  logId : LogId
  leaderCommit : Option LogId

def Frame.request (f : Frame) (req : ClientRequest) : AppendEntriesRequest :=
  ⟨f.vote, f.prevLogId, [⟨f.logId, .normal req⟩], f.leaderCommit⟩

/-! ### The peer -/

/-- The extractor of the peer refuses a body over the default limit, and its Raft gets nothing. -/
theorem raftAppend_refused {R : RaftRpc → Rpc} (state : AppState R) (url : Url) {body : Bytes}
    (h : defaultBodyLimit < body.length) :
    raftAppend state (postJson url body) = (.ofStatus 413, []) := by
  have hheader : (postJson url body).header "content-type"
      = some (Json.utf8 "application/json") := rfl
  have hextract : extractJson (R .append).decodeReq (postJson url body) = .error 413 := by
    unfold extractJson
    rw [hheader]
    -- the content type passes; the length decides
    simp only [isJsonContentType_json, if_true]
    exact if_pos h
  unfold raftAppend raftHandler
  rw [hextract]

/-! ### Lengths -/

def LeaderId.textLength (l : LeaderId) : ℕ := 20 + decimals l.term.toNat + decimals l.nodeId.toNat

theorem LeaderId.length_print (l : LeaderId) : (Json.print l.toValue).length = l.textLength := by
  have hterm : (Json.printString "term").length = 6 := by decide
  have hnode : (Json.printString "node_id").length = 9 := by decide
  rw [toValue, Json.length_print_two, hterm, hnode, Json.length_print_nat, Json.length_print_nat,
    textLength]
  omega

def LogId.textLength (l : LogId) : ℕ := 23 + l.leaderId.textLength + decimals l.index.toNat

theorem LogId.length_print (l : LogId) : (Json.print l.toValue).length = l.textLength := by
  have hleader : (Json.printString "leader_id").length = 11 := by decide
  have hindex : (Json.printString "index").length = 7 := by decide
  rw [toValue, Json.length_print_two, hleader, hindex, LeaderId.length_print, Json.length_print_nat,
    textLength]
  omega

def optTextLength : Option LogId → ℕ
  | none => 4
  | some l => l.textLength

theorem length_print_optLogId (l : Option LogId) :
    (Json.print (optLogId l)).length = optTextLength l := by
  cases l with
  | none => decide
  | some l => exact l.length_print

def Vote.textLength (v : Vote) : ℕ := 27 + v.leaderId.textLength + if v.committed then 4 else 5

theorem Vote.length_print (v : Vote) : (Json.print v.toValue).length = v.textLength := by
  have hleader : (Json.printString "leader_id").length = 11 := by decide
  have hcommitted : (Json.printString "committed").length = 11 := by decide
  have hflag : ∀ b : Bool, (Json.print (.bool b)).length = if b then 4 else 5 := by decide
  rw [toValue, Json.length_print_two, hleader, hcommitted, LeaderId.length_print, hflag, textLength]
  omega

/-- The length of everything around the command. -/
def Frame.textLength (f : Frame) : ℕ :=
  87 + f.vote.textLength + optTextLength f.prevLogId + f.logId.textLength
    + optTextLength f.leaderCommit

theorem Frame.length_body (f : Frame) (req : ClientRequest) :
    (f.request req).body.length = f.textLength + (Json.print req.toValue).length := by
  have hpayload : (Json.print (EntryPayload.normal req).toValue).length
      = (Json.print req.toValue).length + 11 := by
    have hnormal : (Json.printString "Normal").length = 8 := by decide
    rw [EntryPayload.toValue, Json.length_print_one, hnormal]
    omega
  have hentry : (Json.print (Entry.toValue ⟨f.logId, .normal req⟩)).length
      = f.logId.textLength + (Json.print req.toValue).length + 33 := by
    have hid : (Json.printString "log_id").length = 8 := by decide
    have hkey : (Json.printString "payload").length = 9 := by decide
    rw [Entry.toValue, Json.length_print_two, hid, hkey, LogId.length_print, hpayload]
    dsimp only
    omega
  have hvote : (Json.printString "vote").length = 6 := by decide
  have hprev : (Json.printString "prev_log_id").length = 13 := by decide
  have hentries : (Json.printString "entries").length = 9 := by decide
  have hcommit : (Json.printString "leader_commit").length = 15 := by decide
  rw [request, AppendEntriesRequest.body, AppendEntriesRequest.toValue, Json.length_print_obj]
  simp only [commaLength, Json.memberLength, List.map_cons, List.map_nil, List.sum_cons,
    List.sum_nil, List.length_cons, List.length_nil, Json.length_print_arr, hentry, hvote, hprev,
    hentries, hcommit, Vote.length_print, length_print_optLogId, textLength]
  omega

/-- The length of a payload: the digits of its bytes, commas and brackets. -/
def bytesLength (data : Bytes) : ℕ := commaLength (data.map fun b => decimals b.toNat)

theorem length_print_bytes (data : Bytes) :
    (Json.print (bytesValue data)).length = bytesLength data := by
  rw [bytesValue, Json.length_print_arr, List.map_map, bytesLength]
  congr 1
  exact List.map_congr_left fun b _ => Json.length_print_nat b.toNat

/-- The characters of valid names are printed as they are. -/
theorem ValidName.plain {name : String} (h : ValidName name) :
    ∀ c ∈ name.toList, Json.Plain c := by
  obtain ⟨-, -, hchars⟩ := validName_iff.mp h
  intro c hc
  have hchar := List.all_eq_true.mp hchars c hc
  simp only [isQueueNameChar, Bool.or_eq_true, Bool.and_eq_true, decide_eq_true_eq, beq_iff_eq,
    Char.le_def, UInt32.le_iff_toNat_le] at hchar
  -- letters, digits, `-` and `_`: printable, and neither a quote nor a backslash
  have hrange : ∀ n, n = c.val.toNat → 0x20 ≤ n ∧ n ≠ 0x22 ∧ n ≠ 0x5c := by
    intro n hn
    rw [← hn] at hchar
    rcases hchar with (((⟨hlow, hhigh⟩ | ⟨hlow, hhigh⟩) | ⟨hlow, hhigh⟩) | rfl) | rfl
    · have ha : 'a'.val.toNat = 97 := rfl
      omega
    · have ha : 'A'.val.toNat = 65 := rfl
      have hz : 'Z'.val.toNat = 90 := rfl
      omega
    · have h0 : '0'.val.toNat = 48 := rfl
      have h9 : '9'.val.toNat = 57 := rfl
      omega
    · rw [hn]
      decide
    · rw [hn]
      decide
  obtain ⟨hlow, hquote, hslash⟩ := hrange _ rfl
  exact Json.plain_of_val hlow hquote hslash

section Commands

variable {name : String} (hname : ValidName name)
include hname

theorem length_print_enqueue (data : Bytes) :
    (Json.print (ClientRequest.enqueue name data).toValue).length
      = 32 + name.utf8ByteSize + bytesLength data := by
  have htag : (Json.printString "Enqueue").length = 9 := by decide
  have hqueue : (Json.printString "queue").length = 7 := by decide
  have hdata : (Json.printString "data").length = 6 := by decide
  rw [ClientRequest.toValue, variant, Json.length_print_one, Json.length_print_two, htag, hqueue,
    hdata, Json.print, Json.length_printString hname.plain, length_print_bytes]
  omega

theorem length_print_enqueueBatch (data : List Bytes) :
    (Json.print (ClientRequest.enqueueBatch name data).toValue).length
      = 37 + name.utf8ByteSize + commaLength (data.map bytesLength) := by
  have htag : (Json.printString "EnqueueBatch").length = 14 := by decide
  have hqueue : (Json.printString "queue").length = 7 := by decide
  have hdata : (Json.printString "data").length = 6 := by decide
  have helems : (data.map bytesValue).map (fun v => (Json.print v).length)
      = data.map bytesLength := by
    rw [List.map_map]
    exact List.map_congr_left fun d _ => length_print_bytes d
  rw [ClientRequest.toValue, variant, Json.length_print_one, Json.length_print_two, htag, hqueue,
    hdata, Json.print, Json.length_printString hname.plain, Json.length_print_arr, helems]
  omega

end Commands

/-! ### Enqueues -/

/-- The command a node with a Raft submits for an enqueue it accepts. -/
def ApiRequest.command (formats : Formats) (heartbeatDuration : UInt64) (req : ApiRequest) :
    Option ClientRequest :=
  match req.toCall formats heartbeatDuration with
  | .ok (.queue name item) => some (.enqueue name item)
  | .ok (.queueBatch name items) => some (.enqueueBatch name items)
  | _ => none

/-- A peer takes the entry of the request, in a frame that carries nothing else. -/
def Replicable (formats : Formats) (heartbeatDuration : UInt64) (f : Frame) (req : ApiRequest) :
    Prop :=
  ∀ cmd, req.command formats heartbeatDuration = some cmd →
    (f.request cmd).body.length ≤ defaultBodyLimit

/-- The frame, the name of the queue and the decimal text of the payload stay within two
megabytes. -/
def WithinLimit (formats : Formats) (heartbeatDuration : UInt64) (f : Frame) (req : ApiRequest) :
    Prop :=
  match req.toCall formats heartbeatDuration with
  | .ok (.queue name item) =>
    f.textLength + (32 + name.utf8ByteSize + bytesLength item) ≤ 2 * 1024 * 1024
  | .ok (.queueBatch name items) =>
    f.textLength + (37 + name.utf8ByteSize + commaLength (items.map bytesLength))
      ≤ 2 * 1024 * 1024
  | _ => True

/-- A node that submits one command posts one body. -/
theorem forall_command_iff {f : Frame} {cmd : ClientRequest} {n : ℕ}
    (hlength : (f.request cmd).body.length = n) :
    (∀ c, some cmd = some c → (f.request c).body.length ≤ defaultBodyLimit)
      ↔ n ≤ defaultBodyLimit := by
  rw [← hlength]
  exact ⟨fun hall => hall _ rfl, fun hle c hc => Option.some.inj hc ▸ hle⟩

/-- **What can be replicated.** -/
theorem replicable_iff (formats : Formats) (heartbeatDuration : UInt64) (f : Frame)
    (req : ApiRequest) :
    Replicable formats heartbeatDuration f req ↔ WithinLimit formats heartbeatDuration f req := by
  unfold Replicable WithinLimit ApiRequest.command
  cases h : req.toCall formats heartbeatDuration with
  -- refused by the handler, so nothing is submitted
  | error refusal => exact iff_of_true nofun trivial
  | ok c =>
    cases c with
    | queue name item =>
      have hname : ValidName name := ApiRequest.validName_of_toCall h rfl
      have hlength : (f.request (.enqueue name item)).body.length
          = f.textLength + (32 + name.utf8ByteSize + bytesLength item) := by
        rw [f.length_body, length_print_enqueue hname]
      exact forall_command_iff hlength
    | queueBatch name items =>
      have hname : ValidName name := ApiRequest.validName_of_toCall h rfl
      have hlength : (f.request (.enqueueBatch name items)).body.length
          = f.textLength + (37 + name.utf8ByteSize + commaLength (items.map bytesLength)) := by
        rw [f.length_body, length_print_enqueueBatch hname]
      exact forall_command_iff hlength
    | _ => exact iff_of_true nofun trivial

/-! ### A message of one megabyte -/

/-- The first entry of the first leader. -/
def firstFrame : Frame := ⟨⟨⟨1, 1⟩, true⟩, none, ⟨⟨1, 1⟩, 1⟩, none⟩

/-- A megabyte of the byte `255`, which the route for single messages accepts. -/
def fullMessage : ApiRequest := .enqueue "q" (List.replicate singleMessageLimit 255)

/-- A message within the limit of its route becomes the command it asks for. -/
theorem command_enqueue (formats : Formats) (heartbeatDuration : UInt64) {name : String}
    {data : Bytes} (hname : validateQueueName name = .ok ())
    (hsize : ¬ singleMessageLimit < data.length) :
    (ApiRequest.enqueue name data).command formats heartbeatDuration
      = some (.enqueue name data) := by
  simp only [ApiRequest.command, ApiRequest.toCall, if_neg hsize, ApiRequest.validated, hname]

theorem fullMessage_command (formats : Formats) (heartbeatDuration : UInt64) :
    fullMessage.command formats heartbeatDuration
      = some (.enqueue "q" (List.replicate singleMessageLimit 255)) := by
  refine command_enqueue formats heartbeatDuration (by decide +kernel) ?_
  rw [List.length_replicate]
  exact lt_irrefl _

theorem bytesLength_replicate (n : ℕ) (b : UInt8) :
    bytesLength (List.replicate n b) = 2 + n * decimals b.toNat + (n - 1) := by
  rw [bytesLength, List.map_replicate, commaLength, List.sum_replicate, List.length_replicate]
  rfl

theorem not_replicable_fullMessage : ¬ Replicable libraryFormats 60 firstFrame fullMessage := by
  intro h
  have hle := h _ (fullMessage_command libraryFormats 60)
  have hname : ValidName "q" := by decide +kernel
  have hdigits : decimals (255 : UInt8).toNat = 3 := by decide +kernel
  rw [Frame.length_body, length_print_enqueue hname, bytesLength_replicate, hdigits] at hle
  -- the payload alone has more than four million bytes
  have hlimit : defaultBodyLimit = 2097152 := rfl
  have hsize : singleMessageLimit = 1048576 := rfl
  omega

end Oxideq
