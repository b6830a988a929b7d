import Oxideq.Http.App
import Oxideq.Storage.Call

/-!
# The handlers of the queue routes

`lib.rs` from the extractors on, for a node without a Raft: a handler validates the queue name,
makes one call on the store and maps its result to a response. The two halves are definitions of
their own, because between them the call runs interleaved with others:

* `ApiRequest.toCall` — from the request to the call, or to the response of a refusal;
* `ApiRequest.respond` — from the request and what the call returned to the response.

`handle` is both around a call that runs alone.

A request carries what its extractors have made of it: the segments of its path, the headers the
handler reads where they are text, the body as bytes or, where the extractor is `Json`, decoded.
A body over the limit of its route is refused by the extractor, so the limit is part of `toCall`.

The batch routes read and write two formats. A payload stored by a batch is one value encoded in
the format of the request; the bytes say nothing about which one it was, and `decodeMessage` is
how `dequeue_batch` guesses.
-/

namespace Oxideq

/-! ### Queue names -/

/-- `MAX_QUEUE_NAME_LENGTH`. -/
def maxQueueNameLength : ℕ := 128

/-- `c.is_ascii_alphanumeric() || c == '_' || c == '-'`. -/
def isQueueNameChar (c : Char) : Bool :=
  ('a' ≤ c && c ≤ 'z') || ('A' ≤ c && c ≤ 'Z') || ('0' ≤ c && c ≤ '9') || c == '_' || c == '-'

/-- `validate_queue_name`. The length is counted in bytes. -/
def validateQueueName (name : String) : Except String Unit :=
  if name.isEmpty then .error "Queue name cannot be empty"
  else if maxQueueNameLength < name.utf8ByteSize then
    .error ("Queue name exceeds maximum length of " ++ toString maxQueueNameLength ++ " characters")
  else if !name.toList.all isQueueNameChar then
    .error "Queue name can only contain alphanumeric characters, underscores, and hyphens"
  else .ok ()

/-! ### Formats -/

/-- One entry of the response to a batch dequeue. -/
structure BatchItem where
  id : String
  message : Json.Value

/-- What the handlers use of a serde format, at the types they use it. -/
structure Format where
  toVec : Json.Value → Bytes
  fromSlice : Bytes → Except String Json.Value
  fromSliceVec : Bytes → Except String (List Json.Value)
  itemsToVec : List BatchItem → Bytes

/-- `serde_json` and `rmp_serde`. -/
structure Formats where
  json : Format
  msgpack : Format

/-! ### Requests and responses -/

inductive ApiRequest where
  | createQueue (name : String)
  | enqueue (queueName : String) (payload : Bytes)
  | dequeue (queueName : String)
  | ackTask (queueName taskId : String)
  | nackTask (queueName taskId : String)
  | heartbeatTask (queueName taskId : String)
  | queueBatch (queueName : String) (contentType : Option String) (body : Bytes)
  | dequeueBatch (queueName : String) (count : Option UInt64) (accept : Option String)
  | ackBatch (queueName : String) (taskIds : List String)
  deriving DecidableEq, Repr

/-- A response with the headers a handler sets. -/
structure ApiResponse where
  status : ℕ
  headers : List (String × String)
  body : Bytes
  deriving DecidableEq, Repr

namespace ApiResponse

/-- `StatusCode::X.into_response()`. -/
def ofStatus (status : ℕ) : ApiResponse := ⟨status, [], []⟩

/-- `(StatusCode::X, text).into_response()`. -/
def ofText (status : ℕ) (text : String) : ApiResponse := ⟨status, [], Json.utf8 text⟩

end ApiResponse

/-- `SINGLE_MESSAGE_LIMIT`. -/
def singleMessageLimit : ℕ := 1024 * 1024

/-- `BATCH_MESSAGE_LIMIT`. -/
def batchMessageLimit : ℕ := 10 * 1024 * 1024

/-- A header that is absent counts as JSON. -/
def formatName (header : Option String) : String := header.getD "application/json"

/-- The items of a batch: every value of the body, encoded on its own in the format of the
body. -/
def batchItems (formats : Formats) (contentType : Option String) (body : Bytes) :
    Except String (List Bytes) :=
  if formatName contentType = "application/msgpack" then
    (formats.msgpack.fromSliceVec body).map (List.map formats.msgpack.toVec)
  else (formats.json.fromSliceVec body).map (List.map formats.json.toVec)

/-- `unwrap_or(serde_json::Value::Null)`. -/
def orNull (r : Except String Json.Value) : Json.Value := r.toOption.getD .null

/-- How a payload is read for the response. A MessagePack response guesses by the first byte,
`{` or `[`; a JSON response tries one format after the other. -/
def decodeMessage (formats : Formats) (accept : Option String) (data : Bytes) : Json.Value :=
  if formatName accept = "application/msgpack" then
    -- an empty payload has no first byte and is read as MessagePack
    if data.head?.any fun b => b = 123 ∨ b = 91 then orNull (formats.json.fromSlice data)
    else orNull (formats.msgpack.fromSlice data)
  else
    match formats.json.fromSlice data with
    | .ok v => v
    | .error _ => orNull (formats.msgpack.fromSlice data)

namespace ApiRequest

/-- `validate_queue_name` in front of a call. -/
def validated (name : String) (c : Call Bytes) : Except ApiResponse (Call Bytes) :=
  match validateQueueName name with
  | .error e => .error (.ofText 400 e)
  | .ok () => .ok c

/-- The first half of a handler: the call it makes, or its refusal. -/
def toCall (formats : Formats) (heartbeatDuration : UInt64) :
    ApiRequest → Except ApiResponse (Call Bytes)
  | .createQueue name => validated name (.createQueue name)
  | .enqueue queueName payload =>
    if singleMessageLimit < payload.length then .error (.ofStatus 413)
    else validated queueName (.queue queueName payload)
  | .dequeue queueName => validated queueName (.dequeue queueName)
  -- the routes of a task do not look at the queue name of their path
  | .ackTask _ taskId => .ok (.ack taskId)
  | .nackTask _ taskId => .ok (.nack taskId)
  | .heartbeatTask _ taskId => .ok (.extendVisibility taskId heartbeatDuration)
  | .queueBatch queueName contentType body =>
    if batchMessageLimit < body.length then .error (.ofStatus 413)
    else
      match validateQueueName queueName with
      | .error e => .error (.ofText 400 e)
      | .ok () =>
        -- the name is validated before the body is decoded, and both refusals are a 400
        match batchItems formats contentType body with
        | .error e => .error (.ofText 400 e)
        | .ok items => .ok (.queueBatch queueName items)
  | .dequeueBatch queueName count _ =>
    validated queueName (.dequeueBatch queueName (count.getD 10))
  | .ackBatch _ taskIds => .ok (.ackBatch taskIds)

/-- The response of `dequeue_batch` in the format the request accepts. -/
def batchResponse (formats : Formats) (accept : Option String)
    (tasks : List (InFlightTask Bytes)) : ApiResponse :=
  let items := tasks.map fun task => ⟨task.id, decodeMessage formats accept task.data⟩
  if formatName accept = "application/msgpack" then
    ⟨200, [("content-type", "application/msgpack")], formats.msgpack.itemsToVec items⟩
  else ⟨200, [("content-type", "application/json")], formats.json.itemsToVec items⟩

/-- The status of an error: a failed `create_queue` is a bad request, the others are not found. -/
def errorStatus : ApiRequest → ℕ
  | .createQueue _ => 400
  | _ => 404

/-- The second half of a handler. A call that panics leaves the client without a response. -/
def respond (formats : Formats) (req : ApiRequest) :
    Outcome (Reply Bytes) → Option ApiResponse
  | .panic => none
  | .err e => some (.ofText req.errorStatus e)
  | .ok reply =>
    match req, reply with
    | .createQueue _, _ => some (.ofStatus 201)
    -- the id travels in a header, the payload is the body as it was stored
    | .dequeue _, .delivered (some task) => some ⟨200, [("x-oxideq-task-id", task.id)], task.data⟩
    | .dequeue _, _ => some (.ofStatus 204)
    | .dequeueBatch _ _ accept, .deliveredBatch tasks =>
      some (batchResponse formats accept tasks)
    | _, _ => some (.ofStatus 200)

/-- A handler around a call that runs alone. -/
def handle (formats : Formats) (heartbeatDuration : UInt64) (s : InMemoryStorage Bytes)
    (envs : ℕ → Env) (req : ApiRequest) : Option ApiResponse × InMemoryStorage Bytes :=
  match req.toCall formats heartbeatDuration with
  | .error refusal => (some refusal, s)
  | .ok c => ((req.respond formats (s.call envs c).1), (s.call envs c).2)

end ApiRequest

/-! ### Valid names -/

/-- The name passes `validate_queue_name`. -/
def ValidName (name : String) : Prop := validateQueueName name = .ok ()

instance : DecidablePred ValidName := fun name =>
  inferInstanceAs (Decidable (validateQueueName name = .ok ()))

theorem validName_iff {name : String} :
    ValidName name ↔ name ≠ "" ∧ name.utf8ByteSize ≤ 128 ∧ name.toList.all isQueueNameChar := by
  unfold ValidName validateQueueName maxQueueNameLength
  by_cases hempty : name = ""
  · simp [hempty]
  by_cases hlen : 128 < name.utf8ByteSize
  · simp [hempty, hlen]
  by_cases hchars : name.toList.all isQueueNameChar = true
  · simp [hempty, hlen, hchars, Nat.le_of_not_lt hlen]
  · simp [hempty, hlen, hchars]

/-- **The name of a dead-letter queue.** It has to leave room for the suffix. -/
theorem validName_dlqName {name : String} (h : ValidName name) :
    ValidName (dlqName name) ↔ name.utf8ByteSize ≤ 124 := by
  obtain ⟨hne, -, hchars⟩ := validName_iff.mp h
  have hsize : (dlqName name).utf8ByteSize = name.utf8ByteSize + 4 := by
    rw [dlqName, String.utf8ByteSize_append]
    rfl
  have hdlq : (dlqName name).toList.all isQueueNameChar = true := by
    rw [dlqName, String.toList_append, List.all_append, hchars]
    decide
  rw [validName_iff, hsize]
  constructor
  · rintro ⟨-, hlen, -⟩
    omega
  · intro hlen
    refine ⟨fun hempty => hne ?_, by omega, hdlq⟩
    have hzero := congrArg String.utf8ByteSize hempty
    rw [hsize] at hzero
    simp at hzero

/-- The queue a call names. -/
def Call.queueName {α : Type} : Call α → Option String
  | .createQueue name => some name
  | .queue name _ => some name
  | .queueBatch name _ => some name
  | .dequeue name => some name
  | .dequeueBatch name _ => some name
  | _ => none

/-- The names of the calls handlers make have passed the check. -/
theorem ApiRequest.validName_of_toCall {formats : Formats} {heartbeatDuration : UInt64}
    {req : ApiRequest} {c : Call Bytes} (h : req.toCall formats heartbeatDuration = .ok c)
    {name : String} (hc : c.queueName = some name) : ValidName name := by
  have hvalidated : ∀ {name' : String} {c' : Call Bytes}, c'.queueName = some name' →
      validated name' c' = .ok c → ValidName name := by
    intro name' c' hc' hv
    unfold validated at hv
    split at hv
    · cases hv
    · next hok =>
      cases hv
      rw [hc'] at hc
      cases hc
      exact hok
  cases req with
  | createQueue name' => exact hvalidated rfl h
  | enqueue queueName payload =>
    simp only [toCall] at h
    split at h
    · cases h
    · exact hvalidated rfl h
  | dequeue queueName => exact hvalidated rfl h
  | dequeueBatch queueName count accept => exact hvalidated rfl h
  | queueBatch queueName contentType body =>
    simp only [toCall] at h
    split at h
    · cases h
    split at h
    · cases h
    next hok =>
    split at h
    · cases h
    · cases h
      cases hc
      exact hok
  | ackTask queueName taskId => cases h; cases hc
  | nackTask queueName taskId => cases h; cases hc
  | heartbeatTask queueName taskId => cases h; cases hc
  | ackBatch queueName taskIds => cases h; cases hc

end Oxideq
