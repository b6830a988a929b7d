import Oxideq.Http.Handlers
import Oxideq.Replication.CombinedStorage
import Oxideq.Storage.Batches

/-!
# The handlers of a cluster node

`lib.rs` where the node has a Raft: a handler builds a `ClientRequest` instead of calling the
store, openraft commits it as one entry and applies the entry, and the handler maps the
`ClientResponse` it gets back. The two halves are definitions of their own, as in
`Oxideq.Http.Handlers`:

* `ApiRequest.toClientRequest` — from the request to the command, or to the response of a refusal;
* `ApiRequest.mapResponse` — from the response of the state machine to the response of the
  handler; `none` is the arm for a response of the wrong type.

`handleCluster` is both around an entry that is applied on the leader. What openraft answers when
the state machine has no response to the entry is up to it (`lost`).

The two paths are the same function of the store (`mapResponse_apply`): the command calls
the method the standalone handler calls, and no response is of the wrong type. So wherever the
standalone handler answers, the cluster answers alike. The one thing either may fail to do is to
answer at all, because the method panics; then `apply_to_state_machine` has no responses to return
either (`answers_iff`).
-/

namespace Oxideq

/-! ### Responses -/

/-- Why `client_write` fails. `leader` is the leader as `{:?}` shows it. -/
inductive WriteError where
  | forwardToLeader (leader : String)
  | other (message : String)
  deriving DecidableEq, Repr

namespace ApiRequest

/-- `validate_queue_name` in front of a command. -/
def validatedRequest (name : String) (req : ClientRequest) : Except ApiResponse ClientRequest :=
  match validateQueueName name with
  | .error e => .error (.ofText 400 e)
  | .ok () => .ok req

/-- The first half of a handler on a cluster node: the command it writes, or its refusal. -/
def toClientRequest (formats : Formats) (heartbeatDuration : UInt64) :
    ApiRequest → Except ApiResponse ClientRequest
  | .createQueue name => validatedRequest name (.createQueue name)
  | .enqueue queueName payload =>
    if singleMessageLimit < payload.length then .error (.ofStatus 413)
    else validatedRequest queueName (.enqueue queueName payload)
  | .dequeue queueName => validatedRequest queueName (.dequeue queueName)
  | .ackTask _ taskId => .ok (.ack taskId)
  | .nackTask _ taskId => .ok (.nack taskId)
  | .heartbeatTask _ taskId => .ok (.extendVisibility taskId heartbeatDuration)
  | .queueBatch queueName contentType body =>
    if batchMessageLimit < body.length then .error (.ofStatus 413)
    else
      match validateQueueName queueName with
      | .error e => .error (.ofText 400 e)
      | .ok () =>
        match batchItems formats contentType body with
        | .error e => .error (.ofText 400 e)
        | .ok items => .ok (.enqueueBatch queueName items)
  | .dequeueBatch queueName count _ =>
    validatedRequest queueName (.dequeueBatch queueName (count.getD 10))
  | .ackBatch _ taskIds => .ok (.ackBatch taskIds)

/-- The response a handler makes of a response of the state machine; `none` is its last arm, for a
response of the wrong type. -/
def mapResponse (formats : Formats) : ApiRequest → ClientResponse → Option ApiResponse
  | .createQueue _, .ok => some (.ofStatus 201)
  | .createQueue _, .err e => some (.ofText 400 e)
  | .createQueue _, _ => none
  | .dequeue _, .task (some task) => some ⟨200, [("x-oxideq-task-id", task.id)], task.data⟩
  | .dequeue _, .task none => some (.ofStatus 204)
  | .dequeue _, .err e => some (.ofText 404 e)
  | .dequeue _, _ => none
  | .dequeueBatch _ _ accept, .tasks tasks => some (batchResponse formats accept tasks)
  | .dequeueBatch _ _ _, .err e => some (.ofText 404 e)
  | .dequeueBatch _ _ _, _ => none
  | _, .ok => some (.ofStatus 200)
  | _, .err e => some (.ofText 404 e)
  | _, _ => none

/-- The arm for a response of the wrong type: an internal error, but for the batch dequeue, which
takes the text for an error of the store. -/
def invalidResponse : ApiRequest → ApiResponse
  | .dequeueBatch _ _ _ => .ofText 404 "Invalid response type"
  | _ => .ofText 500 "Invalid response type"

/-- The second half of a handler on a cluster node. -/
def respondWrite (formats : Formats) (req : ApiRequest) :
    Except WriteError ClientResponse → ApiResponse
  | .ok res => (req.mapResponse formats res).getD req.invalidResponse
  | .error (.forwardToLeader leader) => .ofText 503 ("Not leader. Leader is: " ++ leader)
  | .error (.other message) => .ofText 500 message

end ApiRequest

namespace CombinedStorage

/-- `client_write` on the leader: the command is committed as one entry and the entry is applied.
`lost` is what becomes of the write when the state machine has no response to it. -/
def clientWrite (c : CombinedStorage) (env : Env) (logId : LogId) (lost : Option WriteError)
    (req : ClientRequest) : Option (Except WriteError ClientResponse) × CombinedStorage :=
  match c.applyToStateMachine (fun _ => env) [⟨logId, .normal req⟩] with
  | (some (res :: _), c) => (some (.ok res), c)
  | (_, c) => (lost.map .error, c)

end CombinedStorage

/-- A handler on the leader of a cluster. -/
def ApiRequest.handleCluster (formats : Formats) (heartbeatDuration : UInt64)
    (lost : Option WriteError) (c : CombinedStorage) (env : Env) (logId : LogId)
    (req : ApiRequest) : Option ApiResponse × CombinedStorage :=
  match req.toClientRequest formats heartbeatDuration with
  | .error refusal => (some refusal, c)
  | .ok r =>
    let w := c.clientWrite env logId lost r
    (w.1.map (req.respondWrite formats), w.2)

/-! ### The same function of the store -/

section Refinement

variable {formats : Formats} {heartbeatDuration : UInt64} {lost : Option WriteError}
  {c : CombinedStorage} {env : Env} {logId : LogId} {req : ApiRequest} {r : ClientRequest}

theorem ApiRequest.validated_validatedRequest (name : String) (r : ClientRequest) :
    validated name r.call = (validatedRequest name r).map ClientRequest.call := by
  unfold validated validatedRequest
  cases validateQueueName name <;> rfl

/-- The command of a request calls the method its standalone handler calls. -/
theorem ApiRequest.toCall_toClientRequest (formats : Formats) (heartbeatDuration : UInt64)
    (req : ApiRequest) :
    req.toCall formats heartbeatDuration
      = (req.toClientRequest formats heartbeatDuration).map ClientRequest.call := by
  cases req with
  | createQueue name => exact validated_validatedRequest name (.createQueue name)
  | enqueue queueName payload =>
    simp only [toCall, toClientRequest]
    split
    · rfl
    · exact validated_validatedRequest queueName (.enqueue queueName payload)
  | dequeue queueName => exact validated_validatedRequest queueName (.dequeue queueName)
  | dequeueBatch queueName count accept =>
    exact validated_validatedRequest queueName (.dequeueBatch queueName (count.getD 10))
  | queueBatch queueName contentType body =>
    simp only [toCall, toClientRequest]
    split
    · rfl
    cases validateQueueName queueName with
    | error e => rfl
    | ok u =>
      simp only
      cases batchItems formats contentType body <;> rfl
  | ackTask queueName taskId => rfl
  | nackTask queueName taskId => rfl
  | heartbeatTask queueName taskId => rfl
  | ackBatch queueName taskIds => rfl

/-- What the standalone handler answers to the outcome of the method, the cluster handler answers to
the response of the state machine. In particular its last arm is never taken. -/
theorem ApiRequest.mapResponse_apply (s : InMemoryStorage Bytes) (env : Env)
    (h : req.toClientRequest formats heartbeatDuration = .ok r) :
    (r.apply s env).1.map (req.mapResponse formats)
      = (req.respond formats (s.call (fun _ => env) r.call).1).map some := by
  -- a name in front of a command does not change it
  have hvalidated : ∀ {name : String} {r' : ClientRequest}, validatedRequest name r' = .ok r →
      r = r' := by
    intro name r' hv
    unfold validatedRequest at hv
    split at hv
    · cases hv
    · cases hv
      rfl
  -- Command by command: the response maps its outcome as the standalone handler maps the outcome
  -- itself.
  cases req with
  | createQueue name =>
    rw [hvalidated h]
    simp only [ClientRequest.apply, ClientRequest.call, InMemoryStorage.call, Prod.map]
    cases (s.createQueue env name).1 <;> rfl
  | enqueue queueName payload =>
    simp only [toClientRequest] at h
    split at h
    · cases h
    rw [hvalidated h]
    simp only [ClientRequest.apply, ClientRequest.call, InMemoryStorage.call, Prod.map]
    cases (s.queue env queueName payload).1 <;> rfl
  | dequeue queueName =>
    rw [hvalidated h]
    simp only [ClientRequest.apply, ClientRequest.call, InMemoryStorage.call, Prod.map]
    cases (s.dequeue env queueName).1 with
    | ok task => cases task <;> rfl
    | err e => rfl
    | panic => rfl
  | ackTask queueName taskId =>
    cases h
    simp only [ClientRequest.apply, ClientRequest.call, InMemoryStorage.call, Prod.map]
    cases (s.ack env taskId).1 <;> rfl
  | nackTask queueName taskId =>
    cases h
    simp only [ClientRequest.apply, ClientRequest.call, InMemoryStorage.call, Prod.map]
    cases (s.nack env taskId).1 <;> rfl
  | heartbeatTask queueName taskId =>
    cases h
    simp only [ClientRequest.apply, ClientRequest.call, InMemoryStorage.call, Prod.map]
    cases (s.extendVisibility env taskId heartbeatDuration).1 <;> rfl
  | queueBatch queueName contentType body =>
    simp only [toClientRequest] at h
    split at h
    · cases h
    split at h
    · cases h
    split at h
    · cases h
    next items _ =>
    cases h
    simp only [ClientRequest.apply, ClientRequest.call, InMemoryStorage.call, Prod.map]
    cases (s.queueBatch env queueName items).1 <;> rfl
  | dequeueBatch queueName count accept =>
    rw [hvalidated h]
    simp only [ClientRequest.apply, ClientRequest.call, InMemoryStorage.call, Prod.map]
    cases (s.dequeueBatch env queueName (count.getD 10)).1 <;> rfl
  | ackBatch queueName taskIds =>
    cases h
    simp only [ClientRequest.apply, ClientRequest.call, InMemoryStorage.call, Prod.map]
    cases (s.ackBatch env taskIds).1 <;> rfl

end Refinement

/-! ### Panics -/

namespace InMemoryStorage

variable {α : Type} (s : InMemoryStorage α) (env : Env)

/-! `dequeue_batch` is the only method that panics. -/

theorem createQueue_ne_panic (name : String) : (s.createQueue env name).1 ≠ .panic := by
  intro h
  unfold createQueue at h
  split at h
  · cases h
  split at h <;> cases h

theorem queue_ne_panic (name : String) (item : α) : (s.queue env name item).1 ≠ .panic := by
  intro h
  unfold queue at h
  split at h
  · cases h
  split at h
  · cases h
  split at h <;> cases h

theorem queueBatch_ne_panic (name : String) (items : List α) :
    (s.queueBatch env name items).1 ≠ .panic := by
  intro h
  unfold queueBatch at h
  split at h
  · cases h
  split at h
  · cases h
  split at h <;> cases h

theorem dequeue_ne_panic (name : String) : (s.dequeue env name).1 ≠ .panic := by
  intro h
  unfold dequeue at h
  split at h
  · cases h
  · cases h
  simp only at h
  split at h <;> cases h

theorem ack_ne_panic (id : String) : (s.ack env id).1 ≠ .panic := by
  intro h
  unfold ack at h
  split at h
  · cases h
  simp only at h
  split at h <;> cases h

theorem nack_ne_panic (id : String) : (s.nack env id).1 ≠ .panic := by
  intro h
  unfold nack at h
  split at h
  · cases h
  simp only at h
  split at h
  · cases h
  split at h <;> cases h

theorem extendVisibility_ne_panic (id : String) (duration : UInt64) :
    (s.extendVisibility env id duration).1 ≠ .panic := by
  intro h
  unfold extendVisibility at h
  split at h
  · cases h
  split at h <;> cases h

theorem ackBatch_ne_panic (ids : List String) : (s.ackBatch env ids).1 ≠ .panic := by
  intro h
  unfold ackBatch at h
  simp only at h
  split at h
  · cases h
  split at h <;> cases h

end InMemoryStorage

theorem Outcome.response_eq_none {β : Type} {ok : β → ClientResponse} {r : Outcome β} :
    r.response ok = none ↔ r = .panic := by
  cases r <;> simp [Outcome.response]

/-- The command panics on the store. -/
def ClientRequest.Overflows (s : InMemoryStorage Bytes) : ClientRequest → Prop
  | .dequeueBatch queue count => s.Overflows queue count
  | _ => False

instance (s : InMemoryStorage Bytes) (r : ClientRequest) : Decidable (r.Overflows s) := by
  cases r <;> unfold ClientRequest.Overflows <;> infer_instance

theorem ClientRequest.apply_eq_none (s : InMemoryStorage Bytes) (env : Env) (r : ClientRequest) :
    (r.apply s env).1 = none ↔ r.Overflows s := by
  cases r with
  | dequeueBatch queue count =>
    refine Outcome.response_eq_none.trans ⟨fun hpanic => ?_, fun hover => ?_⟩
    · by_contra hfits
      exact InMemoryStorage.dequeueBatch_ne_panic hfits hpanic
    · exact congrArg Prod.fst (InMemoryStorage.dequeueBatch_of_overflows hover)
  | createQueue name =>
    exact Outcome.response_eq_none.trans (iff_false_intro (s.createQueue_ne_panic env name))
  | enqueue queue data =>
    exact Outcome.response_eq_none.trans (iff_false_intro (s.queue_ne_panic env queue data))
  | dequeue queue =>
    exact Outcome.response_eq_none.trans (iff_false_intro (s.dequeue_ne_panic env queue))
  | ack taskId =>
    exact Outcome.response_eq_none.trans (iff_false_intro (s.ack_ne_panic env taskId))
  | nack taskId =>
    exact Outcome.response_eq_none.trans (iff_false_intro (s.nack_ne_panic env taskId))
  | extendVisibility taskId durationSeconds =>
    exact Outcome.response_eq_none.trans
      (iff_false_intro (s.extendVisibility_ne_panic env taskId durationSeconds))
  | enqueueBatch queue data =>
    exact Outcome.response_eq_none.trans (iff_false_intro (s.queueBatch_ne_panic env queue data))
  | ackBatch taskIds =>
    exact Outcome.response_eq_none.trans (iff_false_intro (s.ackBatch_ne_panic env taskIds))

/-- The entry panics when it is applied. -/
def EntryPayload.Overflows (s : InMemoryStorage Bytes) : EntryPayload → Prop
  | .normal req => req.Overflows s
  | _ => False

instance (s : InMemoryStorage Bytes) (p : EntryPayload) : Decidable (p.Overflows s) := by
  cases p <;> unfold EntryPayload.Overflows <;> infer_instance

theorem EntryPayload.apply_eq_none (s : InMemoryStorage Bytes) (env : Env) (p : EntryPayload) :
    (p.apply s env).1 = none ↔ p.Overflows s := by
  cases p with
  | blank => exact ⟨nofun, nofun⟩
  | membership m => exact ⟨nofun, nofun⟩
  | normal req => exact req.apply_eq_none s env

/-! ### One response for each entry -/

namespace CombinedStorage

/-- The store after some entries. -/
def storeAfter (s : InMemoryStorage Bytes) (envs : ℕ → Env) : List Entry → InMemoryStorage Bytes
  | [] => s
  | entry :: entries =>
    storeAfter (entry.payload.apply s (envs 0)).2 (fun k => envs (k + 1)) entries

/-- `apply_to_state_machine` returns one response for each entry, in the order of the entries, each
the response to its entry behind the ones before it; and the id of the last entry is recorded. -/
structure Answers (c : CombinedStorage) (envs : ℕ → Env) (entries : List Entry)
    (responses : List ClientResponse) : Prop where
  length : responses.length = entries.length
  response : ∀ (k : ℕ) (entry : Entry), entries[k]? = some entry →
    responses[k]?
      = (entry.payload.apply (storeAfter c.stateMachine envs (entries.take k)) (envs k)).1
  store : (c.applyToStateMachine envs entries).2.stateMachine
    = storeAfter c.stateMachine envs entries
  lastApplied : (c.applyToStateMachine envs entries).2.lastAppliedLog
    = (entries.getLast?.map Entry.logId).or c.lastAppliedLog

/-- One more entry in front. -/
theorem applyToStateMachine_cons {c : CombinedStorage} {envs : ℕ → Env} {entry : Entry}
    {entries : List Entry} {res : ClientResponse} {s : InMemoryStorage Bytes}
    (h : entry.payload.apply c.stateMachine (envs 0) = (some res, s)) :
    c.applyToStateMachine envs (entry :: entries)
      = (applyToStateMachine ⟨s, some entry.logId⟩ (fun k => envs (k + 1)) entries).map
          (Option.map (res :: ·)) id := by
  rw [applyToStateMachine, h]

theorem Answers.cons {c : CombinedStorage} {envs : ℕ → Env} {entry : Entry}
    {entries : List Entry} {res : ClientResponse} {s : InMemoryStorage Bytes}
    {responses : List ClientResponse}
    (h : entry.payload.apply c.stateMachine (envs 0) = (some res, s))
    (ha : Answers ⟨s, some entry.logId⟩ (fun k => envs (k + 1)) entries responses) :
    Answers c envs (entry :: entries) (res :: responses) := by
  have hafter : ∀ es, storeAfter c.stateMachine envs (entry :: es)
      = storeAfter s (fun k => envs (k + 1)) es := by
    intro es
    rw [storeAfter, h]
  refine ⟨congrArg Nat.succ ha.length, fun k e hk => ?_, ?_, ?_⟩
  · cases k with
    | zero =>
      cases hk
      change some res = (entry.payload.apply c.stateMachine (envs 0)).1
      rw [h]
    | succ k =>
      rw [List.take_succ_cons, hafter]
      exact ha.response k e hk
  · rw [applyToStateMachine_cons h, hafter]
    exact ha.store
  · rw [applyToStateMachine_cons h]
    refine ha.lastApplied.trans ?_
    -- behind the first entry there is always a last one
    cases entries with
    | nil => rfl
    | cons e es => rw [List.getLast?_cons_cons, List.getLast?_cons, Option.map_some, Option.some_or,
        Option.some_or]

/-- **When every entry is answered**: when none panics in the state the entries before it left. -/
theorem answers_iff (c : CombinedStorage) (envs : ℕ → Env) (entries : List Entry) :
    (∃ responses, (c.applyToStateMachine envs entries).1 = some responses ∧
        Answers c envs entries responses)
      ↔ ∀ (k : ℕ) (entry : Entry), entries[k]? = some entry →
          ¬ entry.payload.Overflows (storeAfter c.stateMachine envs (entries.take k)) := by
  constructor
  · rintro ⟨responses, -, ha⟩ k entry hk hover
    -- a response at the place of the entry, which gives none
    have hnone := (entry.payload.apply_eq_none _ (envs k)).mpr hover
    have hlt : k < responses.length := by
      rw [ha.length]
      exact (List.getElem?_eq_some_iff.mp hk).1
    rw [← ha.response k entry hk, List.getElem?_eq_getElem hlt] at hnone
    cases hnone
  · intro hfits
    -- By induction on the entries: the first is answered, and the rest start from its store.
    induction entries generalizing c envs with
    | nil => exact ⟨[], rfl, rfl, nofun, rfl, rfl⟩
    | cons entry entries ih =>
      have hfirst : ¬ entry.payload.Overflows c.stateMachine := hfits 0 entry rfl
      cases happly : entry.payload.apply c.stateMachine (envs 0) with
      | mk res s =>
        cases res with
        | none =>
          refine absurd ((entry.payload.apply_eq_none c.stateMachine (envs 0)).mp ?_) hfirst
          rw [happly]
        | some res =>
          obtain ⟨responses, hresponses, ha⟩ :=
            ih ⟨s, some entry.logId⟩ (fun k => envs (k + 1)) fun k e hk => by
              have hk' := hfits (k + 1) e hk
              rwa [List.take_succ_cons, storeAfter, happly] at hk'
          refine ⟨res :: responses, ?_, ha.cons happly⟩
          rw [applyToStateMachine_cons happly]
          change Option.map (res :: ·) (applyToStateMachine _ _ entries).1 = _
          rw [hresponses, Option.map_some]

end CombinedStorage

/-! ### Refinement -/

namespace CombinedStorage

theorem clientWrite_of_apply {c : CombinedStorage} {env : Env} (logId : LogId)
    (lost : Option WriteError) {r : ClientRequest} {res : ClientResponse}
    {s : InMemoryStorage Bytes} (h : r.apply c.stateMachine env = (some res, s)) :
    c.clientWrite env logId lost r = (some (.ok res), ⟨s, some logId⟩) := by
  have hentry : EntryPayload.apply c.stateMachine env (.normal r) = (some res, s) := h
  rw [clientWrite, applyToStateMachine_cons hentry]
  rfl

theorem clientWrite_of_panic {c : CombinedStorage} {env : Env} (logId : LogId)
    (lost : Option WriteError) {r : ClientRequest} {s : InMemoryStorage Bytes}
    (h : r.apply c.stateMachine env = (none, s)) :
    c.clientWrite env logId lost r = (lost.map .error, { c with stateMachine := s }) := by
  have hentry : EntryPayload.apply c.stateMachine env (.normal r) = (none, s) := h
  rw [clientWrite, applyToStateMachine]
  simp only [hentry]

end CombinedStorage

namespace ApiRequest

/-- Both paths answer, they answer alike, and they leave the store alike. -/
structure Refines (formats : Formats) (heartbeatDuration : UInt64) (lost : Option WriteError)
    (c : CombinedStorage) (env : Env) (logId : LogId) (req : ApiRequest) : Prop where
  response : ∃ resp,
    (req.handle formats heartbeatDuration c.stateMachine fun _ => env).1 = some resp ∧
      (req.handleCluster formats heartbeatDuration lost c env logId).1 = some resp
  store : (req.handleCluster formats heartbeatDuration lost c env logId).2.stateMachine
    = (req.handle formats heartbeatDuration c.stateMachine fun _ => env).2

/-- The command of the request panics on the store. -/
def Overflows (formats : Formats) (heartbeatDuration : UInt64) (s : InMemoryStorage Bytes)
    (req : ApiRequest) : Prop :=
  ∃ r, req.toClientRequest formats heartbeatDuration = .ok r ∧ r.Overflows s

/-- The store ends alike on both paths, whether the command panics or not. -/
theorem stateMachine_handleCluster (formats : Formats) (heartbeatDuration : UInt64)
    (lost : Option WriteError) (c : CombinedStorage) (env : Env) (logId : LogId)
    (req : ApiRequest) :
    (req.handleCluster formats heartbeatDuration lost c env logId).2.stateMachine
      = (req.handle formats heartbeatDuration c.stateMachine fun _ => env).2 := by
  have hcall := req.toCall_toClientRequest formats heartbeatDuration
  unfold handleCluster handle
  cases hr : req.toClientRequest formats heartbeatDuration with
  | error refusal =>
    rw [hr] at hcall
    rw [hcall]
    rfl
  | ok r =>
    rw [hr] at hcall
    rw [hcall]
    obtain ⟨hstore, -⟩ := r.apply_call c.stateMachine env
    cases happly : r.apply c.stateMachine env with
    | mk res s =>
      rw [happly] at hstore
      cases res with
      | some res =>
        simp only [CombinedStorage.clientWrite_of_apply logId lost happly]
        exact hstore
      -- the same panic, with the same store left behind
      | none =>
        simp only [CombinedStorage.clientWrite_of_panic logId lost happly]
        exact hstore

/-- A request is answered alike on both paths unless its command panics; then the standalone
handler does not answer. -/
theorem refines_iff (formats : Formats) (heartbeatDuration : UInt64) (lost : Option WriteError)
    (c : CombinedStorage) (env : Env) (logId : LogId) (req : ApiRequest) :
    req.Refines formats heartbeatDuration lost c env logId
      ↔ ¬ req.Overflows formats heartbeatDuration c.stateMachine := by
  have hcall := req.toCall_toClientRequest formats heartbeatDuration
  have hstore := stateMachine_handleCluster formats heartbeatDuration lost c env logId req
  cases hr : req.toClientRequest formats heartbeatDuration with
  | error refusal =>
    rw [hr] at hcall
    have hrefused : (req.handle formats heartbeatDuration c.stateMachine fun _ => env).1
        = some refusal := by
      rw [handle, hcall]
      rfl
    have hcluster : (req.handleCluster formats heartbeatDuration lost c env logId).1
        = some refusal := by
      rw [handleCluster, hr]
    refine ⟨fun _ => ?_, fun _ => ⟨⟨refusal, hrefused, hcluster⟩, hstore⟩⟩
    rintro ⟨r, hok, -⟩
    rw [hr] at hok
    cases hok
  | ok r =>
    rw [hr] at hcall
    have hmap := mapResponse_apply c.stateMachine env hr
    have hhandle : (req.handle formats heartbeatDuration c.stateMachine fun _ => env).1
        = req.respond formats (c.stateMachine.call (fun _ => env) r.call).1 := by
      rw [handle, hcall]
      rfl
    cases happly : r.apply c.stateMachine env with
    | mk res s =>
      rw [happly] at hmap
      cases res with
      | none =>
        -- the command panics, and the standalone handler with it
        have hover : r.Overflows c.stateMachine :=
          (r.apply_eq_none c.stateMachine env).mp (congrArg Prod.fst happly)
        refine ⟨fun hrefines => ?_, fun hno => absurd ⟨r, hr, hover⟩ hno⟩
        obtain ⟨resp, hresp, -⟩ := hrefines.response
        rw [hhandle] at hresp
        rw [hresp] at hmap
        cases hmap
      | some res =>
        have hfits : ¬ req.Overflows formats heartbeatDuration c.stateMachine := by
          rintro ⟨r', hr', hover⟩
          rw [hr] at hr'
          cases hr'
          have hnone := (r.apply_eq_none c.stateMachine env).mpr hover
          rw [happly] at hnone
          cases hnone
        refine ⟨fun _ => hfits, fun _ => ⟨?_, hstore⟩⟩
        cases hresp : req.respond formats (c.stateMachine.call (fun _ => env) r.call).1 with
        | none =>
          rw [hresp] at hmap
          cases hmap
        | some resp =>
          rw [hresp, Option.map_some, Option.map_some, Option.some_inj] at hmap
          refine ⟨resp, hhandle.trans hresp, ?_⟩
          simp only [handleCluster, hr, CombinedStorage.clientWrite_of_apply logId lost happly,
            Option.map_some, respondWrite, hmap, Option.getD_some]

/-- **Cluster mode refines standalone mode.** For every store, whatever is drawn and read on the
way: a request is answered alike on both paths, with the same store behind it, unless its command
panics; the state machine never has a response of the wrong type for it; and a list of entries is
answered one by one, with the id of the last one recorded, unless one of them panics where it
stands. -/
theorem cluster_refines_iff (formats : Formats) (heartbeatDuration : UInt64)
    (lost : Option WriteError) (c : CombinedStorage) (env : Env) (logId : LogId)
    (req : ApiRequest) (envs : ℕ → Env) (entries : List Entry) :
    (req.Refines formats heartbeatDuration lost c env logId
      ↔ ¬ req.Overflows formats heartbeatDuration c.stateMachine) ∧
    (∀ (r : ClientRequest) (res : ClientResponse),
      req.toClientRequest formats heartbeatDuration = .ok r →
        (r.apply c.stateMachine env).1 = some res → (req.mapResponse formats res).isSome) ∧
    ((∃ responses, (c.applyToStateMachine envs entries).1 = some responses ∧
        CombinedStorage.Answers c envs entries responses)
      ↔ ∀ (k : ℕ) (entry : Entry), entries[k]? = some entry →
          ¬ entry.payload.Overflows
            (CombinedStorage.storeAfter c.stateMachine envs (entries.take k))) := by
  refine ⟨refines_iff .., ?_, CombinedStorage.answers_iff ..⟩
  intro r res hr hres
  have hmap := mapResponse_apply c.stateMachine env hr
  rw [hres, Option.map_some] at hmap
  cases hresp : req.respond formats (c.stateMachine.call (fun _ => env) r.call).1 with
  | none =>
    rw [hresp] at hmap
    cases hmap
  | some resp =>
    rw [hresp, Option.map_some, Option.some_inj] at hmap
    rw [hmap]
    rfl

/-- A queue is created, a message is enqueued, and `2^58` messages are asked for. -/
def hugeBatch : List Entry :=
  [⟨⟨⟨1, 1⟩, 1⟩, .normal (.createQueue "jobs")⟩,
    ⟨⟨⟨1, 1⟩, 2⟩, .normal (.enqueue "jobs" [0x68])⟩,
    ⟨⟨⟨1, 1⟩, 3⟩, .normal (.dequeueBatch "jobs" 288230376151711744)⟩]

/-- The third entry has no response. -/
theorem not_answers_hugeBatch :
    ¬ ∀ (c : CombinedStorage) (envs : ℕ → Env) (entries : List Entry),
      ∃ responses, (c.applyToStateMachine envs entries).1 = some responses ∧
        CombinedStorage.Answers c envs entries responses := by
  intro h
  have hfits := (CombinedStorage.answers_iff _ _ _).mp
    (h .new (fun _ => Env.quiet []) hugeBatch) 2 _ rfl
  have hover : EntryPayload.Overflows
      (CombinedStorage.storeAfter .new (fun _ => Env.quiet []) (hugeBatch.take 2))
      (.normal (.dequeueBatch "jobs" 288230376151711744)) := by decide
  exact hfits hover

end ApiRequest

end Oxideq
