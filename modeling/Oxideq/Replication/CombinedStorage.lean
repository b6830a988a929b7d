import Oxideq.Replication.Types
import Oxideq.Storage.Call

/-!
# The replicated state machine

The state-machine half of `replication/combined_storage.rs`: committed entries are applied one by
one to an `InMemoryStorage` without a log of its own. Where a method panics the whole call does;
the entries before it stay applied.
-/

namespace Oxideq

/-- The state machine of a node. The sled database next to it holds the Raft log and is not
touched when entries are applied. -/
structure CombinedStorage where
  stateMachine : InMemoryStorage Bytes
  lastAppliedLog : Option LogId

/-- `Ok` and `Err` both become a response; a panic leaves none. -/
def Outcome.response {β : Type} (ok : β → ClientResponse) :
    Outcome β → Option ClientResponse
  | .ok v => some (ok v)
  | .err e => some (.err e)
  | .panic => none

/-- The arm of `apply_to_state_machine` for a command. -/
def ClientRequest.apply (s : InMemoryStorage Bytes) (env : Env) :
    ClientRequest → Option ClientResponse × InMemoryStorage Bytes
  | .createQueue name => (s.createQueue env name).map (Outcome.response fun _ => .ok) id
  | .enqueue queue data => (s.queue env queue data).map (Outcome.response fun _ => .ok) id
  | .dequeue queue => (s.dequeue env queue).map (Outcome.response .task) id
  | .ack taskId => (s.ack env taskId).map (Outcome.response fun _ => .ok) id
  | .nack taskId => (s.nack env taskId).map (Outcome.response fun _ => .ok) id
  | .extendVisibility taskId durationSeconds =>
    (s.extendVisibility env taskId durationSeconds).map (Outcome.response fun _ => .ok) id
  | .enqueueBatch queue data =>
    (s.queueBatch env queue data).map (Outcome.response fun _ => .ok) id
  | .dequeueBatch queue count =>
    (s.dequeueBatch env queue count).map (Outcome.response .tasks) id
  | .ackBatch taskIds => (s.ackBatch env taskIds).map (Outcome.response fun _ => .ok) id

/-- The method an entry's command calls. -/
def ClientRequest.call : ClientRequest → Call Bytes
  | .createQueue name => .createQueue name
  | .enqueue queue data => .queue queue data
  | .dequeue queue => .dequeue queue
  | .ack taskId => .ack taskId
  | .nack taskId => .nack taskId
  | .extendVisibility taskId durationSeconds => .extendVisibility taskId durationSeconds
  | .enqueueBatch queue data => .queueBatch queue data
  | .dequeueBatch queue count => .dequeueBatch queue count
  | .ackBatch taskIds => .ackBatch taskIds

/-- A command computes what its method does. -/
theorem ClientRequest.apply_call (req : ClientRequest) (s : InMemoryStorage Bytes) (env : Env) :
    (req.apply s env).2 = (s.call (fun _ => env) req.call).2 ∧
      ((req.apply s env).1 = none → (s.call (fun _ => env) req.call).1 = .panic) := by
  have hresponse : ∀ {β γ : Type} (ok : β → ClientResponse) (f : β → γ) (r : Outcome β),
      r.response ok = none → r.map f = .panic := by
    intro β γ ok f r hr
    cases r with
    | ok v => cases hr
    | err e => cases hr
    | panic => rfl
  cases req <;> exact ⟨rfl, hresponse _ _ _⟩

/-- The response to an entry; blank and membership entries leave the tables alone. -/
def EntryPayload.apply (s : InMemoryStorage Bytes) (env : Env) :
    EntryPayload → Option ClientResponse × InMemoryStorage Bytes
  | .blank => (some .ok, s)
  | .normal req => req.apply s env
  | .membership _ => (some .ok, s)

namespace CombinedStorage

/-- `CombinedStorage::new` on an empty state machine. -/
def new : CombinedStorage := ⟨InMemoryStorage.new, none⟩

/-- `apply_to_state_machine`; `envs k` serves the `k`-th entry. -/
def applyToStateMachine (c : CombinedStorage) (envs : ℕ → Env) :
    List Entry → Option (List ClientResponse) × CombinedStorage
  | [] => (some [], c)
  | entry :: entries =>
    match entry.payload.apply c.stateMachine (envs 0) with
    -- `last_applied_log` is set behind the arm, so a panic leaves it at the entry before
    | (none, s) => (none, { c with stateMachine := s })
    | (some res, s) =>
      (applyToStateMachine ⟨s, some entry.logId⟩ (fun k => envs (k + 1)) entries).map
        (Option.map (res :: ·)) id

end CombinedStorage

end Oxideq
