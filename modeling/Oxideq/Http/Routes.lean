import Oxideq.Http.BatchFormats
import Oxideq.Http.Cluster
import Oxideq.Replication.Reachable
import Oxideq.Storage.Frames

/-!
# The queue in the path

Every route of a queue has the name of the queue in its path. The routes that put tasks in and hand
them out pass the name on, and touch nothing but this queue. The routes of a task do not: the
handlers of `ack`, `nack` and `heartbeat` take the name and drop it, the one of a batch `ack` does
not even take it, and neither the methods of the store nor the commands of a cluster have a
parameter for it. A task is addressed by its id alone, whatever the path says, so a request on the
path of one queue can settle a task of another one (`not_staysWithin_ack`).

What a request can reach in this way is what it names: the tasks in flight under its ids and, if it
is a `nack`, the queue its task goes back to (`ApiRequest.named`). Nothing else of any other queue
is touched, neither on a node of its own nor in a cluster (`staysWithin_named`).
-/

namespace Oxideq

namespace ApiRequest

/-- The queue in the path, or in the body of a `create_queue`. -/
def queueName : ApiRequest → String
  | .createQueue name => name
  | .enqueue queueName _ => queueName
  | .dequeue queueName => queueName
  | .ackTask queueName _ => queueName
  | .nackTask queueName _ => queueName
  | .heartbeatTask queueName _ => queueName
  | .queueBatch queueName _ _ => queueName
  | .dequeueBatch queueName _ _ => queueName
  | .ackBatch queueName _ => queueName

/-- The cells of the tasks a request names by their ids, and for a `nack` the queue its task goes
back to. -/
def named (s : InMemoryStorage Bytes) : ApiRequest → Set Cell
  | .ackTask _ taskId => s.cellOf taskId
  | .nackTask _ taskId => s.cellOf taskId ∪ s.returnOf taskId
  | .heartbeatTask _ taskId => s.cellOf taskId
  | .ackBatch _ taskIds => {p | ∃ taskId ∈ taskIds, p ∈ s.cellOf taskId}
  | _ => ∅

/-- From `s` to `s'`, no cell of a queue other than the one of the request and its dead-letter
queue changes, those in `exempt` excepted. -/
def StaysWithin (req : ApiRequest) (exempt : Set Cell) (s s' : InMemoryStorage Bytes) : Prop :=
  ∀ c : Cell, c.queue ≠ req.queueName → c.queue ≠ dlqName req.queueName → c ∉ exempt →
    s'.content c = s.content c

variable {formats : Formats} {heartbeatDuration : UInt64} {req : ApiRequest}
  {s : InMemoryStorage Bytes}

theorem eq_of_validated {name : String} {c c' : Call Bytes} (h : validated name c' = .ok c) :
    c = c' := by
  unfold validated at h
  split at h
  · cases h
  · cases h
    rfl

/-- The call of a request reaches the queue in the path and what the request names. -/
theorem touched_toCall {c : Call Bytes} (h : req.toCall formats heartbeatDuration = .ok c) :
    c.touched s ⊆ Cell.cellsOf req.queueName ∪ req.named s := by
  cases req with
  | createQueue name =>
    rw [eq_of_validated h]
    exact Set.subset_union_of_subset_left (Cell.items_subset name) _
  | enqueue queueName payload =>
    simp only [toCall] at h
    split at h
    · cases h
    rw [eq_of_validated h]
    exact Set.subset_union_of_subset_left (Cell.items_subset queueName) _
  | dequeue queueName =>
    rw [eq_of_validated h]
    exact Set.subset_union_left
  | dequeueBatch queueName count accept =>
    rw [eq_of_validated h]
    exact Set.subset_union_left
  | queueBatch queueName contentType body =>
    simp only [toCall] at h
    split at h
    · cases h
    split at h
    · cases h
    split at h
    · cases h
    · cases h
      exact Set.subset_union_of_subset_left (Cell.items_subset queueName) _
  -- here the path has no part in it
  | ackTask queueName taskId =>
    cases h
    exact Set.subset_union_right
  | nackTask queueName taskId =>
    cases h
    exact Set.subset_union_right
  | heartbeatTask queueName taskId =>
    cases h
    exact Set.subset_union_right
  | ackBatch queueName taskIds =>
    cases h
    exact Set.subset_union_right

theorem staysWithin_refl (req : ApiRequest) (exempt : Set Cell) (s : InMemoryStorage Bytes) :
    req.StaysWithin exempt s s := fun _ _ _ _ => rfl

theorem staysWithin_call (envs : ℕ → Env) (hfresh : ∀ k, (envs 0).uuid k ∉ s.inFlight)
    {c : Call Bytes} (h : req.toCall formats heartbeatDuration = .ok c) :
    req.StaysWithin (req.named s) s (s.call envs c).2 := by
  intro p hqueue _ hnamed
  refine InMemoryStorage.framed_call hfresh c p fun hp => ?_
  exact (touched_toCall h hp).elim hqueue hnamed

/-- **A request touches its own queue and what it names.** So it is with the standalone handler,
with the handler on the leader of a cluster, and on every replica that applies the command. -/
theorem staysWithin_named (formats : Formats) (heartbeatDuration : UInt64) (req : ApiRequest)
    (s : InMemoryStorage Bytes) (envs : ℕ → Env) (hfresh : ∀ k, (envs 0).uuid k ∉ s.inFlight) :
    req.StaysWithin (req.named s) s (req.handle formats heartbeatDuration s envs).2 ∧
      (∀ lost last logId, req.StaysWithin (req.named s) s (req.handleCluster formats
        heartbeatDuration lost ⟨s, last⟩ (envs 0) logId).2.stateMachine) ∧
      ∀ r, req.toClientRequest formats heartbeatDuration = .ok r →
        req.StaysWithin (req.named s) s (r.apply s (envs 0)).2 := by
  have hhandle : ∀ envs : ℕ → Env, (∀ k, (envs 0).uuid k ∉ s.inFlight) →
      req.StaysWithin (req.named s) s (req.handle formats heartbeatDuration s envs).2 := by
    intro envs hfresh
    unfold handle
    cases hc : req.toCall formats heartbeatDuration with
    | error refusal => exact req.staysWithin_refl _ s
    | ok c => exact staysWithin_call envs hfresh hc
  refine ⟨hhandle envs hfresh, fun lost last logId => ?_, fun r hr => ?_⟩
  · rw [stateMachine_handleCluster]
    exact hhandle (fun _ => envs 0) hfresh
  · have hcall := req.toCall_toClientRequest formats heartbeatDuration
    rw [hr] at hcall
    rw [(r.apply_call s (envs 0)).1]
    exact staysWithin_call (fun _ => envs 0) hfresh hcall

/-! ### The path of another queue -/

/-- Two queues, and three messages in the second one. Two of them are delivered. -/
def delivered : InMemoryStorage Bytes :=
  .boot true (fun _ => Env.quiet [])
    [⟨.createQueue "q", 0⟩, ⟨.createQueue "r", 0⟩, ⟨.enqueueBatch "r" [[0x31], [0x32], [0x33]], 0⟩,
      ⟨.dequeued "r" "a", 0⟩, ⟨.dequeued "r" "b", 0⟩]

theorem uuid_notMem_delivered (k : ℕ) : (Env.quiet []).uuid k ∉ delivered.inFlight := by
  show "" ∉ delivered.inFlight
  decide +kernel

/-- Task `a` of queue `r` is acknowledged on the path of queue `q`. The other task and the item that
is left are not touched. -/
theorem staysWithin_named_delivered :
    let s' := ((ackTask "q" "a").handle libraryFormats 60 delivered fun _ => Env.quiet []).2
    s'.content (.task "r" "b") = delivered.content (.task "r" "b") ∧
      s'.content (.items "r") = delivered.content (.items "r") := by
  obtain ⟨hwithin, -, -⟩ := staysWithin_named libraryFormats 60 (ackTask "q" "a") delivered
    (fun _ => Env.quiet []) uuid_notMem_delivered
  constructor
  · refine hwithin (.task "r" "b") (by decide) (by decide) ?_
    rintro ⟨task, -, heq⟩
    simp at heq
  · refine hwithin (.items "r") (by decide) (by decide) ?_
    rintro ⟨task, -, heq⟩
    cases heq

/-- The task is gone from queue `r`. -/
theorem not_staysWithin_ack :
    ¬ ∀ (formats : Formats) (heartbeatDuration : UInt64) (σ : Config (Fin 1) Bytes), σ.Reachable →
      ∀ envs : ℕ → Env, (∀ k, (envs 0).uuid k ∉ σ.store.inFlight) → ∀ req : ApiRequest,
        req.StaysWithin ∅ σ.store (req.handle formats heartbeatDuration σ.store envs).2 := by
  intro h
  have hreach : (Config.start delivered fun _ => .ack "a" : Config (Fin 1) Bytes).Reachable :=
    .start true _ _ _
  have hcell := h libraryFormats 60 _ hreach (fun _ => Env.quiet []) uuid_notMem_delivered
    (ackTask "q" "a") (.task "r" "a") (by decide) (by decide) (Set.notMem_empty _)
  revert hcell
  decide +kernel

end ApiRequest

end Oxideq
