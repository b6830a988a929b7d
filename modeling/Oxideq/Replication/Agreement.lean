import Oxideq.Replication.CombinedStorage
import Oxideq.Storage.Recovery
import Mathlib.Data.Nat.Pairing
import Mathlib.Data.Set.Finite.Basic

/-!
# Replica agreement

Two replicas apply one log, each with its own draws and its own clock. A delivery draws the id of
its task while it is applied, so the replicas file the same message under different ids, and every
later command that names one of them finds its task on one replica at most. The replicas of a log
agree exactly when applying it hands out no message at all (`replicasAgree_iff`).

Nothing but the draws and the clock sets them apart: entries do the same on two nodes that are in
the same state and draw the same values (`CombinedStorage.applyToStateMachine_congr`).
-/

namespace Oxideq

/-- Whether a response is an error. -/
def ClientResponse.isErr : ClientResponse → Bool
  | .err _ => true
  | _ => false

/-- Two replicas ended in the same state, clock readings aside, and answered with the same kind
of response at every index. -/
structure Agree (r₁ r₂ : Option (List ClientResponse) × CombinedStorage) : Prop where
  state : SameState r₁.2.stateMachine r₂.2.stateMachine
  responses : r₁.1.map (List.map ClientResponse.isErr) = r₂.1.map (List.map ClientResponse.isErr)

theorem Agree.refl (r : Option (List ClientResponse) × CombinedStorage) : Agree r r :=
  ⟨SameState.refl _, rfl⟩

/-- No id is drawn twice on one replica. -/
def DistinctDraws (envs : ℕ → Env) : Prop :=
  ∀ k i k' i', (envs k).uuid i = (envs k').uuid i' → k = k' ∧ i = i'

/-- The replica with the given draws and clock, after the log. A restart that applies the log
again is another one. -/
def replica (envs : ℕ → Env) (log : List Entry) :
    Option (List ClientResponse) × CombinedStorage :=
  CombinedStorage.new.applyToStateMachine envs log

def ReplicasAgree (log : List Entry) : Prop :=
  ∀ envs₁ envs₂, DistinctDraws envs₁ → DistinctDraws envs₂ →
    Agree (replica envs₁ log) (replica envs₂ log)

/-! ### Logs that hand out nothing -/

/-- More messages in a queue, if it exists. -/
def grow (pending : DashMap ℕ) (queue : String) (n : ℕ) : DashMap ℕ :=
  match pending.lookup queue with
  | none => pending
  | some m => pending.insert queue (m + n)

/-- Whether the queue holds a message, by the lengths of the queues. -/
def holds (pending : DashMap ℕ) (queue : String) : Bool := 0 < (pending.lookup queue).getD 0

namespace ClientRequest

/-- The command hands out a message. -/
def delivers (pending : DashMap ℕ) : ClientRequest → Bool
  | .dequeue queue => holds pending queue
  | .dequeueBatch queue count => holds pending queue && !capacityOverflow count && count != 0
  | _ => false

/-- The command panics, and no later one is applied. -/
def panics (pending : DashMap ℕ) : ClientRequest → Bool
  | .dequeueBatch queue count => holds pending queue && capacityOverflow count
  | _ => false

/-- The lengths of the queues after a command that hands out nothing. -/
def lengths (pending : DashMap ℕ) : ClientRequest → DashMap ℕ
  | .createQueue name => if name ∈ pending then pending else pending.insert name 0
  | .enqueue queue _ => grow pending queue 1
  | .enqueueBatch queue data => grow pending queue data.length
  | _ => pending

/-- The task ids a command names. -/
def taskIds : ClientRequest → List String
  | .ack taskId => [taskId]
  | .nack taskId => [taskId]
  | .extendVisibility taskId _ => [taskId]
  | .ackBatch taskIds => taskIds
  | _ => []

end ClientRequest

/-- No command of the log hands out a message; `pending` has the lengths of the queues before
it. Only commands that create queues and enqueue count: as long as nothing was handed out, the
others find nothing to act on. -/
def deliveryFree (pending : DashMap ℕ) : List Entry → Bool
  | [] => true
  | entry :: log =>
    match entry.payload with
    | .normal req =>
      req.panics pending || (!req.delivers pending && deliveryFree (req.lengths pending) log)
    | _ => deliveryFree pending log

/-- The task ids the commands of a log name. -/
def namedIds (log : List Entry) : List String :=
  log.flatMap fun entry =>
    match entry.payload with
    | .normal req => req.taskIds
    | _ => []

/-- Without a log, a message enqueued is a batch of one. -/
theorem ClientRequest.apply_enqueue {s : InMemoryStorage Bytes} (hwal : s.wal = none) (env : Env)
    (queue : String) (data : Bytes) :
    (enqueue queue data).apply s env = (enqueueBatch queue [data]).apply s env := by
  simp only [apply, InMemoryStorage.queue, InMemoryStorage.queueBatch,
    InMemoryStorage.logOp_of_wal_none hwal]

/-- Nothing was handed out so far, and `pending` has the lengths of the queues. -/
structure Undelivered (s : InMemoryStorage Bytes) (pending : DashMap ℕ) : Prop where
  no_log : s.wal = none
  inFlight : s.inFlight = ∅
  lengths : ∀ queue, pending.lookup queue = (s.queues.lookup queue).map List.length

namespace Undelivered

variable {s : InMemoryStorage Bytes} {pending : DashMap ℕ}

theorem new : Undelivered (InMemoryStorage.new : InMemoryStorage Bytes) ∅ :=
  ⟨rfl, rfl, fun _ => rfl⟩

theorem lookup_inFlight (h : Undelivered s pending) (id : String) :
    s.inFlight.lookup id = none := by
  rw [h.inFlight]
  rfl

theorem mem_queues (h : Undelivered s pending) (queue : String) :
    queue ∈ pending ↔ queue ∈ s.queues := by
  rw [← Finmap.lookup_isSome, h.lengths queue, Option.isSome_map, Finmap.lookup_isSome]

/-- Replacing the items of a queue replaces its length. -/
theorem setQueue (h : Undelivered s pending) (queue : String) (items : List (QueueItem Bytes)) :
    Undelivered (s.setQueue queue items) (pending.insert queue items.length) := by
  refine ⟨h.no_log, h.inFlight, fun queue' => ?_⟩
  by_cases hq : queue' = queue
  · rw [hq, InMemoryStorage.setQueue, Finmap.lookup_insert, Finmap.lookup_insert, Option.map_some]
  · rw [InMemoryStorage.setQueue, Finmap.lookup_insert_of_ne _ hq, Finmap.lookup_insert_of_ne _ hq]
    exact h.lengths queue'

/-- A queue holds a message when its list of items is not empty. -/
theorem holds_iff (h : Undelivered s pending) (queue : String) :
    holds pending queue = true ↔ ∃ item rest, s.queues.lookup queue = some (item :: rest) := by
  unfold holds
  rw [h.lengths queue]
  cases s.queues.lookup queue with
  | none => simp
  | some items => cases items <;> simp

/-- Enqueueing keeps the lengths right. -/
theorem pushBack (h : Undelivered s pending) (queue : String) (items : List Bytes) :
    Undelivered (s.orSelf (s.pushBack queue items)) (grow pending queue items.length) := by
  unfold InMemoryStorage.pushBack grow
  rw [h.lengths queue]
  cases s.queues.lookup queue with
  | none => exact h
  | some q =>
    have hlen : (q ++ items.map fun d => (⟨d, 0⟩ : QueueItem Bytes)).length
        = q.length + items.length := by simp
    have hset := h.setQueue queue (q ++ items.map fun d => (⟨d, 0⟩ : QueueItem Bytes))
    rw [hlen] at hset
    exact hset

/-! A command that hands out nothing has the same result for every environment. -/

theorem apply_createQueue (h : Undelivered s pending) (name : String) :
    ∃ res s', (∀ env, (ClientRequest.createQueue name).apply s env = (some res, s')) ∧
      Undelivered s' ((ClientRequest.createQueue name).lengths pending) := by
  by_cases hn : name ∈ s.queues
  · refine ⟨.err (queueExists name), s, fun env => ?_, ?_⟩
    · rw [ClientRequest.apply, InMemoryStorage.createQueue, if_pos hn]
      rfl
    · rw [ClientRequest.lengths, if_pos ((h.mem_queues name).mpr hn)]
      exact h
  · refine ⟨.ok, s.setQueue name [], fun env => ?_, ?_⟩
    · rw [ClientRequest.apply, InMemoryStorage.createQueue, if_neg hn,
        InMemoryStorage.logOp_of_wal_none h.no_log]
      rfl
    · rw [ClientRequest.lengths, if_neg fun hm => hn ((h.mem_queues name).mp hm)]
      exact h.setQueue name []

theorem apply_enqueueBatch (h : Undelivered s pending) (queue : String) (data : List Bytes) :
    ∃ res s', (∀ env, (ClientRequest.enqueueBatch queue data).apply s env = (some res, s')) ∧
      Undelivered s' (grow pending queue data.length) := by
  have hpush := h.pushBack queue data
  by_cases hn : queue ∈ s.queues
  · cases hr : s.pushBack queue data with
    | error e =>
      refine ⟨.err e, s, fun env => ?_, by rwa [hr] at hpush⟩
      rw [ClientRequest.apply, InMemoryStorage.queueBatch, if_neg (not_not.mpr hn),
        InMemoryStorage.logOp_of_wal_none h.no_log]
      simp only [hr]
      rfl
    | ok s' =>
      refine ⟨.ok, s', fun env => ?_, by rwa [hr] at hpush⟩
      rw [ClientRequest.apply, InMemoryStorage.queueBatch, if_neg (not_not.mpr hn),
        InMemoryStorage.logOp_of_wal_none h.no_log]
      simp only [hr]
      rfl
  · refine ⟨.err (queueNotFound queue), s, fun env => ?_, ?_⟩
    · rw [ClientRequest.apply, InMemoryStorage.queueBatch, if_pos hn]
      rfl
    · rwa [InMemoryStorage.pushBack, Finmap.lookup_eq_none.mpr hn] at hpush

theorem apply_dequeue (h : Undelivered s pending) {queue : String}
    (hd : holds pending queue = false) :
    ∃ res, ∀ env, (ClientRequest.dequeue queue).apply s env = (some res, s) := by
  cases hl : s.queues.lookup queue with
  | none =>
    refine ⟨.err (queueNotFound queue), fun env => ?_⟩
    rw [ClientRequest.apply, InMemoryStorage.dequeue, hl]
    rfl
  | some items =>
    cases items with
    | nil =>
      refine ⟨.task none, fun env => ?_⟩
      rw [ClientRequest.apply, InMemoryStorage.dequeue, hl]
      rfl
    | cons item rest =>
      rw [(h.holds_iff queue).mpr ⟨item, rest, hl⟩] at hd
      cases hd

theorem apply_dequeueBatch (h : Undelivered s pending) {queue : String} {count : UInt64}
    (hp : (ClientRequest.dequeueBatch queue count).panics pending = false)
    (hd : (ClientRequest.dequeueBatch queue count).delivers pending = false) :
    ∃ res, ∀ env, (ClientRequest.dequeueBatch queue count).apply s env = (some res, s) := by
  cases hl : s.queues.lookup queue with
  | none =>
    refine ⟨.err (queueNotFound queue), fun env => ?_⟩
    rw [ClientRequest.apply, InMemoryStorage.dequeueBatch, hl]
    rfl
  | some items =>
    refine ⟨.tasks [], fun env => ?_⟩
    rw [ClientRequest.apply, InMemoryStorage.dequeueBatch, hl]
    cases items with
    | nil => rfl
    | cons item rest =>
      -- the queue holds a message, so the count is zero
      have hholds := (h.holds_iff queue).mpr ⟨item, rest, hl⟩
      have hover : capacityOverflow count = false := by
        simpa [ClientRequest.panics, hholds] using hp
      have hzero : count = 0 := by
        simpa [ClientRequest.delivers, hholds, hover] using hd
      simp only [hzero, List.isEmpty_cons, UInt64.toNat_zero, List.take_zero, List.isEmpty_nil,
        List.drop_zero, if_true]
      rw [hzero] at hover
      rw [if_neg Bool.false_ne_true, hover, if_neg Bool.false_ne_true,
        InMemoryStorage.setQueue_self hl]
      rfl

theorem apply_ackBatch (h : Undelivered s pending) (taskIds : List String) :
    ∃ res, ∀ env, (ClientRequest.ackBatch taskIds).apply s env = (some res, s) := by
  have hmissing : taskIds.filter (· ∉ s.inFlight) = taskIds := by
    rw [List.filter_eq_self]
    intro id _
    rw [decide_eq_true_iff, ← Finmap.lookup_eq_none]
    exact h.lookup_inFlight id
  by_cases hids : taskIds = []
  · refine ⟨.ok, fun env => ?_⟩
    rw [ClientRequest.apply, InMemoryStorage.ackBatch]
    simp only [hids, List.filter_nil, InMemoryStorage.logOp_of_wal_none h.no_log]
    rfl
  · refine ⟨.err (tasksNotFound taskIds), fun env => ?_⟩
    rw [ClientRequest.apply, InMemoryStorage.ackBatch]
    simp only [hmissing]
    rw [if_pos hids]
    rfl

/-- **The environment plays no part** in a command that hands out nothing. -/
theorem apply (h : Undelivered s pending) {req : ClientRequest}
    (hp : req.panics pending = false) (hd : req.delivers pending = false) :
    ∃ res s', (∀ env, req.apply s env = (some res, s')) ∧
      Undelivered s' (req.lengths pending) := by
  -- no task is found
  have hnone := h.lookup_inFlight
  have hsame : (∃ res, ∀ env, req.apply s env = (some res, s)) → req.lengths pending = pending →
      ∃ res s', (∀ env, req.apply s env = (some res, s')) ∧
        Undelivered s' (req.lengths pending) := by
    rintro ⟨res, hres⟩ hlengths
    rw [hlengths]
    exact ⟨res, s, hres, h⟩
  cases req with
  | createQueue name => exact h.apply_createQueue name
  | enqueue queue data =>
    simp only [ClientRequest.apply_enqueue h.no_log]
    exact h.apply_enqueueBatch queue [data]
  | enqueueBatch queue data => exact h.apply_enqueueBatch queue data
  | dequeue queue => exact hsame (h.apply_dequeue hd) rfl
  | dequeueBatch queue count => exact hsame (h.apply_dequeueBatch hp hd) rfl
  | ack taskId =>
    refine hsame ⟨.err taskNotFound, fun env => ?_⟩ rfl
    rw [ClientRequest.apply, InMemoryStorage.ack, hnone]
    rfl
  | nack taskId =>
    refine hsame ⟨.err taskNotFound, fun env => ?_⟩ rfl
    rw [ClientRequest.apply, InMemoryStorage.nack, hnone]
    rfl
  | extendVisibility taskId durationSeconds =>
    refine hsame ⟨.err taskNotFound, fun env => ?_⟩ rfl
    rw [ClientRequest.apply, InMemoryStorage.extendVisibility, hnone]
    rfl
  | ackBatch taskIds => exact hsame (h.apply_ackBatch taskIds) rfl

/-- A command that panics leaves the state as it is. -/
theorem apply_panics (h : Undelivered s pending) {req : ClientRequest}
    (hp : req.panics pending = true) (env : Env) : req.apply s env = (none, s) := by
  cases req with
  | dequeueBatch queue count =>
    rw [ClientRequest.panics, Bool.and_eq_true] at hp
    obtain ⟨item, rest, hl⟩ := (h.holds_iff queue).mp hp.1
    rw [ClientRequest.apply, InMemoryStorage.dequeueBatch, hl]
    simp only [List.isEmpty_cons, Bool.false_eq_true, if_false, hp.2, if_true]
    rfl
  | _ => cases hp

end Undelivered

/-- **Without deliveries the environment plays no part.** -/
theorem applyToStateMachine_of_deliveryFree {c : CombinedStorage} {pending : DashMap ℕ}
    (h : Undelivered c.stateMachine pending) {log : List Entry}
    (hfree : deliveryFree pending log = true) (envs₁ envs₂ : ℕ → Env) :
    c.applyToStateMachine envs₁ log = c.applyToStateMachine envs₂ log := by
  -- By induction on the log: each entry leaves both replicas in one state, from which nothing is
  -- handed out.
  induction log generalizing c pending envs₁ envs₂ with
  | nil => rfl
  | cons entry log ih =>
    rw [deliveryFree] at hfree
    rw [CombinedStorage.applyToStateMachine, CombinedStorage.applyToStateMachine]
    cases hpay : entry.payload with
    | blank | membership m =>
      rw [hpay] at hfree
      simp only [EntryPayload.apply]
      rw [ih (c := ⟨c.stateMachine, some entry.logId⟩) h hfree]
    | normal req =>
      rw [hpay] at hfree
      simp only [EntryPayload.apply, Bool.or_eq_true, Bool.and_eq_true, Bool.not_eq_true']
        at hfree ⊢
      by_cases hp : req.panics pending = true
      · rw [h.apply_panics hp, h.apply_panics hp]
      · obtain ⟨hd, hrest⟩ := hfree.resolve_left hp
        obtain ⟨res, s', hres, h'⟩ := h.apply (Bool.eq_false_iff.mpr hp) hd
        rw [hres, hres]
        simp only
        rw [ih (c := ⟨s', some entry.logId⟩) h' hrest]

/-! ### What a delivery leaves behind -/

/-- A command can only add drawn ids to the in-flight table and only remove ids it names. -/
structure InFlightStep (ids : List String) (env : Env) (s s' : InMemoryStorage Bytes) : Prop where
  keeps : ∀ id, id ∈ s.inFlight → id ∉ ids → id ∈ s'.inFlight
  draws : ∀ id, id ∈ s'.inFlight → id ∈ s.inFlight ∨ ∃ i, id = env.uuid i

theorem InFlightStep.of_eq {ids : List String} {env : Env} {s s' : InMemoryStorage Bytes}
    (h : s'.inFlight = s.inFlight) : InFlightStep ids env s s' :=
  ⟨fun _ hm _ => by rwa [h], fun _ hm => Or.inl (by rwa [h] at hm)⟩

namespace ClientRequest

theorem apply_enqueueBatch_inFlight {s : InMemoryStorage Bytes} (hwal : s.wal = none)
    {ids : List String} (env : Env) (queue : String) (data : List Bytes) :
    InFlightStep ids env s ((enqueueBatch queue data).apply s env).2 := by
  simp only [apply, InMemoryStorage.queueBatch, InMemoryStorage.logOp_of_wal_none hwal, Prod.map,
    id]
  split
  · exact .of_eq rfl
  · cases hr : s.pushBack queue data with
    | error e => exact .of_eq rfl
    | ok s' => exact .of_eq (InMemoryStorage.pushBack_inFlight hr)

theorem apply_inFlight {s : InMemoryStorage Bytes} (hwal : s.wal = none) (env : Env)
    (req : ClientRequest) : InFlightStep req.taskIds env s (req.apply s env).2 := by
  have hlog := fun (s : InMemoryStorage Bytes) (hs : s.wal = none) op =>
    InMemoryStorage.logOp_of_wal_none hs env op
  cases req with
  | createQueue name =>
    simp only [apply, InMemoryStorage.createQueue, hlog s hwal, Prod.map, id]
    split <;> exact .of_eq rfl
  | enqueueBatch queue data => exact apply_enqueueBatch_inFlight hwal env queue data
  | enqueue queue data =>
    rw [apply_enqueue hwal]
    exact apply_enqueueBatch_inFlight hwal env queue [data]
  | dequeue queue =>
    simp only [apply, InMemoryStorage.dequeue, Prod.map, id]
    cases s.queues.lookup queue with
    | none => exact .of_eq rfl
    | some items =>
      cases items with
      | nil => exact .of_eq rfl
      | cons item rest =>
        simp only [hlog (s.setQueue queue rest) hwal]
        refine ⟨fun id hm _ => Finmap.mem_insert.mpr (Or.inr hm), fun id hm => ?_⟩
        exact (Finmap.mem_insert.mp hm).elim (fun h => Or.inr ⟨0, h⟩) Or.inl
  | dequeueBatch queue count =>
    simp only [apply, InMemoryStorage.dequeueBatch, Prod.map, id]
    cases s.queues.lookup queue with
    | none => exact .of_eq rfl
    | some items =>
      simp only [hlog (s.setQueue queue (items.drop count.toNat)) hwal]
      split
      · exact .of_eq rfl
      split
      · exact .of_eq rfl
      split
      · exact .of_eq rfl
      refine ⟨fun id hm _ => (InMemoryStorage.mem_foldl_putTask ..).mpr (Or.inl hm),
        fun id hm => ?_⟩
      refine ((InMemoryStorage.mem_foldl_putTask ..).mp hm).imp_right fun hid => ?_
      rw [InMemoryStorage.map_id_deliverAll] at hid
      obtain ⟨p, hp, rfl⟩ := List.mem_map.mp hid
      obtain ⟨i, -, hi⟩ := List.mem_map.mp (List.of_mem_zip hp).1
      exact ⟨i, hi.symm⟩
  | ack taskId =>
    simp only [apply, InMemoryStorage.ack, Prod.map, id]
    cases s.inFlight.lookup taskId with
    | none => exact .of_eq rfl
    | some task =>
      simp only [hlog (s.dropTask taskId) hwal]
      refine ⟨fun id hm hid => ?_, fun id hm => Or.inl (Finmap.mem_erase.mp hm).2⟩
      exact Finmap.mem_erase.mpr ⟨by simpa [taskIds] using hid, hm⟩
  | nack taskId =>
    simp only [apply, InMemoryStorage.nack, Prod.map, id]
    cases s.inFlight.lookup taskId with
    | none => exact .of_eq rfl
    | some task =>
      simp only [hlog (s.dropTask taskId) hwal]
      have hdrop : InFlightStep (nack taskId).taskIds env s (s.dropTask taskId) := by
        refine ⟨fun id hm hid => ?_, fun id hm => Or.inl (Finmap.mem_erase.mp hm).2⟩
        exact Finmap.mem_erase.mpr ⟨by simpa [taskIds] using hid, hm⟩
      cases hr : (s.dropTask taskId).requeue task with
      | error e => exact hdrop
      | ok s' =>
        have hflight : s'.inFlight = (s.dropTask taskId).inFlight :=
          InMemoryStorage.requeue_inFlight hr
        exact ⟨fun id hm hid => by rw [hflight]; exact hdrop.keeps id hm hid,
          fun id hm => hdrop.draws id (by rwa [hflight] at hm)⟩
  | extendVisibility taskId durationSeconds =>
    simp only [apply, InMemoryStorage.extendVisibility, Prod.map, id]
    cases hl : s.inFlight.lookup taskId with
    | none => exact .of_eq rfl
    | some task =>
      simp only [hlog s hwal]
      have hmem : taskId ∈ s.inFlight := by
        rw [← Finmap.lookup_isSome, hl]
        rfl
      refine ⟨fun id hm _ => Finmap.mem_insert.mpr (Or.inr hm), fun id hm => Or.inl ?_⟩
      exact (Finmap.mem_insert.mp hm).elim (fun h => h ▸ hmem) fun h => h
  | ackBatch ids =>
    simp only [apply, InMemoryStorage.ackBatch, hlog s hwal, Prod.map, id]
    split
    · exact .of_eq rfl
    · exact ⟨fun id hm hid => (InMemoryStorage.mem_foldl_dropTask ..).mpr ⟨hm, hid⟩,
        fun id hm => Or.inl ((InMemoryStorage.mem_foldl_dropTask ..).mp hm).1⟩

/-- The state machine never gets a log of its own. -/
theorem apply_wal {s : InMemoryStorage Bytes} (hwal : s.wal = none) (env : Env)
    (req : ClientRequest) : (req.apply s env).2.wal = none := by
  have hof : ∀ s' : InMemoryStorage Bytes, Logged s s' → s'.wal = none := by
    rintro s' ⟨es, hw, -⟩
    rw [hw, hwal]
    rfl
  cases req with
  | createQueue name => exact hof _ (InMemoryStorage.createQueue_logged ..)
  | enqueue queue data => exact hof _ (InMemoryStorage.queue_logged ..)
  | dequeue queue => exact hof _ (InMemoryStorage.dequeue_logged ..)
  | ack taskId =>
    simp only [apply, InMemoryStorage.ack, Prod.map, id]
    cases s.inFlight.lookup taskId with
    | none => exact hwal
    | some task =>
      have hdrop : (s.dropTask taskId).wal = none := hwal
      simp only [InMemoryStorage.logOp_of_wal_none hdrop]
      exact hwal
  | nack taskId => exact hof _ (InMemoryStorage.nack_logged ..)
  | extendVisibility taskId durationSeconds =>
    exact hof _ (InMemoryStorage.extendVisibility_logged ..)
  | enqueueBatch queue data => exact hof _ (InMemoryStorage.queueBatch_logged ..)
  | dequeueBatch queue count => exact hof _ (InMemoryStorage.dequeueBatch_logged ..)
  | ackBatch taskIds => exact hof _ (InMemoryStorage.ackBatch_logged ..)

/-- A command that hands out a message files it under its first draw. -/
theorem apply_delivers {s : InMemoryStorage Bytes} {pending : DashMap ℕ}
    (h : Undelivered s pending) {req : ClientRequest} (hd : req.delivers pending = true)
    (env : Env) :
    (req.apply s env).1.isSome = true ∧ env.uuid 0 ∈ (req.apply s env).2.inFlight := by
  have hlog := fun (s' : InMemoryStorage Bytes) (hs : s'.wal = none) op =>
    InMemoryStorage.logOp_of_wal_none hs env op
  cases req with
  | dequeue queue =>
    obtain ⟨item, rest, hl⟩ := (h.holds_iff queue).mp hd
    rw [apply, InMemoryStorage.dequeue, hl]
    simp only [hlog (s.setQueue queue rest) h.no_log, Prod.map, id]
    exact ⟨rfl, Finmap.mem_insert.mpr (Or.inl rfl)⟩
  | dequeueBatch queue count =>
    rw [delivers, Bool.and_eq_true, Bool.and_eq_true, Bool.not_eq_true', bne_iff_ne] at hd
    obtain ⟨⟨hholds, hover⟩, hcount⟩ := hd
    obtain ⟨item, rest, hl⟩ := (h.holds_iff queue).mp hholds
    obtain ⟨n, hn⟩ : ∃ n, count.toNat = n + 1 :=
      Nat.exists_eq_succ_of_ne_zero fun hz => hcount (UInt64.toNat_inj.mp hz)
    rw [apply, InMemoryStorage.dequeueBatch, hl]
    simp only [hover, hn, List.isEmpty_cons, List.take_succ_cons, List.length_cons,
      List.drop_succ_cons, Bool.false_eq_true, if_false,
      hlog (s.setQueue queue (rest.drop n)) h.no_log, Prod.map, id]
    refine ⟨rfl, (InMemoryStorage.mem_foldl_putTask ..).mpr (Or.inr ?_)⟩
    rw [InMemoryStorage.map_id_deliverAll, List.range_succ_eq_map, List.map_cons,
      List.zip_cons_cons, List.map_cons]
    exact List.mem_cons_self
  | _ => cases hd

end ClientRequest

/-! ### The same draws -/

/-- The drawn ids and the clock are the same. The result of an append and the order of an iteration
may differ. -/
def Env.SameDraws (env env' : Env) : Prop := env.uuid = env'.uuid ∧ env.now = env'.now

theorem ClientRequest.apply_congr {s : InMemoryStorage Bytes} (hwal : s.wal = none) {env env' : Env}
    (h : env.SameDraws env') (req : ClientRequest) : req.apply s env = req.apply s env' := by
  obtain ⟨huuid, hnow⟩ := h
  have hlog : ∀ (s' : InMemoryStorage Bytes) (env : Env) (op : WalOp Bytes), s'.wal = none →
      s'.logOp env op = .ok s' := fun _ env op hs => InMemoryStorage.logOp_of_wal_none hs env op
  cases req with
  | createQueue name => simp only [apply, InMemoryStorage.createQueue, hlog s _ _ hwal]
  | enqueue queue data => simp only [apply, InMemoryStorage.queue, hlog s _ _ hwal]
  | enqueueBatch queue data => simp only [apply, InMemoryStorage.queueBatch, hlog s _ _ hwal]
  | dequeue queue =>
    have hset : ∀ rest, (s.setQueue queue rest).wal = none := fun _ => hwal
    simp only [apply, InMemoryStorage.dequeue, hlog _ _ _ (hset _), huuid, hnow]
  | dequeueBatch queue count =>
    have hset : ∀ rest, (s.setQueue queue rest).wal = none := fun _ => hwal
    simp only [apply, InMemoryStorage.dequeueBatch, hlog _ _ _ (hset _), huuid, hnow]
  | ack taskId =>
    have hdrop : (s.dropTask taskId).wal = none := hwal
    simp only [apply, InMemoryStorage.ack, hlog _ _ _ hdrop]
  | nack taskId =>
    have hdrop : (s.dropTask taskId).wal = none := hwal
    simp only [apply, InMemoryStorage.nack, hlog _ _ _ hdrop]
  | extendVisibility taskId durationSeconds =>
    simp only [apply, InMemoryStorage.extendVisibility, hlog s _ _ hwal, hnow]
  | ackBatch taskIds => simp only [apply, InMemoryStorage.ackBatch, hlog s _ _ hwal]

theorem EntryPayload.apply_congr {s : InMemoryStorage Bytes} (hwal : s.wal = none) {env env' : Env}
    (h : env.SameDraws env') (payload : EntryPayload) :
    payload.apply s env = payload.apply s env' := by
  cases payload with
  | blank => rfl
  | normal req => exact req.apply_congr hwal h
  | membership m => rfl

theorem EntryPayload.apply_wal {s : InMemoryStorage Bytes} (hwal : s.wal = none) (env : Env)
    (payload : EntryPayload) : (payload.apply s env).2.wal = none := by
  cases payload with
  | blank => exact hwal
  | normal req => exact req.apply_wal hwal env
  | membership m => exact hwal

namespace CombinedStorage

/-- The state machine of a node keeps having no log. -/
theorem applyToStateMachine_wal {c : CombinedStorage} (hwal : c.stateMachine.wal = none)
    (envs : ℕ → Env) (log : List Entry) :
    (c.applyToStateMachine envs log).2.stateMachine.wal = none := by
  induction log generalizing c envs with
  | nil => exact hwal
  | cons entry log ih =>
    have hstep := entry.payload.apply_wal hwal (envs 0)
    rw [applyToStateMachine]
    cases hres : entry.payload.apply c.stateMachine (envs 0) with
    | mk res s =>
      rw [hres] at hstep
      cases res with
      | none => exact hstep
      | some res => exact ih (c := ⟨s, some entry.logId⟩) hstep _

/-- **Entries do the same on every node** that is in the same state and draws the same values. -/
theorem applyToStateMachine_congr {c : CombinedStorage} (hwal : c.stateMachine.wal = none)
    {envs envs' : ℕ → Env} (h : ∀ k, (envs k).SameDraws (envs' k)) (log : List Entry) :
    c.applyToStateMachine envs log = c.applyToStateMachine envs' log := by
  induction log generalizing c envs envs' with
  | nil => rfl
  | cons entry log ih =>
    have hstep := entry.payload.apply_wal hwal (envs 0)
    rw [applyToStateMachine, applyToStateMachine, ← entry.payload.apply_congr hwal (h 0)]
    cases hres : entry.payload.apply c.stateMachine (envs 0) with
    | mk res s =>
      rw [hres] at hstep
      cases res with
      | none => rfl
      | some res =>
        simp only [ih (c := ⟨s, some entry.logId⟩) hstep fun k => h (k + 1)]

/-! ### What is in flight at the end -/

/-- What holds of the in-flight table over one entry holds over a log. -/
theorem applyToStateMachine_inFlight {c : CombinedStorage} (hwal : c.stateMachine.wal = none)
    (envs : ℕ → Env) (log : List Entry) :
    (∀ id, id ∈ c.stateMachine.inFlight → id ∉ namedIds log →
      id ∈ (c.applyToStateMachine envs log).2.stateMachine.inFlight) ∧
    ∀ id, id ∈ (c.applyToStateMachine envs log).2.stateMachine.inFlight →
      id ∈ c.stateMachine.inFlight ∨ ∃ k i, id = (envs k).uuid i := by
  induction log generalizing c envs with
  | nil => exact ⟨fun _ hm _ => hm, fun _ hm => Or.inl hm⟩
  | cons entry log ih =>
    have hstep : ∃ ids, namedIds (entry :: log) = ids ++ namedIds log ∧
        InFlightStep ids (envs 0) c.stateMachine
          (entry.payload.apply c.stateMachine (envs 0)).2 ∧
        (entry.payload.apply c.stateMachine (envs 0)).2.wal = none := by
      unfold namedIds
      rw [List.flatMap_cons]
      cases entry.payload with
      | blank => exact ⟨[], rfl, .of_eq rfl, hwal⟩
      | membership m => exact ⟨[], rfl, .of_eq rfl, hwal⟩
      | normal req => exact ⟨req.taskIds, rfl, req.apply_inFlight hwal _, req.apply_wal hwal _⟩
    obtain ⟨ids, hids, hs, hw⟩ := hstep
    rw [applyToStateMachine, hids]
    cases hres : entry.payload.apply c.stateMachine (envs 0) with
    | mk res s' =>
      rw [hres] at hs hw
      cases res with
      | none =>
        exact ⟨fun id hm hn => hs.keeps id hm fun h => hn (List.mem_append_left _ h),
          fun id hm => (hs.draws id hm).imp_right fun ⟨i, hi⟩ => ⟨0, i, hi⟩⟩
      | some res =>
        obtain ⟨hkeep, hdraw⟩ := ih (c := ⟨s', some entry.logId⟩) hw fun k => envs (k + 1)
        refine ⟨fun id hm hn => ?_, fun id hm => ?_⟩
        · rw [List.mem_append, not_or] at hn
          exact hkeep id (hs.keeps id hm hn.1) hn.2
        · rcases hdraw id hm with h | ⟨k, i, hi⟩
          · exact (hs.draws id h).imp_right fun ⟨i, hi⟩ => ⟨0, i, hi⟩
          · exact Or.inr ⟨k + 1, i, hi⟩

/-- **A delivered task stays.** When a log hands out a message, some draw is the id of a task
still in flight at its end, for every replica that draws no id the log names. -/
theorem exists_draw_inFlight {c : CombinedStorage} {pending : DashMap ℕ}
    (h : Undelivered c.stateMachine pending) {log : List Entry}
    (hfree : deliveryFree pending log = false) :
    ∃ k, ∀ envs : ℕ → Env, (∀ k i, (envs k).uuid i ∉ namedIds log) →
      (envs k).uuid 0 ∈ (c.applyToStateMachine envs log).2.stateMachine.inFlight := by
  -- By induction on the log up to its first delivery; behind it the task is out of reach of every
  -- command.
  induction log generalizing c pending with
  | nil => cases hfree
  | cons entry log ih =>
    have htail : ∀ {id : String}, id ∉ namedIds (entry :: log) → id ∉ namedIds log := by
      intro id hid hm
      unfold namedIds at hid hm
      rw [List.flatMap_cons] at hid
      exact hid (List.mem_append_right _ hm)
    rw [deliveryFree] at hfree
    cases hpay : entry.payload with
    | blank | membership m =>
      rw [hpay] at hfree
      obtain ⟨k, hk⟩ := ih (c := ⟨c.stateMachine, some entry.logId⟩) h hfree
      refine ⟨k + 1, fun envs havoid => ?_⟩
      rw [applyToStateMachine, hpay]
      exact hk (fun k => envs (k + 1)) fun k i => htail (havoid (k + 1) i)
    | normal req =>
      rw [hpay] at hfree
      simp only [Bool.or_eq_false_iff, Bool.and_eq_false_iff, Bool.not_eq_false'] at hfree
      obtain ⟨hp, hd⟩ := hfree
      cases hdel : req.delivers pending with
      | true =>
        -- the first delivery of the log
        refine ⟨0, fun envs havoid => ?_⟩
        obtain ⟨hsome, hmem⟩ := ClientRequest.apply_delivers h hdel (envs 0)
        have hwal := req.apply_wal h.no_log (envs 0)
        rw [applyToStateMachine, hpay, EntryPayload.apply]
        cases hres : req.apply c.stateMachine (envs 0) with
        | mk res s' =>
          rw [hres] at hsome hmem hwal
          obtain ⟨r, rfl⟩ := Option.isSome_iff_exists.mp hsome
          exact (applyToStateMachine_inFlight (c := ⟨s', some entry.logId⟩) hwal _ log).1 _ hmem
            (htail (havoid 0 0))
      | false =>
        obtain ⟨res, s', hres, h'⟩ := h.apply hp hdel
        have hrest := hd.resolve_left (by rw [hdel]; decide)
        obtain ⟨k, hk⟩ := ih (c := ⟨s', some entry.logId⟩) h' hrest
        refine ⟨k + 1, fun envs havoid => ?_⟩
        rw [applyToStateMachine, hpay, EntryPayload.apply, hres]
        exact hk (fun k => envs (k + 1)) fun k i => htail (havoid (k + 1) i)

end CombinedStorage

/-! ### Agreement -/

/-- An environment for every entry, drawing the ids of one stream. -/
def drawing (f : ℕ → String) (k : ℕ) : Env :=
  { Env.quiet [] with uuid := fun i => f (Nat.pair k i) }

theorem distinctDraws_drawing {f : ℕ → String} (hf : Function.Injective f) :
    DistinctDraws (drawing f) := by
  intro k i k' i' h
  have hpair : Nat.pair k i = Nat.pair k' i' := hf h
  rwa [Nat.pair_eq_pair] at hpair

/-- Two streams of draws with no id in common, and none of the given ones. -/
theorem exists_disjoint_streams (ids : List String) :
    ∃ f g : ℕ → String, Function.Injective f ∧ Function.Injective g ∧ (∀ n m, f n ≠ g m) ∧
      (∀ n, f n ∉ ids) ∧ ∀ n, g n ∉ ids := by
  have hinf : Infinite {id : String // id ∉ ids} :=
    (Set.Finite.infinite_compl (List.finite_toSet ids)).to_subtype
  -- the even and the odd members of one stream that avoids the ids
  let e : ℕ ↪ {id : String // id ∉ ids} := Infinite.natEmbedding _
  have hinj : ∀ {n m : ℕ}, (e n : String) = e m → n = m := fun h =>
    e.injective (Subtype.ext h)
  refine ⟨fun n => e (2 * n), fun n => e (2 * n + 1), ?_, ?_, ?_, ?_, ?_⟩
  · intro n m h
    have := hinj h
    omega
  · intro n m h
    have := hinj h
    omega
  · intro n m h
    have := hinj h
    omega
  · exact fun n => (e (2 * n)).2
  · exact fun n => (e (2 * n + 1)).2

/-- A log that hands out a message divides the replicas. -/
theorem not_replicasAgree {log : List Entry} (hfree : deliveryFree ∅ log = false) :
    ¬ ReplicasAgree log := by
  intro hagree
  obtain ⟨f, g, hf, hg, hfg, hfids, hgids⟩ := exists_disjoint_streams (namedIds log)
  have hstate := (hagree (drawing f) (drawing g) (distinctDraws_drawing hf)
    (distinctDraws_drawing hg)).state
  obtain ⟨k, hk⟩ := CombinedStorage.exists_draw_inFlight (c := CombinedStorage.new)
    Undelivered.new hfree
  have hleft := hk (drawing f) fun _ _ => hfids _
  have hright := (hstate.mem_inFlight _).mp hleft
  -- the other replica can only have drawn the id itself
  rcases (CombinedStorage.applyToStateMachine_inFlight (c := CombinedStorage.new) rfl
    (drawing g) log).2 _ hright with h | ⟨k', i', h⟩
  · exact Finmap.notMem_empty h
  · exact hfg _ _ h

/-- **Replicas agree exactly when nothing is handed out.** -/
theorem replicasAgree_iff (log : List Entry) : ReplicasAgree log ↔ deliveryFree ∅ log = true := by
  constructor
  · intro hagree
    by_contra hfree
    exact not_replicasAgree (Bool.eq_false_iff.mpr hfree) hagree
  · intro hfree envs₁ envs₂ _ _
    rw [replica, applyToStateMachine_of_deliveryFree Undelivered.new hfree envs₁ envs₂]
    exact Agree.refl _

/-- One queue, one message, one delivery. -/
def firstDelivery : List Entry :=
  [⟨⟨⟨1, 1⟩, 1⟩, .normal (.createQueue "jobs")⟩,
    ⟨⟨⟨1, 1⟩, 2⟩, .normal (.enqueue "jobs" [0x68, 0x69])⟩,
    ⟨⟨⟨1, 1⟩, 3⟩, .normal (.dequeue "jobs")⟩]

theorem not_replicasAgree_firstDelivery : ¬ ReplicasAgree firstDelivery :=
  not_replicasAgree (by decide)

end Oxideq
