import Oxideq.Storage.Recovery

/-!
# Deeds

What a sequential run does with messages, queue by queue. A message arrives in a queue when it is
enqueued or when it is moved there as a dead letter, and it is handed out from a queue; these are
the deeds of a call (`Call.deeds`), read off its reply and the store before it.

Every call, whatever it is given and whatever becomes of its appends, is a list of acts on the
tables (`call_acts`):

* a queue is created where there is none;
* payloads are enqueued at the back of a queue;
* the front item of a queue is handed out under some id;
* a task is taken out of flight for good;
* a task goes from flight to the back of its dead-letter queue, or to the front of its own queue.

Each act has its deeds, and those of the acts of a call are those of the call. An invariant that
relates the queues to the deeds so far then has six cases, not one for each branch of each method.
-/

namespace Oxideq

variable {α : Type}

/-! ### What is done with a message -/

/-- A message arrives in a queue from a client, is handed out from a queue, or arrives in a
dead-letter queue. -/
inductive Deed (α : Type) where
  | enqueue (queue : String) (m : α)
  | hand (queue : String) (m : α)
  | bury (queue : String) (m : α)
  deriving DecidableEq, Repr

namespace InMemoryStorage

/-- What a `nack` of the task does, if it is accepted. -/
def buried (s : InMemoryStorage α) (taskId : String) : List (Deed α) :=
  match s.inFlight.lookup taskId with
  | none => []
  | some task => if task.exhausted then [.bury (dlqName task.queueName) task.data] else []

/-- The deeds of the loop of `cleanup_expired_tasks`. -/
def nackAllDeeds (s : InMemoryStorage α) (envs : ℕ → Env) : List String → List (Deed α)
  | [] => []
  | id :: ids =>
    (match (s.nack (envs 0) id).1 with
      | .ok () => s.buried id
      | _ => []) ++ nackAllDeeds (s.nack (envs 0) id).2 (fun k => envs (k + 1)) ids

end InMemoryStorage

/-- The deeds of a call, by what it returned. -/
def Call.deeds (s : InMemoryStorage α) (envs : ℕ → Env) (c : Call α) :
    Outcome (Reply α) → List (Deed α)
  | .ok reply =>
    match c, reply with
    | .queue name item, _ => [.enqueue name item]
    | .queueBatch name items, _ => items.map (.enqueue name)
    | .dequeue name, .delivered (some task) => [.hand name task.data]
    | .dequeueBatch name _, .deliveredBatch tasks => tasks.map fun task => .hand name task.data
    | .nack taskId, _ => s.buried taskId
    | .cleanupExpiredTasks timeoutSeconds, _ =>
      match s.scanExpiredTasks (envs 0) timeoutSeconds with
      | .ok expired => s.nackAllDeeds (fun k => envs (k + 1)) expired
      | _ => []
    | _, _ => []
  | _ => []

/-! ### Acts -/

/-- One act on the tables, with its deeds. -/
inductive Act (s : InMemoryStorage α) : InMemoryStorage α → List (Deed α) → Prop
  | create {name : String} (h : name ∉ s.queues) : Act s (s.setQueue name []) []
  | enqueue {name : String} {old : List (QueueItem α)} (items : List α)
    (h : s.queues.lookup name = some old) :
    Act s (s.setQueue name (old ++ items.map fun d => ⟨d, 0⟩)) (items.map (.enqueue name))
  | hand {name : String} {item : QueueItem α} {rest : List (QueueItem α)} (id : String)
    (now : Int) (h : s.queues.lookup name = some (item :: rest)) :
    Act s ((s.setQueue name rest).putTask (.deliver id name now item)) [.hand name item.data]
  | drop (id : String) : Act s (s.dropTask id) []
  | bury {id : String} {task : InFlightTask α} (hl : s.inFlight.lookup id = some task)
    (hx : task.exhausted = true) :
    Act s ((s.dropTask id).setQueue (dlqName task.queueName)
      (s.items (dlqName task.queueName) ++ [task.item]))
      [.bury (dlqName task.queueName) task.data]
  | giveBack {id : String} {task : InFlightTask α} {old : List (QueueItem α)}
    (hl : s.inFlight.lookup id = some task) (hx : task.exhausted = false)
    (hq : s.queues.lookup task.queueName = some old) :
    Act s ((s.dropTask id).setQueue task.queueName (task.item :: old)) []

/-- A list of acts. What is not in the tables, and the clock readings, may differ at every point of
it. -/
inductive Acts : InMemoryStorage α → InMemoryStorage α → List (Deed α) → Prop
  | same {s s' : InMemoryStorage α} (h : SameState s s') : Acts s s' []
  | step {s r r' s' : InMemoryStorage α} {ds ds' : List (Deed α)} (hs : SameState s r)
    (h : Act r r' ds) (h' : Acts r' s' ds') : Acts s s' (ds ++ ds')

namespace Acts

variable {s r s' s'' : InMemoryStorage α} {ds ds' : List (Deed α)}

theorem refl (s : InMemoryStorage α) : Acts s s [] := .same (SameState.refl s)

theorem cons (h : Act s s' ds) (h' : Acts s' s'' ds') : Acts s s'' (ds ++ ds') :=
  .step (SameState.refl s) h h'

theorem of_act (h : Act s s' ds) : Acts s s' ds := by
  have hc := cons h (refl s')
  rwa [List.append_nil] at hc

/-- The tables a list of acts ends with may be those of another store, -/
theorem sameState (h : Acts s s' ds) (hs : SameState s' s'') : Acts s s'' ds := by
  induction h with
  | same h => exact .same (h.trans hs)
  | step hs' h _ ih => exact .step hs' h (ih hs)

/-- and so may the tables it starts from. -/
theorem of_sameState (hs : SameState s r) (h : Acts r s' ds) : Acts s s' ds := by
  cases h with
  | same h => exact .same (hs.trans h)
  | step hs' h h' => exact .step (hs.trans hs') h h'

theorem trans (h : Acts s s' ds) (h' : Acts s' s'' ds') : Acts s s'' (ds ++ ds') := by
  induction h with
  | same h => exact h'.of_sameState h
  | step hs h _ ih =>
    rw [List.append_assoc]
    exact .step hs h (ih h')

end Acts

namespace InMemoryStorage

/-! ### One lemma for each call -/

section Calls

variable (s : InMemoryStorage α) (env : Env) (envs : ℕ → Env)

theorem createQueue_acts (name : String) : Acts s (s.createQueue env name).2 [] := by
  unfold createQueue
  split
  · exact .refl s
  · next hn =>
    obtain h | ⟨e, h⟩ := s.logOp_cases env (.createQueue name)
    · rw [h]
      exact (Acts.of_act (.create hn)).sameState (SameState.of_tables rfl rfl)
    · rw [h]
      exact .refl s

/-- The push behind a check that the queue is there. -/
theorem pushBack_of_mem {name : String} (h : name ∈ s.queues) (items : List α) :
    ∃ old, s.queues.lookup name = some old ∧
      s.pushBack name items = .ok (s.setQueue name (old ++ items.map fun d => ⟨d, 0⟩)) := by
  obtain ⟨old, hold⟩ := Finmap.mem_iff.mp h
  exact ⟨old, hold, by rw [pushBack, hold]⟩

theorem queue_acts (name : String) (item : α) :
    Acts s (s.queue env name item).2
      ((Call.queue name item).deeds s envs ((s.queue env name item).1.map fun _ => .done)) := by
  unfold queue
  split
  · exact .refl s
  · next hn =>
    obtain h | ⟨e, h⟩ := s.logOp_cases env (.enqueue name item)
    · obtain ⟨old, hold, hpush⟩ :=
        (s.logged env (.enqueue name item)).pushBack_of_mem (not_not.mp hn) [item]
      simp only [h, hpush]
      have hpushed : Acts s (s.setQueue name (old ++ [item].map fun d => ⟨d, 0⟩))
          [.enqueue name item] := .of_act (.enqueue [item] hold)
      exact hpushed.sameState (SameState.of_tables rfl rfl)
    · rw [h]
      exact .refl s

theorem queueBatch_acts (name : String) (items : List α) :
    Acts s (s.queueBatch env name items).2
      ((Call.queueBatch name items).deeds s envs
        ((s.queueBatch env name items).1.map fun _ => .done)) := by
  unfold queueBatch
  split
  · exact .refl s
  · next hn =>
    obtain h | ⟨e, h⟩ := s.logOp_cases env (.enqueueBatch name items)
    · obtain ⟨old, hold, hpush⟩ :=
        (s.logged env (.enqueueBatch name items)).pushBack_of_mem (not_not.mp hn) items
      simp only [h, hpush]
      have hpushed : Acts s (s.setQueue name (old ++ items.map fun d => ⟨d, 0⟩))
          (items.map (.enqueue name)) := .of_act (.enqueue items hold)
      exact hpushed.sameState (SameState.of_tables rfl rfl)
    · rw [h]
      exact .refl s

theorem dequeue_acts (name : String) :
    Acts s (s.dequeue env name).2
      ((Call.dequeue name).deeds s envs ((s.dequeue env name).1.map .delivered)) := by
  unfold dequeue
  cases hq : s.queues.lookup name with
  | none => exact .refl s
  | some items =>
    cases items with
    | nil => exact .refl s
    | cons item rest =>
      simp only
      obtain h | ⟨e, h⟩ := (s.setQueue name rest).logOp_cases env (.dequeued name (env.uuid 0))
      · rw [h]
        exact (Acts.of_act (.hand (env.uuid 0) (env.now 1) hq)).sameState
          (SameState.of_tables rfl rfl)
      · -- the item goes back to the front
        simp only [h, Outcome.map, Call.deeds]
        rw [setQueue_setQueue, setQueue_self hq]
        exact .refl s

/-- Items handed out one by one, from the front. -/
theorem deliverAll_acts (name : String) (now : ℕ → Int) {ids : List String}
    {items rest : List (QueueItem α)} (hlen : ids.length = items.length)
    (h : s.queues.lookup name = some (items ++ rest)) :
    Acts s ((deliverAll name now ids items).foldl putTask (s.setQueue name rest))
      (items.map fun item => .hand name item.data) := by
  -- By induction on the items: the hand-out of the first one is an act on a queue that still holds
  -- the others.
  induction items generalizing s now ids with
  | nil =>
    rw [List.length_nil, List.length_eq_zero_iff] at hlen
    subst hlen
    rw [List.nil_append] at h
    rw [setQueue_self h]
    exact .refl s
  | cons item items ih =>
    obtain ⟨id, ids, rfl⟩ := List.exists_cons_of_length_eq_add_one hlen
    -- the first item goes, and leaves the others in front
    let s₁ := (s.setQueue name (items ++ rest)).putTask (.deliver id name (now 0) item)
    have hs₁ : s₁.queues.lookup name = some (items ++ rest) := Finmap.lookup_insert _
    have hrest : s₁.setQueue name rest
        = (s.setQueue name rest).putTask (.deliver id name (now 0) item) := by
      change InMemoryStorage.mk (((s.queues.insert name (items ++ rest))).insert name rest) _ _
        = InMemoryStorage.mk (s.queues.insert name rest) _ _
      rw [Finmap.insert_insert]
      rfl
    have hfirst : Act s s₁ [.hand name item.data] := .hand id (now 0) h
    have hothers := ih s₁ (fun i => now (i + 1)) (Nat.succ.inj hlen) hs₁
    rw [hrest] at hothers
    rw [deliverAll_cons, List.foldl_cons]
    exact .cons hfirst hothers

theorem dequeueBatch_acts (name : String) (count : UInt64) :
    Acts s (s.dequeueBatch env name count).2
      ((Call.dequeueBatch name count).deeds s envs
        ((s.dequeueBatch env name count).1.map .deliveredBatch)) := by
  unfold dequeueBatch
  cases hq : s.queues.lookup name with
  | none => exact .refl s
  | some items =>
    simp only
    split
    · exact .refl s
    split
    · exact .refl s
    split
    · next hempty =>
      -- a batch of size zero leaves the queue as it is
      have htake : items.take count.toNat = [] := List.isEmpty_iff.mp hempty
      have hdrop : items.drop count.toNat = items := by
        have happ := List.take_append_drop count.toNat items
        rwa [htake, List.nil_append] at happ
      rw [hdrop, setQueue_self hq]
      exact .refl s
    generalize hids : (List.range (items.take count.toNat).length).map env.uuid = ids
    have hlen : ids.length = (items.take count.toNat).length := by
      rw [← hids, List.length_map, List.length_range]
    obtain h | ⟨e, h⟩ :=
      (s.setQueue name (items.drop count.toNat)).logOp_cases env (.dequeuedBatch name ids)
    · simp only [h, Outcome.map, Call.deeds]
      rw [map_deliverAll (g := fun item => .hand name item.data) (fun _ _ _ => rfl) _ hlen]
      have hsplit : s.queues.lookup name
          = some (items.take count.toNat ++ items.drop count.toNat) := by
        rw [List.take_append_drop, hq]
      have hlogged : SameState (s.setQueue name (items.drop count.toNat))
          ((s.setQueue name (items.drop count.toNat)).logged env (.dequeuedBatch name ids)) :=
        SameState.of_tables rfl rfl
      exact (s.deliverAll_acts name (fun i => env.now (i + 1)) hlen hsplit).sameState
        (hlogged.deliverAll ..)
    · simp only [h, Outcome.map, Call.deeds]
      -- the restored batch is the old queue
      rw [setQueue_setQueue, foldl_cons_reverse, List.take_append_drop, setQueue_self hq]
      exact .refl s

theorem ack_acts (id : String) : Acts s (s.ack env id).2 [] := by
  unfold ack
  cases hl : s.inFlight.lookup id with
  | none => exact .refl s
  | some task =>
    simp only
    obtain h | ⟨e, h⟩ := (s.dropTask id).logOp_cases env (.ack id)
    · rw [h]
      exact (Acts.of_act (.drop id)).sameState (SameState.of_tables rfl rfl)
    -- a failed append drops the task all the same
    · rw [h]
      exact .of_act (.drop id)

/-- `requeue` does not look at the log. -/
theorem requeue_logged (task : InFlightTask α) (op : WalOp α) :
    (s.logged env op).requeue task
      = (s.requeue task).map fun s' => s'.logged env op := by
  unfold requeue
  split
  · rfl
  · rw [logged_queues]
    cases s.queues.lookup task.queueName <;> rfl

/-- A task that is returned goes to the back of its dead-letter queue or to the front of its
own. -/
theorem requeue_act {id : String} {task : InFlightTask α} {s' : InMemoryStorage α}
    (hl : s.inFlight.lookup id = some task) (hr : (s.dropTask id).requeue task = .ok s') :
    Act s s' (s.buried id) := by
  unfold requeue at hr
  unfold buried
  simp only [hl]
  split at hr
  · next hx =>
    cases hr
    rw [if_pos hx]
    exact .bury hl hx
  · next hx =>
    rw [if_neg hx]
    cases hq : s.queues.lookup task.queueName with
    | none =>
      rw [show (s.dropTask id).queues.lookup task.queueName = none from hq] at hr
      cases hr
    | some old =>
      rw [show (s.dropTask id).queues.lookup task.queueName = some old from hq] at hr
      cases hr
      exact .giveBack hl (Bool.not_eq_true _ ▸ hx) hq

theorem nack_acts (id : String) :
    Acts s (s.nack env id).2
      (match (s.nack env id).1 with
        | .ok () => s.buried id
        | _ => []) := by
  unfold nack
  cases hl : s.inFlight.lookup id with
  | none => exact .refl s
  | some task =>
    simp only
    obtain h | ⟨e, h⟩ := (s.dropTask id).logOp_cases env (.nack id)
    · rw [h]
      simp only [requeue_logged]
      cases hr : (s.dropTask id).requeue task with
      -- without its queue the task is dropped; no reachable store comes here
      | error e => exact (Acts.of_act (.drop id)).sameState (SameState.of_tables rfl rfl)
      | ok s' =>
        exact (Acts.of_act (s.requeue_act hl hr)).sameState (SameState.of_tables rfl rfl)
    · -- the task goes back under its id
      simp only [h]
      rw [insert_dropTask hl]
      exact .refl s

theorem extendVisibility_acts (id : String) (duration : UInt64) :
    Acts s (s.extendVisibility env id duration).2 [] := by
  unfold extendVisibility
  cases hl : s.inFlight.lookup id with
  | none => exact .refl s
  | some task =>
    simp only
    obtain h | ⟨e, h⟩ := s.logOp_cases env (.extendVisibility id duration)
    · rw [h]
      -- only the clock of the task is reset
      have hlogged : SameState s (s.logged env (.extendVisibility id duration)) :=
        SameState.of_tables rfl rfl
      exact .same (hlogged.trans (SameState.retime _ (env.now 1) hl))
    · rw [h]
      exact .refl s

theorem dropTasks_acts (ids : List String) : Acts s (ids.foldl dropTask s) [] := by
  induction ids generalizing s with
  | nil => exact .refl s
  | cons id ids ih => exact .cons (.drop id) (ih (s.dropTask id))

theorem ackBatch_acts (ids : List String) : Acts s (s.ackBatch env ids).2 [] := by
  unfold ackBatch
  simp only
  split
  · exact .refl s
  · obtain h | ⟨e, h⟩ := s.logOp_cases env (.ackBatch ids)
    · rw [h]
      have hlogged : SameState s (s.logged env (.ackBatch ids)) := SameState.of_tables rfl rfl
      exact (s.dropTasks_acts ids).sameState (hlogged.dropTasks ids)
    · rw [h]
      exact .refl s

end Calls

theorem nackAll_acts (envs : ℕ → Env) (s : InMemoryStorage α) (ids : List String) (count : ℕ) :
    Acts s (s.nackAll envs ids count).2 (s.nackAllDeeds envs ids) := by
  induction ids generalizing s envs count with
  | nil => exact .refl s
  | cons id ids ih =>
    have hn := s.nack_acts (envs 0) id
    unfold nackAll nackAllDeeds
    split
    · next s' heq =>
      rw [heq] at hn ⊢
      exact hn.trans (ih ..)
    · next s' r _ heq =>
      rw [heq] at hn ⊢
      exact hn.trans (ih ..)

/-- **A call is a list of acts**, whose deeds are those of the call. -/
theorem call_acts (envs : ℕ → Env) (s : InMemoryStorage α) (c : Call α) :
    Acts s (s.call envs c).2 (c.deeds s envs (s.call envs c).1) := by
  -- calls without deeds have none, whatever they return
  have hnone : ∀ {r : Outcome Unit} {s' : InMemoryStorage α} {c : Call α}, Acts s s' [] →
      c.deeds s envs (.ok .done) = [] →
        Acts s s' (c.deeds s envs (r.map fun _ => .done)) := by
    intro r s' c h hc
    cases r with
    | ok u =>
      rw [Outcome.map, hc]
      exact h
    | err e => exact h
    | panic => exact h
  cases c with
  | createQueue name => exact hnone (createQueue_acts ..) rfl
  | queue name item => exact queue_acts ..
  | queueBatch name items => exact queueBatch_acts ..
  | dequeue name => exact dequeue_acts ..
  | dequeueBatch name count => exact dequeueBatch_acts ..
  | ack taskId => exact hnone (ack_acts ..) rfl
  | ackBatch taskIds => exact hnone (ackBatch_acts ..) rfl
  | nack taskId =>
    have h := s.nack_acts (envs 0) taskId
    change Acts s (s.nack (envs 0) taskId).2
      ((Call.nack taskId).deeds s envs ((s.nack (envs 0) taskId).1.map fun _ => .done))
    cases hr : (s.nack (envs 0) taskId).1 with
    | ok u =>
      rw [hr] at h
      exact h
    | err e =>
      rw [hr] at h
      exact h
    | panic =>
      rw [hr] at h
      exact h
  | extendVisibility taskId duration => exact hnone (extendVisibility_acts ..) rfl
  | cleanupExpiredTasks timeoutSeconds =>
    change Acts s (s.cleanupExpiredTasks envs timeoutSeconds).2
      ((Call.cleanupExpiredTasks timeoutSeconds).deeds s envs
        ((s.cleanupExpiredTasks envs timeoutSeconds).1.map .cleaned))
    unfold cleanupExpiredTasks
    cases hscan : s.scanExpiredTasks (envs 0) timeoutSeconds with
    | ok expired =>
      simp only [Outcome.map, Call.deeds, hscan]
      exact nackAll_acts ..
    | err e => exact .refl s
    | panic => exact .refl s

end InMemoryStorage

end Oxideq
