import Oxideq.Storage.Recovery

/-!
# Batches

What the three batch operations are for, and how they compare with the single ones.

`dequeue_batch` hands out the front items of a queue, as many as it is asked for or as there are
(`HandsOut`). It does so for every count that `Vec::with_capacity` can allocate: the count is used
as a size before the queue is looked at, so a client that asks for more than the address space
panics the call whenever there is anything to pop (`dequeueBatch_total_iff`).

Otherwise a batch is its single calls made one after the other. The tables agree after
`queue_batch` and after the pushes, after `dequeue_batch` and after the pops, after `ack_batch` and
after the acknowledgements of the ids it names. Each batch has a log entry and a replay branch of
its own. They agree with those of the single calls because both logs rebuild the tables their calls
left behind (`batch_folds`).
-/

namespace Oxideq

variable {α : Type}

/-- The tasks a reply brings. -/
def Reply.tasks : Reply α → List (InFlightTask α)
  | .delivered task => task.toList
  | .deliveredBatch tasks => tasks
  | _ => []

namespace InMemoryStorage

variable {s : InMemoryStorage α} {env : Env} {name : String} {count : UInt64}
  {items : List (QueueItem α)}

/-! ### Delivering a batch -/

/-- The batch has something to pop and its count is no size `Vec::with_capacity` can allocate. -/
def Overflows (s : InMemoryStorage α) (name : String) (count : UInt64) : Prop :=
  s.items name ≠ [] ∧ capacityOverflow count = true

instance (s : InMemoryStorage α) (name : String) (count : UInt64) :
    Decidable (s.Overflows name count) :=
  inferInstanceAs (Decidable (_ ∧ _))

/-- The tasks `dequeue_batch` makes of the first items of a queue. -/
def batchTasks (env : Env) (name : String) (count : UInt64) (items : List (QueueItem α)) :
    List (InFlightTask α) :=
  let poppedItems := items.take count.toNat
  deliverAll name (fun i => env.now (i + 1)) ((List.range poppedItems.length).map env.uuid)
    poppedItems

theorem sameState_with_wal (s : InMemoryStorage α) (wal : Option (WalManager α)) :
    SameState s { s with wal := wal } := SameState.of_tables rfl rfl

theorem foldl_putTask_with_wal (s : InMemoryStorage α) (wal : Option (WalManager α))
    (tasks : List (InFlightTask α)) :
    tasks.foldl putTask { s with wal := wal } = { tasks.foldl putTask s with wal := wal } := by
  induction tasks generalizing s with
  | nil => rfl
  | cons task tasks ih => exact ih (s.putTask task)

/-- Where the append goes through, the entry is all that is added to the store. -/
theorem logOp_of_append (happ : s.wal = none ∨ env.append = .ok ()) (op : WalOp α) :
    s.logOp env op = .ok (s.logged env op) := by
  rcases happ with hwal | happ
  · have hlogged : s.logged env op = s := by
      rw [logged, hwal, Option.map_none, ← hwal]
    rw [logOp_of_wal_none hwal, hlogged]
  · exact logOp_ok happ s op

/-- **What `dequeue_batch` does** on an existing queue, when it neither overflows nor fails to
log. -/
theorem dequeueBatch_eq (hq : s.queues.lookup name = some items) (hfits : ¬ s.Overflows name count)
    (happ : s.wal = none ∨ env.append = .ok ()) :
    ∃ wal, s.dequeueBatch env name count
      = (.ok (batchTasks env name count items),
          { (batchTasks env name count items).foldl putTask
              (s.setQueue name (items.drop count.toNat)) with wal := wal }) := by
  unfold dequeueBatch
  simp only [hq]
  -- The three exits in the order of the code: nothing to pop, nothing asked for, and the batch.
  by_cases hempty : items = []
  · subst hempty
    refine ⟨s.wal, ?_⟩
    rw [if_pos (show ([] : List (QueueItem α)).isEmpty = true from rfl)]
    have htasks : batchTasks env name count ([] : List (QueueItem α)) = [] := by
      rw [batchTasks, List.take_nil]
      rfl
    rw [htasks, List.drop_nil, List.foldl_nil, setQueue_self hq]
  have hcap : capacityOverflow count = false := by
    rw [← Bool.not_eq_true]
    intro hcap
    exact hfits ⟨by rwa [items_of_lookup hq], hcap⟩
  rw [if_neg (by rwa [List.isEmpty_iff]), if_neg (by rw [hcap]; exact Bool.false_ne_true)]
  by_cases hnone : (items.take count.toNat).isEmpty = true
  · -- a count of zero pops nothing
    refine ⟨s.wal, ?_⟩
    have htasks : batchTasks env name count items = [] := by
      rw [batchTasks, List.isEmpty_iff.mp hnone]
      rfl
    rw [if_pos hnone, htasks]
    rfl
  -- all the draws are made before the append, all the clocks are read after it
  · refine ⟨(s.logged env (.dequeuedBatch name
      ((List.range (items.take count.toNat).length).map env.uuid))).wal, ?_⟩
    have happ' : (s.setQueue name (items.drop count.toNat)).wal = none ∨ env.append = .ok () := happ
    rw [if_neg hnone]
    simp only [logOp_of_append happ']
    rw [logged, foldl_putTask_with_wal]
    rfl

/-- A batch that overflows panics. -/
theorem dequeueBatch_of_overflows (h : s.Overflows name count) :
    s.dequeueBatch env name count = (.panic, s) := by
  obtain ⟨hne, hcap⟩ := h
  have hempty : ¬ (s.items name).isEmpty = true := by rwa [List.isEmpty_iff]
  unfold dequeueBatch
  simp only [lookup_of_items rfl hne]
  rw [if_neg hempty, if_pos hcap]

/-- A batch that does not overflow does not panic, whatever becomes of its append. -/
theorem dequeueBatch_ne_panic (h : ¬ s.Overflows name count) :
    (s.dequeueBatch env name count).1 ≠ .panic := by
  intro hpanic
  -- every branch but the allocation ends in `Ok` or `Err`
  unfold dequeueBatch at hpanic
  split at hpanic
  · cases hpanic
  next items hq =>
  split at hpanic
  · cases hpanic
  next hempty =>
  split at hpanic
  · next hcap =>
    refine h ⟨?_, hcap⟩
    rwa [items_of_lookup hq, ne_eq, ← List.isEmpty_iff]
  simp only at hpanic
  split at hpanic
  · cases hpanic
  split at hpanic <;> cases hpanic

/-- `tasks` are the first `count` items of the queue, or all of them where there are fewer: in
order, in flight under ids of their own, with the other items left in the queue. -/
structure HandsOut (s : InMemoryStorage α) (name : String) (count : UInt64)
    (tasks : List (InFlightTask α)) (s' : InMemoryStorage α) : Prop where
  contents : tasks.map (fun task => (task.data, task.deliveryAttempts, task.queueName))
    = ((s.items name).take (min count.toNat (s.items name).length)).map
        fun item => (item.data, item.deliveryAttempts + 1, name)
  ids : (tasks.map InFlightTask.id).Nodup
  inFlight : ∀ task ∈ tasks, s'.inFlight.lookup task.id = some task
  rest : s'.queues.lookup name
    = some ((s.items name).drop (min count.toNat (s.items name).length))
  others : ∀ other, other ≠ name → s'.queues.lookup other = s.queues.lookup other

/-- `dequeue_batch` does not panic, and hands out its batch unless its append fails. -/
def DequeueBatchTotal (s : InMemoryStorage α) (env : Env) (name : String) (count : UInt64) :
    Prop :=
  (s.dequeueBatch env name count).1 ≠ .panic ∧
    (s.wal = none ∨ env.append = .ok () → ∃ tasks s',
      s.dequeueBatch env name count = (.ok tasks, s') ∧ s.HandsOut name count tasks s')

theorem lookup_foldl_putTask_of_notMem {tasks : List (InFlightTask α)} {id : String}
    (h : id ∉ tasks.map InFlightTask.id) :
    (tasks.foldl putTask s).inFlight.lookup id = s.inFlight.lookup id := by
  induction tasks generalizing s with
  | nil => rfl
  | cons task tasks ih =>
    rw [List.map_cons, List.mem_cons, not_or] at h
    rw [List.foldl_cons, ih h.2, putTask, Finmap.lookup_insert_of_ne _ h.1]

theorem lookup_foldl_putTask_of_mem {tasks : List (InFlightTask α)}
    (hids : (tasks.map InFlightTask.id).Nodup) {task : InFlightTask α} (h : task ∈ tasks) :
    (tasks.foldl putTask s).inFlight.lookup task.id = some task := by
  induction tasks generalizing s with
  | nil => cases h
  | cons t ts ih =>
    rw [List.map_cons, List.nodup_cons] at hids
    rw [List.foldl_cons]
    rcases List.mem_cons.mp h with rfl | h
    · -- the tasks behind it have other ids
      rw [lookup_foldl_putTask_of_notMem hids.1, putTask, Finmap.lookup_insert]
    · exact ih hids.2 h

theorem map_id_batchTasks (env : Env) (name : String) (count : UInt64)
    (items : List (QueueItem α)) :
    (batchTasks env name count items).map InFlightTask.id
      = (List.range (min count.toNat items.length)).map env.uuid := by
  rw [batchTasks, map_id_deliverAll, List.map_fst_zip, List.length_take]
  rw [List.length_map, List.length_range]

theorem handsOut_batchTasks (hq : s.queues.lookup name = some items)
    (hdraws : ((List.range (min count.toNat items.length)).map env.uuid).Nodup)
    (wal : Option (WalManager α)) :
    s.HandsOut name count (batchTasks env name count items)
      { (batchTasks env name count items).foldl putTask
          (s.setQueue name (items.drop count.toNat)) with wal := wal } := by
  have hids : ((batchTasks env name count items).map InFlightTask.id).Nodup := by
    rwa [map_id_batchTasks]
  have hqueues : ((batchTasks env name count items).foldl putTask
      (s.setQueue name (items.drop count.toNat))).queues
      = s.queues.insert name (items.drop count.toNat) := foldl_putTask_queues _ _
  -- `count` is at least `min count n`, which is all that the list operations see of it
  refine ⟨?_, hids, fun task htask => lookup_foldl_putTask_of_mem hids htask, ?_, ?_⟩
  · rw [items_of_lookup hq, ← List.take_eq_take_min]
    refine map_deliverAll (fun _ _ _ => rfl) _ ?_
    rw [List.length_map, List.length_range]
  · change Finmap.lookup name ((batchTasks env name count items).foldl putTask _).queues = _
    rw [hqueues, Finmap.lookup_insert, items_of_lookup hq,
      ← List.drop_eq_drop_min]
  · intro other hother
    change Finmap.lookup other ((batchTasks env name count items).foldl putTask _).queues = _
    rw [hqueues, Finmap.lookup_insert_of_ne _ hother]

/-- **When `dequeue_batch` is total.** On an existing queue, with draws that differ: for every count
if the queue is empty, and otherwise for those that can be allocated. -/
theorem dequeueBatch_total_iff (s : InMemoryStorage α) (env : Env) (name : String)
    (count : UInt64) (hq : name ∈ s.queues)
    (hdraws : ((List.range (min count.toNat (s.items name).length)).map env.uuid).Nodup) :
    s.DequeueBatchTotal env name count ↔ s.items name = [] ∨ capacityOverflow count = false := by
  have hfits : ¬ s.Overflows name count ↔ s.items name = [] ∨ capacityOverflow count = false := by
    rw [Overflows, not_and_or, ne_eq, not_not, Bool.not_eq_true]
  rw [← hfits]
  constructor
  · rintro ⟨hpanic, -⟩ hover
    rw [dequeueBatch_of_overflows hover] at hpanic
    exact hpanic rfl
  · intro h
    obtain ⟨items, hl⟩ := Finmap.mem_iff.mp hq
    refine ⟨dequeueBatch_ne_panic h, fun happ => ?_⟩
    obtain ⟨wal, heq⟩ := dequeueBatch_eq hl h happ
    rw [items_of_lookup hl] at hdraws
    exact ⟨_, _, heq, handsOut_batchTasks hl hdraws wal⟩

/-- A queue with one message. -/
def oneJob : InMemoryStorage Bytes :=
  ((new : InMemoryStorage Bytes).callAll (fun _ _ => Env.quiet [])
    [.createQueue "jobs", .queue "jobs" [0x68]]).2

theorem dequeueBatch_total_iff_oneJob :
    oneJob.DequeueBatchTotal (Env.quiet ["t"]) "jobs" 10
      ↔ oneJob.items "jobs" = [] ∨ capacityOverflow 10 = false :=
  dequeueBatch_total_iff oneJob (Env.quiet ["t"]) "jobs" 10 (by decide) (by decide)

/-- A request for `2^58` messages panics although there is one. -/
theorem not_dequeueBatchTotal_oneJob :
    ¬ ∀ (s : InMemoryStorage Bytes) (env : Env) (name : String) (count : UInt64),
      name ∈ s.queues →
      ((List.range (min count.toNat (s.items name).length)).map env.uuid).Nodup →
        s.DequeueBatchTotal env name count := by
  intro h
  have hover : oneJob.Overflows "jobs" 288230376151711744 := by decide
  obtain ⟨hpanic, -⟩ := h oneJob (Env.quiet ["t"]) "jobs" 288230376151711744 (by decide) (by decide)
  rw [dequeueBatch_of_overflows hover] at hpanic
  exact hpanic rfl

/-! ### The single calls -/

/-- What `queue` does on an existing queue. -/
theorem queue_eq (hq : s.queues.lookup name = some items)
    (happ : s.wal = none ∨ env.append = .ok ()) (item : α) :
    ∃ wal, s.queue env name item
      = (.ok (), { s.setQueue name (items ++ [⟨item, 0⟩]) with wal := wal }) := by
  have hmem : ¬ name ∉ s.queues := not_not.mpr (Finmap.mem_of_lookup_eq_some hq)
  refine ⟨(s.logged env (.enqueue name item)).wal, ?_⟩
  unfold queue
  rw [if_neg hmem]
  simp only [logOp_of_append happ, pushBack, logged_queues, hq]
  rfl

theorem queueBatch_eq (hq : s.queues.lookup name = some items)
    (happ : s.wal = none ∨ env.append = .ok ()) (batch : List α) :
    ∃ wal, s.queueBatch env name batch
      = (.ok (), { s.setQueue name (items ++ batch.map fun d => ⟨d, 0⟩) with wal := wal }) := by
  have hmem : ¬ name ∉ s.queues := not_not.mpr (Finmap.mem_of_lookup_eq_some hq)
  refine ⟨(s.logged env (.enqueueBatch name batch)).wal, ?_⟩
  unfold queueBatch
  rw [if_neg hmem]
  simp only [logOp_of_append happ, pushBack, logged_queues, hq]
  rfl

/-- What `dequeue` does when there is an item. -/
theorem dequeue_eq {item : QueueItem α} {rest : List (QueueItem α)}
    (hq : s.queues.lookup name = some (item :: rest))
    (happ : s.wal = none ∨ env.append = .ok ()) :
    ∃ wal, s.dequeue env name
      = (.ok (some (.deliver (env.uuid 0) name (env.now 1) item)),
          { (s.setQueue name rest).putTask (.deliver (env.uuid 0) name (env.now 1) item) with
            wal := wal }) := by
  have happ' : (s.setQueue name rest).wal = none ∨ env.append = .ok () := happ
  refine ⟨(s.logged env (.dequeued name (env.uuid 0))).wal, ?_⟩
  unfold dequeue
  simp only [hq, logOp_of_append happ']
  rfl

/-- What `ack` does to a task in flight. -/
theorem ack_eq {id : String} (h : id ∈ s.inFlight) (happ : s.wal = none ∨ env.append = .ok ()) :
    ∃ wal, s.ack env id = (.ok (), { s.dropTask id with wal := wal }) := by
  obtain ⟨task, hl⟩ := Finmap.mem_iff.mp h
  have happ' : (s.dropTask id).wal = none ∨ env.append = .ok () := happ
  refine ⟨(s.logged env (.ack id)).wal, ?_⟩
  unfold ack
  simp only [hl, logOp_of_append happ']
  rfl

theorem foldl_dropTask_with_wal (s : InMemoryStorage α) (wal : Option (WalManager α))
    (ids : List String) :
    ids.foldl dropTask { s with wal := wal } = { ids.foldl dropTask s with wal := wal } := by
  induction ids generalizing s with
  | nil => rfl
  | cons id ids ih => exact ih (s.dropTask id)

theorem ackBatch_eq {ids : List String} (h : ∀ id ∈ ids, id ∈ s.inFlight)
    (happ : s.wal = none ∨ env.append = .ok ()) :
    ∃ wal, s.ackBatch env ids = (.ok (), { ids.foldl dropTask s with wal := wal }) := by
  have hmissing : ids.filter (· ∉ s.inFlight) = [] := by
    rw [List.filter_eq_nil_iff]
    intro id hid
    simpa using h id hid
  refine ⟨(s.logged env (.ackBatch ids)).wal, ?_⟩
  unfold ackBatch
  simp only [hmissing, ne_eq, not_true_eq_false, if_false, logOp_of_append happ]
  rw [logged, foldl_dropTask_with_wal]

/-- `ack_batch` with an id that is not in flight is refused before anything happens. -/
theorem ackBatch_of_missing {ids : List String} (h : ¬ ∀ id ∈ ids, id ∈ s.inFlight) :
    ∃ e, s.ackBatch env ids = (.err e, s) := by
  have hmissing : ids.filter (· ∉ s.inFlight) ≠ [] := by
    rw [ne_eq, List.filter_eq_nil_iff]
    simpa using h
  refine ⟨tasksNotFound (ids.filter (· ∉ s.inFlight)), ?_⟩
  unfold ackBatch
  simp only [if_pos hmissing]

theorem lookup_foldl_dropTask (ids : List String) (id : String) :
    (ids.foldl dropTask s).inFlight.lookup id
      = if id ∈ ids then none else s.inFlight.lookup id := by
  induction ids generalizing s with
  | nil => rfl
  | cons id' ids ih =>
    rw [List.foldl_cons, ih]
    by_cases hids : id ∈ ids
    · rw [if_pos hids, if_pos (List.mem_cons_of_mem _ hids)]
    · rw [if_neg hids]
      by_cases hid : id = id'
      · rw [hid, if_pos List.mem_cons_self, dropTask, Finmap.lookup_erase]
      · have hcons : id ∉ id' :: ids := by
          rw [List.mem_cons, not_or]
          exact ⟨hid, hids⟩
        rw [if_neg hcons, dropTask, Finmap.lookup_erase_ne hid]

/-! ### One after the other -/

variable {envs : ℕ → ℕ → Env}

/-- The pushes of a list of payloads. -/
theorem callAll_queue (hq : s.queues.lookup name = some items)
    (happ : ∀ k, (envs k 0).append = .ok ()) (batch : List α) :
    ∃ wal, s.callAll envs (batch.map (.queue name))
      = (batch.map fun _ => .ok .done,
          { s.setQueue name (items ++ batch.map fun d => ⟨d, 0⟩) with wal := wal }) := by
  induction batch generalizing s items envs with
  | nil =>
    refine ⟨s.wal, ?_⟩
    simp only [List.map_nil, List.append_nil, setQueue_self hq]
    rfl
  | cons d batch ih =>
    obtain ⟨wal, heq⟩ := queue_eq hq (Or.inr (happ 0)) d
    let s₁ : InMemoryStorage α := { s.setQueue name (items ++ [⟨d, 0⟩]) with wal := wal }
    have hq₁ : s₁.queues.lookup name = some (items ++ [⟨d, 0⟩]) := Finmap.lookup_insert _
    obtain ⟨wal', hrest⟩ := ih hq₁ fun k => happ (k + 1)
    refine ⟨wal', ?_⟩
    have hcall : s.call (envs 0) (.queue name d) = (.ok .done, s₁) := by
      rw [call, heq]
      rfl
    rw [List.map_cons, callAll, hcall]
    simp only [hrest, Prod.map, id, List.append_assoc, List.singleton_append, List.map_cons]
    have hset : s₁.setQueue name (items ++ ⟨d, 0⟩ :: batch.map fun d => ⟨d, 0⟩)
        = { s.setQueue name (items ++ ⟨d, 0⟩ :: batch.map fun d => ⟨d, 0⟩) with wal := wal } := by
      change InMemoryStorage.mk ((s.queues.insert name _).insert name _) _ _ = _
      rw [Finmap.insert_insert]
      rfl
    rw [hset]

/-- The tasks of the first `n` items, each from a `dequeue` of its own. -/
def singleTasks (envs : ℕ → ℕ → Env) (name : String) (items : List (QueueItem α)) (n : ℕ) :
    List (InFlightTask α) :=
  deliverAll name (fun k => (envs k 0).now 1) ((List.range n).map fun k => (envs k 0).uuid 0)
    (items.take n)

/-- Two deliveries of the same items under the same ids differ in their clocks only. -/
theorem map_untimed_deliverAll (name : String) (now now' : ℕ → Int) (ids : List String)
    (items : List (QueueItem α)) :
    (deliverAll name now ids items).map InFlightTask.untimed
      = (deliverAll name now' ids items).map InFlightTask.untimed := by
  unfold deliverAll
  induction ids.zip items generalizing now now' with
  | nil => rfl
  | cons p ps ih =>
    rw [List.mapIdx_cons, List.mapIdx_cons, List.map_cons, List.map_cons]
    exact congrArg _ (ih (fun i => now (i + 1)) fun i => now' (i + 1))

theorem singleTasks_succ (name : String) (item : QueueItem α) (items : List (QueueItem α))
    (n : ℕ) :
    singleTasks envs name (item :: items) (n + 1)
      = .deliver ((envs 0 0).uuid 0) name ((envs 0 0).now 1) item
        :: singleTasks (fun k => envs (k + 1)) name items n := by
  rw [singleTasks, List.range_succ_eq_map, List.map_cons, List.take_succ_cons, deliverAll_cons,
    List.map_map]
  rfl

/-- The pops of the first items of a queue. -/
theorem callAll_dequeue (hq : s.queues.lookup name = some items)
    (happ : ∀ k, (envs k 0).append = .ok ()) {n : ℕ} (hn : n ≤ items.length) :
    ∃ wal, s.callAll envs (List.replicate n (.dequeue name))
      = ((singleTasks envs name items n).map fun task => .ok (.delivered (some task)),
          { (singleTasks envs name items n).foldl putTask (s.setQueue name (items.drop n)) with
            wal := wal }) := by
  -- Each pop leaves a store that differs from the last one in its log as well, hence `∃ wal`.
  induction n generalizing s items envs with
  | zero =>
    refine ⟨s.wal, ?_⟩
    rw [List.drop_zero, setQueue_self hq]
    rfl
  | succ n ih =>
    obtain ⟨item, rest, rfl⟩ := List.exists_cons_of_length_pos (Nat.lt_of_lt_of_le n.succ_pos hn)
    obtain ⟨wal, heq⟩ := dequeue_eq hq (Or.inr (happ 0))
    let task := InFlightTask.deliver ((envs 0 0).uuid 0) name ((envs 0 0).now 1) item
    let s₁ : InMemoryStorage α := { (s.setQueue name rest).putTask task with wal := wal }
    have hq₁ : s₁.queues.lookup name = some rest := Finmap.lookup_insert _
    obtain ⟨wal', hrest⟩ := ih hq₁ (fun k => happ (k + 1))
      (Nat.le_of_succ_le_succ hn)
    refine ⟨wal', ?_⟩
    have hcall : s.call (envs 0) (.dequeue name) = (.ok (.delivered (some task)), s₁) := by
      rw [call, heq]
      rfl
    rw [List.replicate_succ, callAll, hcall, singleTasks_succ]
    simp only [hrest, Prod.map, id, List.map_cons, List.drop_succ_cons, List.foldl_cons]
    -- the queue is written twice, and the task in between does not matter to it
    have hset : s₁.setQueue name (rest.drop n)
        = { (s.setQueue name (rest.drop n)).putTask task with wal := wal } := by
      change InMemoryStorage.mk ((s.queues.insert name _).insert name _) _ _ = _
      rw [Finmap.insert_insert]
      rfl
    rw [hset, foldl_putTask_with_wal]

/-- The acknowledgements of different tasks in flight. -/
theorem callAll_ack (happ : ∀ k, (envs k 0).append = .ok ()) {ids : List String}
    (hids : ids.Nodup) (h : ∀ id ∈ ids, id ∈ s.inFlight) :
    ∃ wal, s.callAll envs (ids.map .ack)
      = (ids.map fun _ => .ok .done, { ids.foldl dropTask s with wal := wal }) := by
  induction ids generalizing s envs with
  | nil => exact ⟨s.wal, rfl⟩
  | cons taskId ids ih =>
    rw [List.nodup_cons] at hids
    obtain ⟨wal, heq⟩ := ack_eq (h taskId List.mem_cons_self) (Or.inr (happ 0))
    let s₁ : InMemoryStorage α := { s.dropTask taskId with wal := wal }
    have h₁ : ∀ id' ∈ ids, id' ∈ s₁.inFlight := by
      intro id' hid'
      refine Finmap.mem_erase.mpr ⟨?_, h id' (List.mem_cons_of_mem _ hid')⟩
      -- an id that was acknowledged does not come again
      rintro rfl
      exact hids.1 hid'
    obtain ⟨wal', hrest⟩ := ih (fun k => happ (k + 1)) hids.2 h₁
    refine ⟨wal', ?_⟩
    have hcall : s.call (envs 0) (.ack taskId) = (.ok .done, s₁) := by
      rw [call, heq]
      rfl
    rw [List.map_cons, callAll, hcall]
    simp only [hrest, Prod.map, id, List.map_cons, List.foldl_cons]
    rw [foldl_dropTask_with_wal]

/-! ### A batch and the single calls it stands for -/

/-- `c` is a batch that is accepted and `cs` are the single calls it stands for, with the same
draws. A `VecDeque` is no larger than `isize::MAX` bytes, so a count up to its length can always be
allocated. -/
inductive Unbatched (s : InMemoryStorage α) (env : Env) (envs : ℕ → ℕ → Env) :
    Call α → List (Call α) → Prop
  | queueBatch {name : String} (batch : List α) (hq : name ∈ s.queues) :
    Unbatched s env envs (.queueBatch name batch) (batch.map (.queue name))
  | dequeueBatch {name : String} {count : UInt64} (hq : name ∈ s.queues)
    (hcount : count.toNat ≤ (s.items name).length)
    (hmemory : (s.items name).length * queueItemSize ≤ 2 ^ 63 - 1)
    (hdraws : ∀ k, (envs k 0).uuid 0 = env.uuid k) :
    Unbatched s env envs (.dequeueBatch name count) (List.replicate count.toNat (.dequeue name))
  | ackBatch {ids distinct : List String} (h : ∀ id ∈ ids, id ∈ s.inFlight)
    (hnodup : distinct.Nodup) (hdistinct : ∀ id, id ∈ distinct ↔ id ∈ ids) :
    Unbatched s env envs (.ackBatch ids) (distinct.map .ack)

/-- The call `c` and the calls `cs` return the same tasks and end in the same state, up to the
clocks of these tasks. -/
structure FoldsTo (s : InMemoryStorage α) (envs : ℕ → Env) (envs' : ℕ → ℕ → Env) (c : Call α)
    (cs : List (Call α)) : Prop where
  state : SameState (s.call envs c).2 (s.callAll envs' cs).2
  replies : ∃ (r : Reply α) (rs : List (Reply α)), (s.call envs c).1 = .ok r ∧
    (s.callAll envs' cs).1 = rs.map .ok ∧
    (rs.flatMap Reply.tasks).map InFlightTask.untimed = r.tasks.map InFlightTask.untimed ∧
    ∀ id, id ∉ r.tasks.map InFlightTask.id →
      (s.call envs c).2.inFlight.lookup id = (s.callAll envs' cs).2.inFlight.lookup id

/-- Replies without tasks, and the same tables. -/
theorem FoldsTo.of_tables {envs : ℕ → Env} {envs' : ℕ → ℕ → Env} {c : Call α}
    {cs : List (Call α)} (hreply : (s.call envs c).1 = .ok .done)
    (hreplies : ∃ n, (s.callAll envs' cs).1 = List.replicate n (.ok .done))
    (hqueues : (s.call envs c).2.queues = (s.callAll envs' cs).2.queues)
    (hinFlight : (s.call envs c).2.inFlight = (s.callAll envs' cs).2.inFlight) :
    s.FoldsTo envs envs' c cs := by
  obtain ⟨n, hn⟩ := hreplies
  refine ⟨SameState.of_tables hqueues hinFlight, .done, List.replicate n .done, hreply, ?_, ?_, ?_⟩
  · rw [hn, List.map_replicate]
  · have htasks : (List.replicate n (.done : Reply α)).flatMap Reply.tasks = [] := by
      rw [List.flatMap_eq_nil_iff]
      intro r hr
      rw [List.eq_of_mem_replicate hr]
      rfl
    rw [htasks]
    rfl
  · intro id _
    rw [hinFlight]

/-- A count up to the length of a queue can be allocated. -/
theorem not_overflows (hcount : count.toNat ≤ (s.items name).length)
    (hmemory : (s.items name).length * queueItemSize ≤ 2 ^ 63 - 1) : ¬ s.Overflows name count := by
  rintro ⟨-, hcap⟩
  rw [capacityOverflow, decide_eq_true_iff] at hcap
  have hle : count.toNat * queueItemSize ≤ (s.items name).length * queueItemSize :=
    Nat.mul_le_mul_right _ hcount
  omega

section Folds

variable {envs : ℕ → Env} {envs' : ℕ → ℕ → Env} (happ : (envs 0).append = .ok ())
  (happ' : ∀ k, (envs' k 0).append = .ok ())

include happ happ'

theorem foldsTo_queueBatch (hq : name ∈ s.queues) (batch : List α) :
    s.FoldsTo envs envs' (.queueBatch name batch) (batch.map (.queue name)) := by
  obtain ⟨items, hl⟩ := Finmap.mem_iff.mp hq
  obtain ⟨wal, hbatch⟩ := queueBatch_eq hl (Or.inr happ) batch
  obtain ⟨wal', hall⟩ := callAll_queue hl happ' batch
  refine .of_tables ?_ ⟨batch.length, ?_⟩ ?_ ?_
  · rw [call, hbatch]
    rfl
  · rw [hall, List.map_const']
  · rw [call, hbatch, hall]
    rfl
  · rw [call, hbatch, hall]
    rfl

theorem foldsTo_dequeueBatch (hq : name ∈ s.queues) (hcount : count.toNat ≤ (s.items name).length)
    (hmemory : (s.items name).length * queueItemSize ≤ 2 ^ 63 - 1)
    (hdraws : ∀ k, (envs' k 0).uuid 0 = (envs 0).uuid k) :
    s.FoldsTo envs envs' (.dequeueBatch name count)
      (List.replicate count.toNat (.dequeue name)) := by
  obtain ⟨items, hl⟩ := Finmap.mem_iff.mp hq
  have hfits := not_overflows hcount hmemory
  rw [items_of_lookup hl] at hcount
  obtain ⟨wal, hbatch⟩ := dequeueBatch_eq hl hfits (Or.inr happ)
  obtain ⟨wal', hall⟩ := callAll_dequeue hl happ' hcount
  have htake : (items.take count.toNat).length = count.toNat := by
    rw [List.length_take, min_eq_left hcount]
  -- both draw the same ids for the same items
  have hids : (List.range count.toNat).map (fun k => (envs' k 0).uuid 0)
      = (List.range count.toNat).map (envs 0).uuid :=
    List.map_congr_left fun k _ => hdraws k
  have hbatchTasks : batchTasks (envs 0) name count items
      = deliverAll name (fun i => (envs 0).now (i + 1))
          ((List.range count.toNat).map (envs 0).uuid) (items.take count.toNat) := by
    rw [batchTasks, htake]
  have hsingles : singleTasks envs' name items count.toNat
      = deliverAll name (fun k => (envs' k 0).now 1)
          ((List.range count.toNat).map (envs 0).uuid) (items.take count.toNat) := by
    rw [singleTasks, hids]
  have hstate : (s.call envs (.dequeueBatch name count)).2
      = { (batchTasks (envs 0) name count items).foldl putTask
            (s.setQueue name (items.drop count.toNat)) with wal := wal } := by
    rw [call, hbatch]
    rfl
  refine ⟨?_, .deliveredBatch (batchTasks (envs 0) name count items),
    (singleTasks envs' name items count.toNat).map fun task => .delivered (some task), ?_, ?_, ?_,
    fun id hid => ?_⟩
  · rw [hstate, hall, hbatchTasks, hsingles]
    -- the same deliveries, at other times
    have hdeliver := (SameState.refl (s.setQueue name (items.drop count.toNat))).deliverAll name
      (fun i => (envs 0).now (i + 1)) (fun k => (envs' k 0).now 1)
      ((List.range count.toNat).map (envs 0).uuid) (items.take count.toNat)
    exact ((sameState_with_wal _ wal).symm.trans hdeliver).trans (sameState_with_wal _ wal')
  · rw [call, hbatch]
    rfl
  · rw [hall, List.map_map]
    rfl
  · rw [List.flatMap_map]
    change ((singleTasks envs' name items count.toNat).flatMap fun task => [task]).map _ = _
    rw [List.flatMap_singleton', hsingles]
    change _ = (batchTasks (envs 0) name count items).map _
    rw [hbatchTasks]
    -- up to the clock the two lists have the same ids and items
    exact map_untimed_deliverAll ..
  · change id ∉ (batchTasks (envs 0) name count items).map InFlightTask.id at hid
    have hid' : id ∉ (singleTasks envs' name items count.toNat).map InFlightTask.id := by
      rw [hsingles, map_id_deliverAll]
      rwa [hbatchTasks, map_id_deliverAll] at hid
    rw [hstate, hall]
    -- an id outside the batch is written by neither
    exact (lookup_foldl_putTask_of_notMem hid).trans (lookup_foldl_putTask_of_notMem hid').symm

theorem foldsTo_ackBatch {ids distinct : List String} (h : ∀ id ∈ ids, id ∈ s.inFlight)
    (hnodup : distinct.Nodup) (hdistinct : ∀ id, id ∈ distinct ↔ id ∈ ids) :
    s.FoldsTo envs envs' (.ackBatch ids) (distinct.map .ack) := by
  have h' : ∀ id ∈ distinct, id ∈ s.inFlight := fun id hid => h id ((hdistinct id).mp hid)
  obtain ⟨wal, hbatch⟩ := ackBatch_eq h (Or.inr happ)
  obtain ⟨wal', hall⟩ := callAll_ack happ' hnodup h'
  refine .of_tables ?_ ⟨distinct.length, ?_⟩ ?_ ?_
  · rw [call, hbatch]
    rfl
  · rw [hall, List.map_const']
  · rw [call, hbatch, hall]
    exact (foldl_dropTask_queues s ids).trans (foldl_dropTask_queues s distinct).symm
  · rw [call, hbatch, hall]
    refine Finmap.ext_lookup fun id => ?_
    change (ids.foldl dropTask s).inFlight.lookup id
      = (distinct.foldl dropTask s).inFlight.lookup id
    rw [lookup_foldl_dropTask, lookup_foldl_dropTask]
    -- an id is gone as soon as it occurs once
    simp only [hdistinct]

/-- **A batch is the fold of its single calls.** -/
theorem Unbatched.foldsTo {c : Call α} {cs : List (Call α)}
    (h : s.Unbatched (envs 0) envs' c cs) : s.FoldsTo envs envs' c cs := by
  cases h with
  | queueBatch batch hq => exact foldsTo_queueBatch happ happ' hq batch
  | dequeueBatch hq hcount hmemory hdraws =>
    exact foldsTo_dequeueBatch happ happ' hq hcount hmemory hdraws
  | ackBatch h hnodup hdistinct => exact foldsTo_ackBatch happ happ' h hnodup hdistinct

end Folds

end InMemoryStorage

namespace Node

/-- The calls as events of a node. -/
def callEvents (envs : ℕ → ℕ → Env) (cs : List (Call Bytes)) : List Event :=
  cs.mapIdx fun k c => .call (envs k) c

theorem store_run_callEvents (n : Node) (envs : ℕ → ℕ → Env) (cs : List (Call Bytes)) :
    (n.run (callEvents envs cs)).store = (n.store.callAll envs cs).2 := by
  induction cs generalizing n envs with
  | nil => rfl
  | cons c cs ih =>
    rw [callEvents, List.mapIdx_cons]
    exact ih (n.step (.call (envs 0) c)) fun k => envs (k + 1)

theorem appendsSucceed_callEvents {envs : ℕ → ℕ → Env} (h : ∀ k i, (envs k i).append = .ok ())
    (cs : List (Call Bytes)) : ∀ ev ∈ callEvents envs cs, ev.AppendsSucceed := by
  intro ev hev
  obtain ⟨k, hk, rfl⟩ := List.mem_mapIdx.mp hev
  exact h k

/-- **Batches are folds of the single operations.** On every store, a batch that is accepted and
the calls it stands for return the same tasks and end in the same state; `ack_batch` is accepted
when all its ids are in flight and changes nothing otherwise. On a persistent store that was reached
with every append succeeding, a restart finds the same tables behind the one log entry of the batch
as behind the entries of the single calls. -/
theorem batch_folds :
    (∀ (s : InMemoryStorage Bytes) (envs : ℕ → Env) (envs' : ℕ → ℕ → Env) (c : Call Bytes)
      (cs : List (Call Bytes)), (envs 0).append = .ok () → (∀ k, (envs' k 0).append = .ok ()) →
        s.Unbatched (envs 0) envs' c cs → s.FoldsTo envs envs' c cs) ∧
    (∀ (s : InMemoryStorage Bytes) (env : Env) (ids : List String), env.append = .ok () →
      ((s.ackBatch env ids).1 = .ok () ↔ ∀ id ∈ ids, id ∈ s.inFlight) ∧
        ((s.ackBatch env ids).1 ≠ .ok () → (s.ackBatch env ids).2 = s)) ∧
    ∀ (envs₀ : ℕ → Env) (events : List Event), (∀ ev ∈ events, ev.AppendsSucceed) →
      let n := (start envs₀ []).run events
      ∀ (envs : ℕ → Env) (envs' : ℕ → ℕ → Env) (c : Call Bytes) (cs : List (Call Bytes)),
        (∀ k, (envs k).append = .ok ()) → (∀ k i, (envs' k i).append = .ok ()) →
        n.store.Unbatched (envs 0) envs' c cs → ∀ replay replay' : ℕ → Env,
          SameState
            (InMemoryStorage.newPersistent replay (n.step (.call envs c)).contents)
            (InMemoryStorage.newPersistent replay' (n.run (callEvents envs' cs)).contents) := by
  refine ⟨fun s envs envs' c cs happ happ' h => h.foldsTo happ happ', ?_, ?_⟩
  · intro s env ids happ
    -- with the append granted, the verification alone decides
    by_cases hids : ∀ id ∈ ids, id ∈ s.inFlight
    · obtain ⟨wal, heq⟩ := InMemoryStorage.ackBatch_eq hids (Or.inr happ)
      rw [heq]
      exact ⟨⟨fun _ => hids, fun _ => rfl⟩, fun hne => absurd rfl hne⟩
    · obtain ⟨e, heq⟩ : ∃ e, s.ackBatch env ids = (.err e, s) :=
        InMemoryStorage.ackBatch_of_missing hids
      rw [heq]
      refine ⟨⟨fun hok => ?_, fun h => absurd h hids⟩, fun _ => rfl⟩
      cases hok
  · intro envs₀ events hev n envs envs' c cs happ happ' h replay replay'
    have hn : Recovers n := (recovers_start envs₀ []).run hev
    -- each log rebuilds the tables its calls left, and these agree
    have hbatch := (hn.call (c := c) (Or.inl happ)).newPersistent replay
    have hsingles :=
      (hn.run (appendsSucceed_callEvents happ' cs)).newPersistent replay'
    rw [store_run_callEvents] at hsingles
    have hlive : SameState (n.step (.call envs c)).store (n.store.callAll envs' cs).2 :=
      (h.foldsTo (happ 0) fun k => happ' k 0).state
    exact (hbatch.trans hlive).trans hsingles.symm

end Node

end Oxideq
