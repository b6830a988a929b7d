import Oxideq.Concurrent.History

/-!
# Where runs start

The interleaved runs start from a store that was rebuilt from a log, with or without a log of its
own: every store a process starts with, and every state a sequential caller can bring it to, is
of this kind. Such a store is valid, and its messages are among those its log names.

To follow single messages, the payloads are tagged with the place they come from; the store moves
tagged payloads as it moves bare ones.
-/

namespace Oxideq

variable {ι α : Type}

/-- The payloads an entry names. -/
def WalOp.payloads : WalOp α → List α
  | .enqueue _ data => [data]
  | .enqueueBatch _ data => data
  | _ => []

namespace InMemoryStorage

/-- The store rebuilt from `entries`, with a log opened behind it or without one. -/
def boot (persistent : Bool) (envs : ℕ → Env) (entries : List (WalEntry α)) : InMemoryStorage α :=
  { (new : InMemoryStorage α).replayEntries envs entries with
    wal := if persistent then some WalManager.new else none }

theorem boot_true (envs : ℕ → Env) (entries : List (WalEntry α)) :
    boot true envs entries = recover envs entries := rfl

/-! ### Validity -/

theorem valid_new : (new : InMemoryStorage α).Valid := by
  constructor
  · intro id task h
    cases h
  · intro id task h
    cases h

theorem Valid.of_tables {s s' : InMemoryStorage α} (h : s.Valid) (hq : s'.queues = s.queues)
    (hf : s'.inFlight = s.inFlight) : s'.Valid := by
  constructor
  · intro id task hl
    rw [hf] at hl
    exact h.id_eq hl
  · intro id task hl
    rw [hf] at hl
    rw [hq]
    exact h.queue_mem hl

theorem Valid.pushBack {s : InMemoryStorage α} (h : s.Valid) (name : String) (items : List α) :
    (s.orSelf (s.pushBack name items)).Valid := by
  unfold InMemoryStorage.pushBack
  cases s.queues.lookup name with
  | none => exact h
  | some q => exact h.setQueue ..

theorem Valid.requeue {s : InMemoryStorage α} (h : s.Valid) (task : InFlightTask α) :
    (s.orSelf (s.requeue task)).Valid := by
  unfold InMemoryStorage.requeue
  split
  · exact h.setQueue ..
  cases s.queues.lookup task.queueName with
  | none => exact h
  | some q => exact h.setQueue ..

theorem Valid.dropTasks {s : InMemoryStorage α} (h : s.Valid) (ids : List String) :
    (ids.foldl InMemoryStorage.dropTask s).Valid := by
  induction ids generalizing s with
  | nil => exact h
  | cons id ids ih => exact ih (h.dropTask id)

theorem Valid.putTasks {s : InMemoryStorage α} (h : s.Valid) {name : String}
    (hn : name ∈ s.queues) (now : ℕ → Int) (ids : List String) (items : List (QueueItem α)) :
    ((deliverAll name now ids items).foldl putTask s).Valid := by
  unfold deliverAll
  induction ids.zip items generalizing s now with
  | nil => exact h
  | cons p ps ih =>
    rw [List.mapIdx_cons, List.foldl_cons]
    exact ih (h.insertTask rfl hn) hn (fun i => now (i + 1))

theorem Valid.replayDeliveries {s : InMemoryStorage α} (h : s.Valid) (now : ℕ → Int)
    (name : String) (ids : List String) : (s.replayDeliveries now name ids).Valid := by
  unfold InMemoryStorage.replayDeliveries
  cases s.queues.lookup name with
  | none => exact h
  | some items =>
    exact (h.setQueue _ _).putTasks (Finmap.mem_insert.mpr (Or.inl rfl)) ..

theorem Valid.effect {s : InMemoryStorage α} (h : s.Valid) (now : ℕ → Int) (op : WalOp α) :
    (s.effect now op).Valid := by
  cases op with
  | createQueue name =>
    simp only [InMemoryStorage.effect]
    split
    · exact h
    · exact h.setQueue ..
  | enqueue queue data => exact h.pushBack ..
  | enqueueBatch queue data => exact h.pushBack ..
  | dequeued queue taskId => exact h.replayDeliveries ..
  | dequeuedBatch queue taskIds => exact h.replayDeliveries ..
  | ack taskId => exact h.dropTask taskId
  | ackBatch taskIds =>
    simp only [InMemoryStorage.effect]
    split
    · exact h.dropTasks taskIds
    · exact h
  | nack taskId =>
    simp only [InMemoryStorage.effect]
    cases s.inFlight.lookup taskId with
    | none => exact h
    | some task => exact (h.dropTask taskId).requeue task
  | extendVisibility taskId duration =>
    simp only [InMemoryStorage.effect]
    cases hl : s.inFlight.lookup taskId with
    | none => exact h
    | some task =>
      -- the task written back is the one that was there, under its own id
      have hid : task.id = taskId := h.id_eq hl
      have hq : task.queueName ∈ s.queues := h.queue_mem hl
      exact h.insertTask hid hq

theorem Valid.replayEntries {s : InMemoryStorage α} (h : s.Valid) (hwal : s.wal = none)
    (envs : ℕ → Env) (entries : List (WalEntry α)) : (s.replayEntries envs entries).Valid := by
  induction entries generalizing s envs with
  | nil => exact h
  | cons entry entries ih =>
    rw [InMemoryStorage.replayEntries, replayEntry_eq_effect hwal]
    exact ih (h.effect _ _) (by rw [effect_wal, hwal]) _

theorem valid_boot (persistent : Bool) (envs : ℕ → Env) (entries : List (WalEntry α)) :
    (boot persistent envs entries).Valid :=
  (valid_new.replayEntries rfl envs entries).of_tables rfl rfl

/-! ### The messages of a log -/

section Messages

variable (s : InMemoryStorage α)

theorem messages_insertTask_le (id : String) (task : InFlightTask α) :
    (s.insertTask id task).messages ≤ {task.data} + s.messages := by
  have hle : (s.insertTask id task).inFlightTasks ≤ {task.untimed} + s.inFlightTasks := by
    -- an insert over an entry loses the task that was there; this is why it is only `≤`
    by_cases h : id ∈ s.inFlight
    · obtain ⟨old, hold⟩ := Finmap.mem_iff.mp h
      exact (Multiset.le_add_left _ _).trans_eq (Table.total_insert_of_lookup taskShare hold task)
    · exact (inFlightTasks_insertTask h task).le
  calc (s.insertTask id task).messages
      ≤ s.pendingData + ({task.untimed} + s.inFlightTasks).map InFlightTask.data :=
        add_le_add_right (Multiset.map_le_map hle) _
    _ = {task.data} + s.messages := by
        rw [Multiset.map_add, Multiset.map_singleton, messages, add_left_comm]
        rfl

theorem messages_dropTask_add {id : String} {task : InFlightTask α}
    (h : s.inFlight.lookup id = some task) :
    {task.data} + (s.dropTask id).messages = s.messages := by
  unfold messages
  rw [← inFlightTasks_dropTask h, Multiset.map_add, Multiset.map_singleton, add_left_comm]
  rfl

theorem messages_dropTask_le (id : String) : (s.dropTask id).messages ≤ s.messages := by
  cases h : s.inFlight.lookup id with
  | none => rw [dropTask_of_lookup_none h]
  | some task => exact (Multiset.le_add_left _ _).trans_eq (s.messages_dropTask_add h)

theorem messages_dropTasks_le (ids : List String) :
    (ids.foldl dropTask s).messages ≤ s.messages := by
  induction ids generalizing s with
  | nil => exact le_rfl
  | cons id ids ih => exact (ih _).trans (s.messages_dropTask_le id)

theorem messages_putTasks_le (tasks : List (InFlightTask α)) :
    (tasks.foldl putTask s).messages ≤ (tasks.map InFlightTask.data : Multiset α) + s.messages := by
  induction tasks generalizing s with
  | nil => exact (zero_add _).ge
  | cons task tasks ih =>
    rw [List.foldl_cons, List.map_cons, ← Multiset.cons_coe, ← Multiset.singleton_add]
    refine (ih _).trans ?_
    rw [add_assoc, add_left_comm]
    exact add_le_add_right (s.messages_insertTask_le task.id task) _

theorem map_data_deliverAll (name : String) (now : ℕ → Int) (ids : List String)
    (items : List (QueueItem α)) :
    (deliverAll name now ids items).map InFlightTask.data
      = (items.take ids.length).map QueueItem.data := by
  unfold deliverAll
  induction ids generalizing items now with
  | nil => rfl
  | cons id ids ih =>
    cases items with
    | nil => rfl
    | cons item items =>
      rw [List.zip_cons_cons, List.mapIdx_cons, List.map_cons, List.length_cons,
        List.take_succ_cons, List.map_cons]
      exact congrArg _ (ih (fun i => now (i + 1)) items)

theorem messages_pushBack_le (name : String) (items : List α) :
    (s.orSelf (s.pushBack name items)).messages ≤ s.messages + items := by
  unfold InMemoryStorage.pushBack
  cases h : s.queues.lookup name with
  | none => exact Multiset.le_add_right _ _
  | some q =>
    have hpush := s.pendingData_pushBack name (items.map fun d => ⟨d, 0⟩)
    rw [items_of_lookup h, List.map_map] at hpush
    simp only [orSelf_ok, messages, hpush, inFlightTasks_setQueue, Function.comp_def,
      List.map_id']
    rw [add_right_comm]

theorem messages_requeue_le (task : InFlightTask α) :
    (s.orSelf (s.requeue task)).messages ≤ {task.data} + s.messages := by
  unfold InMemoryStorage.requeue
  split
  · have hpush := s.pendingData_pushBack (dlqName task.queueName) [task.item]
    simp only [InMemoryStorage.items] at hpush
    simp only [orSelf_ok, messages, hpush, inFlightTasks_setQueue]
    rw [List.map_singleton, InFlightTask.item_data, Multiset.coe_singleton,
      add_comm s.pendingData, add_assoc]
  · cases h : s.queues.lookup task.queueName with
    | none => exact Multiset.le_add_left _ _
    | some q =>
      have hpush := s.pendingData_pushFront task.queueName [task.item]
      rw [items_of_lookup h] at hpush
      simp only [orSelf_ok, messages, List.singleton_append] at hpush ⊢
      rw [hpush, List.map_singleton, InFlightTask.item_data, Multiset.coe_singleton,
        add_comm s.pendingData, add_assoc, inFlightTasks_setQueue]

theorem messages_replayDeliveries_le (now : ℕ → Int) (name : String) (ids : List String) :
    (s.replayDeliveries now name ids).messages ≤ s.messages := by
  unfold InMemoryStorage.replayDeliveries
  cases h : s.queues.lookup name with
  | none => exact le_rfl
  | some items =>
    -- what is popped is put in flight, so nothing is gained
    refine (messages_putTasks_le _ _).trans ?_
    have hpop := s.pendingData_pop name ids.length
    rw [items_of_lookup h] at hpop
    rw [map_data_deliverAll, messages, messages, ← add_assoc, inFlightTasks_setQueue,
      add_comm _ (s.setQueue _ _).pendingData, hpop]

theorem messages_effect_le (now : ℕ → Int) (op : WalOp α) :
    (s.effect now op).messages ≤ s.messages + op.payloads := by
  have hsame : s.messages ≤ s.messages + op.payloads := Multiset.le_add_right _ _
  cases op with
  | createQueue name =>
    simp only [InMemoryStorage.effect]
    split
    · exact hsame
    · next h =>
      refine hsame.trans' ?_
      rw [messages, s.pendingData_insertQueue h, inFlightTasks_setQueue, messages]
  | enqueue queue data => exact s.messages_pushBack_le ..
  | enqueueBatch queue data => exact s.messages_pushBack_le ..
  | dequeued queue taskId => exact hsame.trans' (s.messages_replayDeliveries_le ..)
  | dequeuedBatch queue taskIds => exact hsame.trans' (s.messages_replayDeliveries_le ..)
  | ack taskId => exact hsame.trans' (s.messages_dropTask_le _)
  | ackBatch taskIds =>
    simp only [InMemoryStorage.effect]
    split
    · exact hsame.trans' (s.messages_dropTasks_le _)
    · exact hsame
  | nack taskId =>
    simp only [InMemoryStorage.effect]
    cases h : s.inFlight.lookup taskId with
    | none => exact hsame
    | some task =>
      -- taken out of the table and put back into a queue, or lost with its queue
      refine hsame.trans' (((s.dropTask taskId).messages_requeue_le task).trans ?_)
      exact (s.messages_dropTask_add h).le
  | extendVisibility taskId duration =>
    simp only [InMemoryStorage.effect]
    cases h : s.inFlight.lookup taskId with
    | none => exact hsame
    | some task =>
      have htouch := inFlightTasks_touch h { task with consumedAt := now 1 } rfl
      refine hsame.trans' (le_of_eq ?_)
      exact congrArg (fun ts => s.pendingData + ts.map InFlightTask.data) htouch

end Messages

theorem messages_replayEntries_le {s : InMemoryStorage α} (hwal : s.wal = none)
    (envs : ℕ → Env) (entries : List (WalEntry α)) :
    (s.replayEntries envs entries).messages
      ≤ s.messages + (entries.flatMap fun e => e.op.payloads : List α) := by
  induction entries generalizing s envs with
  | nil => exact Multiset.le_add_right _ _
  | cons entry entries ih =>
    rw [InMemoryStorage.replayEntries, replayEntry_eq_effect hwal, List.flatMap_cons,
      ← Multiset.coe_add, ← add_assoc]
    refine (ih (by rw [effect_wal, hwal]) _).trans ?_
    exact add_le_add_left (s.messages_effect_le _ _) _

/-- A rebuilt store holds messages of its log only, and each of them once. -/
theorem messages_boot_le (persistent : Bool) (envs : ℕ → Env) (entries : List (WalEntry α)) :
    (boot persistent envs entries).messages
      ≤ (entries.flatMap fun e => e.op.payloads : List α) := by
  have h := messages_replayEntries_le (rfl : (new : InMemoryStorage α).wal = none) envs entries
  have hnew : (new : InMemoryStorage α).messages = 0 := rfl
  rw [hnew, zero_add] at h
  exact h

end InMemoryStorage

end Oxideq
