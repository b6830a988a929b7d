import Oxideq.Concurrent.Moves
import Oxideq.Lib.Table

/-!
# Where the messages are

The messages of a store as multisets, read off its tables, and what a move does to them: the
tasks in flight and in hand, and the payloads pending, change by what the move begins, returns,
acknowledges and pushes (`Pc.Move.flow`). A `create_queue` that writes its empty queue over an
existing one is the one move which this leaves out.
-/

namespace Oxideq

variable {α : Type}

namespace InMemoryStorage

/-! ### Totals -/

/-- What a task in flight counts for: itself, its clock reading aside. -/
def taskShare (_ : String) (task : InFlightTask α) : Multiset (InFlightTask α) := {task.untimed}

/-- What a queue counts for: its payloads. -/
def queueShare (_ : String) (items : List (QueueItem α)) : Multiset α := items.map QueueItem.data

/-- The tasks in flight, clock readings aside. -/
def inFlightTasks (s : InMemoryStorage α) : Multiset (InFlightTask α) :=
  Table.total taskShare s.inFlight

/-- The payloads pending in some queue. -/
def pendingData (s : InMemoryStorage α) : Multiset α := Table.total queueShare s.queues

theorem inFlightTasks_eq (s : InMemoryStorage α) :
    s.inFlightTasks = s.inFlight.entries.map fun e => e.2.untimed := by
  rw [← Multiset.sum_map_singleton (s.inFlight.entries.map fun e => e.2.untimed),
    Multiset.map_map]
  rfl

theorem mem_inFlightTasks {s : InMemoryStorage α} {id : String} {task : InFlightTask α}
    (h : s.inFlight.lookup id = some task) : task.untimed ∈ s.inFlightTasks :=
  (Table.mem_total _).mpr ⟨id, task, h, Multiset.mem_singleton_self _⟩

/-- The payloads pending or in flight. -/
def messages (s : InMemoryStorage α) : Multiset α :=
  s.pendingData + s.inFlightTasks.map InFlightTask.data

section Access

variable (s : InMemoryStorage α)

@[simp] theorem inFlightTasks_setQueue (name : String) (items : List (QueueItem α)) :
    (s.setQueue name items).inFlightTasks = s.inFlightTasks := rfl

@[simp] theorem inFlightTasks_logged (env : Env) (op : WalOp α) :
    (s.logged env op).inFlightTasks = s.inFlightTasks := rfl

@[simp] theorem pendingData_logged (env : Env) (op : WalOp α) :
    (s.logged env op).pendingData = s.pendingData := rfl

@[simp] theorem pendingData_insertTask (id : String) (task : InFlightTask α) :
    (s.insertTask id task).pendingData = s.pendingData := rfl

@[simp] theorem pendingData_dropTask (id : String) :
    (s.dropTask id).pendingData = s.pendingData := rfl

variable {s}

theorem inFlightTasks_insertTask {id : String} (h : id ∉ s.inFlight) (task : InFlightTask α) :
    (s.insertTask id task).inFlightTasks = {task.untimed} + s.inFlightTasks :=
  Table.total_insert_of_notMem _ h task

theorem inFlightTasks_dropTask {id : String} {task : InFlightTask α}
    (h : s.inFlight.lookup id = some task) :
    {task.untimed} + (s.dropTask id).inFlightTasks = s.inFlightTasks :=
  Table.total_erase taskShare h

/-- A new clock reading is not a change. -/
theorem inFlightTasks_touch {id : String} {task : InFlightTask α}
    (h : s.inFlight.lookup id = some task) (task' : InFlightTask α)
    (ht : task'.untimed = task.untimed) :
    (s.insertTask id task').inFlightTasks = s.inFlightTasks := by
  have hadd := Table.total_insert_of_lookup taskShare h task'
  simp only [taskShare, ht] at hadd
  exact add_left_cancel hadd

variable (s)

theorem pendingData_setQueue (name : String) (items : List (QueueItem α)) :
    ((s.items name).map QueueItem.data : Multiset α) + (s.setQueue name items).pendingData
      = (items.map QueueItem.data : Multiset α) + s.pendingData := by
  by_cases h : name ∈ s.queues
  · obtain ⟨old, hold⟩ := Finmap.mem_iff.mp h
    rw [items_of_lookup hold]
    exact Table.total_insert_of_lookup queueShare hold items
  · rw [items_of_notMem h, List.map_nil, Multiset.coe_nil, zero_add]
    exact Table.total_insert_of_notMem queueShare h items

theorem pendingData_pushBack (name : String) (new : List (QueueItem α)) :
    (s.setQueue name (s.items name ++ new)).pendingData
      = s.pendingData + (new.map QueueItem.data : Multiset α) := by
  have h := s.pendingData_setQueue name (s.items name ++ new)
  rw [List.map_append, ← Multiset.coe_add, add_assoc] at h
  rw [add_left_cancel h, add_comm]

theorem pendingData_pushFront (name : String) (new : List (QueueItem α)) :
    (s.setQueue name (new ++ s.items name)).pendingData
      = s.pendingData + (new.map QueueItem.data : Multiset α) := by
  have h := s.pendingData_setQueue name (new ++ s.items name)
  rw [List.map_append, ← Multiset.coe_add, add_assoc, add_left_comm] at h
  rw [add_left_cancel h, add_comm]

theorem pendingData_pop (name : String) (n : ℕ) :
    (s.setQueue name ((s.items name).drop n)).pendingData
      + (((s.items name).take n).map QueueItem.data : Multiset α) = s.pendingData := by
  have h := s.pendingData_setQueue name ((s.items name).drop n)
  have hsplit : ((s.items name).map QueueItem.data : Multiset α)
      = (((s.items name).drop n).map QueueItem.data : Multiset α)
        + (((s.items name).take n).map QueueItem.data : Multiset α) := by
    rw [Multiset.coe_add, ← List.map_append, Multiset.coe_eq_coe]
    exact ((List.perm_append_comm.trans (.of_eq (List.take_append_drop n _))).map _).symm
  rw [hsplit, add_assoc] at h
  rw [add_comm]
  exact add_left_cancel h

theorem pendingData_insertQueue {name : String} (h : name ∉ s.queues) :
    (s.setQueue name []).pendingData = s.pendingData := by
  have hadd := s.pendingData_setQueue name []
  rw [items_of_notMem h] at hadd
  exact add_left_cancel hadd

end Access

/-! ### Valid stores -/

/-- Tasks are filed under their own ids and come from existing queues. -/
structure Valid (s : InMemoryStorage α) : Prop where
  id_eq : ∀ {id task}, s.inFlight.lookup id = some task → task.id = id
  queue_mem : ∀ {id task}, s.inFlight.lookup id = some task → task.queueName ∈ s.queues

end InMemoryStorage

/-- The queue the work is about exists, and a task to be returned is held under its own id. -/
structure Work.Valid (s : InMemoryStorage α) (w : Work α) : Prop where
  target_mem : ∀ {name}, w.target = some name → name ∈ s.queues
  id_eq : ∀ {id task}, w = .nack id task → task.id = id

def Phase.Valid (s : InMemoryStorage α) : Phase α → Prop
  | .idle => True
  | .unlogged w => w.Valid s
  | .logged w => w.Valid s

/-- A queue is never removed. -/
theorem Access.mem_queues_run {s : InMemoryStorage α} {name : String} (h : name ∈ s.queues)
    (env : Env) (a : Access α) : name ∈ (a.run s env).queues := by
  cases a with
  | look => exact h
  | log op => exact h
  | insertQueue name' => exact Finmap.mem_insert.mpr (Or.inr h)
  | pushBack name' items => exact Finmap.mem_insert.mpr (Or.inr h)
  | pushFront name' items => exact Finmap.mem_insert.mpr (Or.inr h)
  | pop name' count => exact Finmap.mem_insert.mpr (Or.inr h)
  | insertTask taskId task => exact h
  | dropTask taskId => exact h

theorem Work.Valid.run {s : InMemoryStorage α} {w : Work α} (h : w.Valid s) (env : Env)
    (a : Access α) : w.Valid (a.run s env) :=
  ⟨fun hw => a.mem_queues_run (h.target_mem hw) env, h.id_eq⟩

theorem Phase.Valid.run {s : InMemoryStorage α} {p : Phase α} (h : p.Valid s) (env : Env)
    (a : Access α) : p.Valid (a.run s env) := by
  cases p with
  | idle => trivial
  | unlogged w => exact Work.Valid.run h env a
  | logged w => exact Work.Valid.run h env a

theorem Pc.valid_toLog {s : InMemoryStorage α} {w : Work α} (s' : InMemoryStorage α)
    (h : w.Valid s) : (toLog s' w).phase.Valid s := by
  rw [phase_toLog]
  split
  · exact h
  · exact h

namespace InMemoryStorage.Valid

variable {s : InMemoryStorage α}

theorem setQueue (h : s.Valid) (name : String) (items : List (QueueItem α)) :
    (s.setQueue name items).Valid :=
  ⟨h.id_eq, fun hl => Finmap.mem_insert.mpr (Or.inr (h.queue_mem hl))⟩

theorem insertTask (h : s.Valid) {id : String} {task : InFlightTask α} (hid : task.id = id)
    (hq : task.queueName ∈ s.queues) : (s.insertTask id task).Valid := by
  constructor
  · intro id' task' hl
    -- the entry just written, or an older one
    by_cases hk : id' = id
    · rw [hk, InMemoryStorage.insertTask, Finmap.lookup_insert, Option.some_inj] at hl
      rw [hk, ← hl, hid]
    · rw [InMemoryStorage.insertTask, Finmap.lookup_insert_of_ne _ hk] at hl
      exact h.id_eq hl
  · intro id' task' hl
    by_cases hk : id' = id
    · rw [hk, InMemoryStorage.insertTask, Finmap.lookup_insert, Option.some_inj] at hl
      rw [← hl]
      exact hq
    · rw [InMemoryStorage.insertTask, Finmap.lookup_insert_of_ne _ hk] at hl
      exact h.queue_mem hl

theorem dropTask (h : s.Valid) (id : String) : (s.dropTask id).Valid := by
  have hold : ∀ {id' task'}, (s.dropTask id).inFlight.lookup id' = some task' →
      s.inFlight.lookup id' = some task' := by
    intro id' task' hl
    by_cases hk : id' = id
    · rw [hk, InMemoryStorage.dropTask, Finmap.lookup_erase] at hl
      cases hl
    · rwa [InMemoryStorage.dropTask, Finmap.lookup_erase_ne hk] at hl
  exact ⟨fun hl => h.id_eq (hold hl), fun hl => h.queue_mem (hold hl)⟩

/-- The ids of the tasks are the keys of the table. -/
theorem mem_ids (h : s.Valid) {id : String} :
    id ∈ s.inFlightTasks.map InFlightTask.id ↔ id ∈ s.inFlight := by
  rw [Multiset.mem_map, Finmap.mem_iff]
  constructor
  · rintro ⟨t, ht, rfl⟩
    obtain ⟨k, task, hl, hmem⟩ := (Table.mem_total _).mp ht
    rw [taskShare, Multiset.mem_singleton] at hmem
    exact ⟨task, by rw [hmem, InFlightTask.untimed_id, h.id_eq hl, hl]⟩
  · rintro ⟨task, hl⟩
    have hid : task.id = id := h.id_eq hl
    exact ⟨task.untimed, mem_inFlightTasks hl, hid⟩

/-- No two tasks have the same id. -/
theorem nodup_ids (h : s.Valid) : (s.inFlightTasks.map InFlightTask.id).Nodup := by
  have hkeys : s.inFlightTasks.map InFlightTask.id = s.inFlight.entries.keys := by
    rw [inFlightTasks_eq, Multiset.map_map]
    refine Multiset.map_congr rfl fun e he => ?_
    have hid : e.2.id = e.1 := h.id_eq (Finmap.lookup_eq_some_iff.mpr he)
    exact hid
  rw [hkeys, Multiset.nodup_keys]
  exact s.inFlight.nodupKeys

end InMemoryStorage.Valid

namespace Pc

variable {s : InMemoryStorage α} {env : Env} {pc pc' : Pc α} {a : Access α}

/-- A move keeps the store valid, and what the call has in hand. -/
theorem Move.valid (hm : Move s env pc a pc') (hs : s.Valid) (hp : pc.phase.Valid s) :
    (a.run s env).Valid ∧ pc'.phase.Valid (a.run s env) := by
  have hqueue : ∀ {name items}, s.queues.lookup name = some items → name ∈ s.queues :=
    fun h => Finmap.mem_iff.mpr ⟨_, h⟩
  cases hm with
  | reject hr => exact ⟨hs, trivial⟩
  | scan => exact ⟨hs, trivial⟩
  | createQueue h => exact ⟨hs, valid_toLog s ⟨by simp [Work.target], by simp⟩⟩
  | queue h => exact ⟨hs, valid_toLog s ⟨by simp [Work.target, h], by simp⟩⟩
  | queueBatch h => exact ⟨hs, valid_toLog s ⟨by simp [Work.target, h], by simp⟩⟩
  | dequeue h =>
    refine ⟨hs.setQueue _ _, valid_toLog s (Work.Valid.run ?_ env (.pop _ _))⟩
    exact ⟨by simp [Work.target, hqueue h], by simp⟩
  | dequeueBatch h hcap hd hne =>
    refine ⟨hs.setQueue _ _, valid_toLog s (Work.Valid.run ?_ env (.pop _ _))⟩
    exact ⟨by simp [Work.target, hqueue h], by simp⟩
  | ack h => exact ⟨hs.dropTask _, valid_toLog s ⟨by simp [Work.target], by simp⟩⟩
  -- the queue of the task stays in the table while the task is in hand
  | nack h =>
    refine ⟨hs.dropTask _, valid_toLog s (Work.Valid.run ?_ env (.dropTask _))⟩
    refine ⟨by simp [Work.target, hs.queue_mem h], ?_⟩
    rintro id task ⟨⟩
    exact hs.id_eq h
  | extendVisibility h => exact ⟨hs, valid_toLog s ⟨by simp [Work.target], by simp⟩⟩
  | ackBatch => exact ⟨hs, trivial⟩
  | verify => exact ⟨hs, trivial⟩
  | verified => exact ⟨hs, valid_toLog s ⟨by simp [Work.target], by simp⟩⟩
  | unverified => exact ⟨hs, trivial⟩
  | acquire => exact ⟨hs, hp⟩
  | append h =>
    rw [phase_afterLog]
    exact ⟨⟨hs.id_eq, hs.queue_mem⟩, Work.Valid.run hp env (.log _)⟩
  | appendFails h =>
    refine ⟨hs, ?_⟩
    obtain hf | ⟨-, e', hf⟩ := failLog_cases _ _
    · rw [hf]
      exact hp
    · rw [hf]
      trivial
  | undoDequeue => exact ⟨hs.setQueue _ _, trivial⟩
  | undoDequeueBatch => exact ⟨hs.setQueue _ _, trivial⟩
  | undoNack => exact ⟨hs.insertTask (hp.id_eq rfl) (hp.target_mem rfl), trivial⟩
  | undoNothing hw => exact ⟨hs, trivial⟩
  | insertQueue => exact ⟨hs.setQueue _ _, trivial⟩
  | push h => exact ⟨hs.setQueue _ _, trivial⟩
  | pushBatch h => exact ⟨hs.setQueue _ _, trivial⟩
  | insertTask => exact ⟨hs.insertTask rfl (hp.target_mem rfl), trivial⟩
  | bury h => exact ⟨hs.setQueue _ _, trivial⟩
  | requeue h hq => exact ⟨hs.setQueue _ _, trivial⟩
  | lost hw h => exact ⟨hs, trivial⟩
  | @touch id duration task h =>
    have hid : task.id = id := hs.id_eq h
    have hq : task.queueName ∈ s.queues := hs.queue_mem h
    exact ⟨hs.insertTask hid hq, trivial⟩
  | untouched => exact ⟨hs, trivial⟩
  | acked => exact ⟨hs, trivial⟩
  | beginInsert => exact ⟨hs, hp⟩
  | beginRemove => exact ⟨hs, hp⟩
  | insertTasks =>
    refine ⟨hs.insertTask rfl (hp.target_mem rfl), ?_⟩
    exact ⟨fun hw => hp.target_mem hw, by simp⟩
  | insertedTasks => exact ⟨hs, trivial⟩
  -- what is left of the batch is still a batch
  | removeTasks =>
    exact ⟨hs.dropTask _, ⟨by simp [Work.target], by simp⟩⟩
  | removedTasks => exact ⟨hs, trivial⟩
  | scanned => exact ⟨hs, trivial⟩
  | done => exact ⟨hs, trivial⟩

/-! ### What a move does to the messages -/

/-- The tasks a step begins to hand out, under ids drawn for them. -/
def begun (pc pc' : Pc α) : List (InFlightTask α) :=
  match pc with
  | .start (.dequeue _) => pc'.phase.tasks
  | .start (.dequeueBatch _ _) => pc'.phase.tasks
  | _ => []

/-- The tasks a step of `ack` or `ack_batch` takes out of the table. -/
def acks (s : InMemoryStorage α) : Pc α → List (InFlightTask α)
  | .start (.ack taskId) => (s.inFlight.lookup taskId).toList.map InFlightTask.untimed
  | .removeTasks (taskId :: _) => (s.inFlight.lookup taskId).toList.map InFlightTask.untimed
  | _ => []

/-- The payloads a step of `queue` or `queue_batch` pushes. -/
def pushes (s : InMemoryStorage α) : Pc α → List α
  | .apply (.queue name item) => if name ∈ s.queues then [item] else []
  | .apply (.queueBatch name items) => if name ∈ s.queues then items else []
  | _ => []

/-- A batch in hand holds what was popped for it. -/
theorem map_data_tasks (name : String) (deliveries : List (String × QueueItem α)) :
    (Work.dequeueBatch name deliveries).tasks.map InFlightTask.data
      = (deliveries.map Prod.snd).map QueueItem.data := by
  simp [InFlightTask.deliver]

/-- A call that is rejected acknowledges nothing. -/
theorem acks_reject {c : Call α} (hack : ∀ id, c = .ack id → s.inFlight.lookup id = none) :
    acks s (.start c) = [] := by
  cases c with
  | ack id => simp [acks, hack id rfl]
  | _ => rfl

/-- What a removal takes out of the table is what it acknowledges, nothing for an id that is not
there. -/
theorem inFlightTasks_removeTasks (s : InMemoryStorage α) (id : String) (todo : List String) :
    (s.dropTask id).inFlightTasks + (acks s (.removeTasks (id :: todo)) : Multiset (InFlightTask α))
      = s.inFlightTasks := by
  cases hl : s.inFlight.lookup id with
  | none =>
    -- an id that occurs twice in the batch is gone at its second turn
    have hdrop := InMemoryStorage.dropTask_of_lookup_none hl
    simp [acks, hl, hdrop]
  | some task =>
    have hdrop := InMemoryStorage.inFlightTasks_dropTask hl
    simpa [acks, hl, add_comm] using hdrop

section InHand

variable {p : Phase α} (hs : s.Valid)
  (hids : ((s.inFlightTasks + p.tasks).map InFlightTask.id).Nodup)

include hs hids

/-- A task in hand is not in the table. -/
theorem notMem_of_inHand {task : InFlightTask α} (ht : task ∈ p.tasks) : task.id ∉ s.inFlight := by
  intro hmem
  rw [Multiset.map_add, Multiset.nodup_add] at hids
  exact Multiset.disjoint_left.mp hids.2.2 (hs.mem_ids.mpr hmem)
    (Multiset.mem_map_of_mem _ (Multiset.mem_coe.mpr ht))

/-- So putting it into the table overwrites nothing. -/
theorem inFlightTasks_of_inHand (id : String) (task : InFlightTask α) (hid : task.id = id)
    (ht : task.untimed ∈ p.tasks) :
    (s.insertTask id task).inFlightTasks = {task.untimed} + s.inFlightTasks := by
  refine InMemoryStorage.inFlightTasks_insertTask ?_ task
  rw [← hid, ← InFlightTask.untimed_id]
  exact notMem_of_inHand hs hids ht

end InHand

/-- The tasks in flight and in hand, and the payloads pending, after a move. `out` are the tasks
that became pending again. -/
theorem Move.flow (hm : Move s env pc a pc') (hs : s.Valid) (hp : pc.phase.Valid s)
    (hids : ((s.inFlightTasks + pc.phase.tasks).map InFlightTask.id).Nodup)
    (hnew : ∀ name, a = .insertQueue name → name ∉ s.queues) :
    ∃ out : Multiset (InFlightTask α),
      (a.run s env).inFlightTasks + pc'.phase.tasks + (out + acks s pc)
          = s.inFlightTasks + pc.phase.tasks + begun pc pc' ∧
        (a.run s env).pendingData + ((begun pc pc').map InFlightTask.data : Multiset α)
          = s.pendingData + out.map InFlightTask.data + pushes s pc := by
  cases hm with
  | @reject c r hr hack =>
    have hbegun : begun (.start c) (.done r : Pc α) = [] := by cases c <;> rfl
    rw [hbegun, acks_reject hack]
    exact ⟨0, rfl, by simp [pushes]⟩
  | scan => exact ⟨0, rfl, by simp [begun, pushes]⟩
  | createQueue h => exact ⟨0, by simp [begun, acks], by simp [begun, pushes]⟩
  | queue h => exact ⟨0, by simp [begun, acks], by simp [begun, pushes]⟩
  | queueBatch h => exact ⟨0, by simp [begun, acks], by simp [begun, pushes]⟩
  -- a delivery begins: its payload leaves the queue and is in hand
  | @dequeue name item rest h =>
    refine ⟨0, by simp [begun, acks, Access.run], ?_⟩
    have hpop := s.pendingData_pop name 1
    rw [InMemoryStorage.items_of_lookup h] at hpop
    simpa [begun, pushes, Access.run, InMemoryStorage.items_of_lookup h, InFlightTask.deliver]
      using hpop
  | @dequeueBatch name count items deliveries h hcap hd hne =>
    refine ⟨0, by simp [begun, acks, Access.run], ?_⟩
    have hpop := s.pendingData_pop name count.toNat
    rw [InMemoryStorage.items_of_lookup h, ← hd, ← map_data_tasks name] at hpop
    simpa [begun, pushes, Access.run, InMemoryStorage.items_of_lookup h] using hpop
  | @ack id task h =>
    refine ⟨0, ?_, by simp [begun, pushes, Access.run]⟩
    have hdrop := InMemoryStorage.inFlightTasks_dropTask h
    simpa [begun, acks, Access.run, h, add_comm] using hdrop
  | @nack id task h =>
    refine ⟨0, ?_, by simp [begun, pushes, Access.run]⟩
    have hdrop := InMemoryStorage.inFlightTasks_dropTask h
    simpa [begun, acks, Access.run, add_comm] using hdrop
  | extendVisibility h => exact ⟨0, by simp [begun, acks], by simp [begun, pushes]⟩
  | ackBatch => exact ⟨0, rfl, by simp [begun, pushes]⟩
  | verify => exact ⟨0, rfl, by simp [begun, pushes]⟩
  | verified => exact ⟨0, by simp [begun, acks], by simp [begun, pushes]⟩
  | unverified => exact ⟨0, rfl, by simp [begun, pushes]⟩
  | acquire => exact ⟨0, rfl, by simp [begun, pushes]⟩
  | append h => exact ⟨0, by simp [begun, acks, Access.run], by simp [begun, pushes, Access.run]⟩
  | @appendFails w e h =>
    refine ⟨0, ?_, by simp [begun, pushes]⟩
    obtain hf | ⟨hw, e', hf⟩ := failLog_cases e w
    · simp [hf, begun, acks]
    · simp [hf, hw, begun, acks]
  -- a failed append: what was in hand is pending again
  | @undoDequeue name taskId e item =>
    refine ⟨{InFlightTask.deliver taskId name 0 item}, by simp [begun, acks, Access.run], ?_⟩
    have hpush := s.pendingData_pushFront name [item]
    simpa [begun, pushes, Access.run, InFlightTask.deliver] using hpush
  | @undoDequeueBatch name e deliveries =>
    refine ⟨(Work.dequeueBatch name deliveries).tasks, by simp [begun, acks, Access.run], ?_⟩
    have hpush := s.pendingData_pushFront name (deliveries.map Prod.snd)
    rw [← map_data_tasks name] at hpush
    simpa [begun, pushes, Access.run] using hpush
  | @undoNack id e task =>
    have hput := inFlightTasks_of_inHand hs hids id task (hp.id_eq rfl) (by simp)
    exact ⟨0, by simp [begun, acks, Access.run, hput, add_comm],
      by simp [begun, pushes, Access.run]⟩
  | undoNothing hw => exact ⟨0, by simp [begun, acks, hw], by simp [begun, pushes]⟩
  -- here alone the hypothesis on new queues is used
  | @insertQueue name =>
    refine ⟨0, by simp [begun, acks, Access.run], ?_⟩
    simpa [begun, pushes, Access.run] using s.pendingData_insertQueue (hnew name rfl)
  | @push name item h =>
    refine ⟨0, by simp [begun, acks, Access.run], ?_⟩
    simpa [begun, pushes, Access.run, h] using s.pendingData_pushBack name [⟨item, 0⟩]
  | @pushBatch name items h =>
    refine ⟨0, by simp [begun, acks, Access.run], ?_⟩
    have hpush := s.pendingData_pushBack name (items.map fun d => ⟨d, 0⟩)
    simpa [begun, pushes, Access.run, h, Function.comp_def] using hpush
  | @insertTask name taskId item r =>
    have hput := inFlightTasks_of_inHand hs hids taskId
      (InFlightTask.deliver taskId name (env.now 0) item) rfl (List.mem_singleton_self _)
    exact ⟨0, by simp [begun, acks, Access.run, hput, add_comm],
      by simp [begun, pushes, Access.run]⟩
  -- a task given up is in hand no longer and its payload pending, wherever it is put
  | @bury id task h =>
    refine ⟨{task.untimed}, by simp [begun, acks, Access.run], ?_⟩
    have hpush := s.pendingData_pushBack (dlqName task.queueName) [task.item]
    simpa [begun, pushes, Access.run] using hpush
  | @requeue id task h hq =>
    refine ⟨{task.untimed}, by simp [begun, acks, Access.run], ?_⟩
    have hpush := s.pendingData_pushFront task.queueName [task.item]
    simpa [begun, pushes, Access.run] using hpush
  | lost hw h => exact absurd (hp.target_mem hw) h
  -- a new clock reading only
  | @touch id duration task h =>
    have htouch := InMemoryStorage.inFlightTasks_touch h { task with consumedAt := env.now 0 } rfl
    exact ⟨0, by simpa [begun, acks, Access.run] using htouch,
      by simp [begun, pushes, Access.run]⟩
  | untouched => exact ⟨0, rfl, by simp [begun, pushes]⟩
  | acked => exact ⟨0, rfl, by simp [begun, pushes]⟩
  | beginInsert => exact ⟨0, rfl, by simp [begun, pushes]⟩
  | beginRemove => exact ⟨0, rfl, by simp [begun, pushes]⟩
  | @insertTasks name taskId item todo tasks tasks' =>
    have hput := inFlightTasks_of_inHand hs hids taskId
      (InFlightTask.deliver taskId name (env.now 0) item) rfl List.mem_cons_self
    refine ⟨0, ?_, by simp [begun, pushes, Access.run]⟩
    simp [begun, acks, Access.run, hput, ← Multiset.cons_coe]
  | insertedTasks => exact ⟨0, rfl, by simp [begun, pushes]⟩
  | @removeTasks id todo =>
    refine ⟨0, ?_, by simp [begun, pushes, Access.run]⟩
    simpa [begun, Access.run] using inFlightTasks_removeTasks s id todo
  | removedTasks => exact ⟨0, rfl, by simp [begun, pushes]⟩
  | scanned => exact ⟨0, rfl, by simp [begun, pushes]⟩
  | done => exact ⟨0, rfl, by simp [begun, pushes]⟩

end Pc

end Oxideq
