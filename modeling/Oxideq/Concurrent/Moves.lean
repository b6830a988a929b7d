import Oxideq.Concurrent.Calls

/-!
# Moves

What one step of a call can do, said once: `Pc.Move` lists the steps with the guards under which
they are taken, and `Pc.move_step` finds every step among them. The invariants of the interleaved
store are shown by cases on the moves.

Most of them only ask what a call has in hand (`Phase`): nothing, or its work, before or behind
the entry it writes to the log.
-/

namespace Oxideq

variable {α : Type}

/-! ### What a call has in hand -/

@[simp] theorem InFlightTask.untimed_data (task : InFlightTask α) :
    task.untimed.data = task.data := rfl

@[simp] theorem InFlightTask.item_data (task : InFlightTask α) : task.item.data = task.data := rfl

/-- A delivery at time zero stands for the delivery at any time. -/
@[simp] theorem InFlightTask.deliver_untimed (id queue : String) (now : Int)
    (item : QueueItem α) :
    (InFlightTask.deliver id queue now item).untimed = InFlightTask.deliver id queue 0 item := rfl

namespace Work

/-- The tasks the call is about to hand out. -/
def delivered : Work α → List (InFlightTask α)
  | .dequeue name item taskId => [InFlightTask.deliver taskId name 0 item]
  | .dequeueBatch name deliveries =>
    deliveries.map fun p => InFlightTask.deliver p.1 name 0 p.2
  | _ => []

/-- The task the call is about to return. -/
def returned : Work α → List (InFlightTask α)
  | .nack _ task => [task.untimed]
  | _ => []

/-- The tasks that are in no table while the call has this work in hand. -/
def tasks (w : Work α) : List (InFlightTask α) := w.delivered ++ w.returned

/-- The queue that has to exist for the work to be completed. -/
def target : Work α → Option String
  | .queue name _ => some name
  | .queueBatch name _ => some name
  | .dequeue name _ _ => some name
  | .dequeueBatch name _ => some name
  | .nack _ task => some task.queueName
  | _ => none

@[simp] theorem tasks_createQueue (name : String) : (createQueue name : Work α).tasks = [] := rfl

@[simp] theorem tasks_queue (name : String) (item : α) : (queue name item).tasks = [] := rfl

@[simp] theorem tasks_queueBatch (name : String) (items : List α) :
    (queueBatch name items).tasks = [] := rfl

@[simp] theorem tasks_dequeue (name taskId : String) (item : QueueItem α) :
    (dequeue name item taskId).tasks = [InFlightTask.deliver taskId name 0 item] := rfl

@[simp] theorem tasks_dequeueBatch (name : String) (deliveries : List (String × QueueItem α)) :
    (dequeueBatch name deliveries).tasks
      = deliveries.map fun p => InFlightTask.deliver p.1 name 0 p.2 :=
  List.append_nil _

@[simp] theorem tasks_ack (id : String) : (ack id : Work α).tasks = [] := rfl

@[simp] theorem tasks_nack (id : String) (task : InFlightTask α) :
    (nack id task).tasks = [task.untimed] := rfl

@[simp] theorem tasks_extendVisibility (id : String) (duration : UInt64) :
    (extendVisibility id duration : Work α).tasks = [] := rfl

@[simp] theorem tasks_ackBatch (ids : List String) : (ackBatch ids : Work α).tasks = [] := rfl

end Work

/-- The work of a call, and whether its entry is in the log. -/
inductive Phase (α : Type) where
  | idle
  | unlogged (w : Work α)
  | logged (w : Work α)

def Phase.tasks : Phase α → List (InFlightTask α)
  | .idle => []
  | .unlogged w => w.tasks
  | .logged w => w.tasks

@[simp] theorem Phase.tasks_idle : (idle : Phase α).tasks = [] := rfl

@[simp] theorem Phase.tasks_unlogged (w : Work α) : (unlogged w).tasks = w.tasks := rfl

@[simp] theorem Phase.tasks_logged (w : Work α) : (logged w).tasks = w.tasks := rfl

namespace Pc

/-- The loops over the in-flight table are the work that is left of them. -/
def phase : Pc α → Phase α
  | .waitWal w => .unlogged w
  | .appendWal w => .unlogged w
  | .restore w _ => .unlogged w
  | .apply w => .logged w
  | .insertTasks name todo _ => .logged (.dequeueBatch name todo)
  | .removeTasks todo => .logged (.ackBatch todo)
  | _ => .idle

@[simp] theorem phase_start (c : Call α) : (start c).phase = .idle := rfl

@[simp] theorem phase_verify (taskIds todo missing : List String) :
    (verify taskIds todo missing : Pc α).phase = .idle := rfl

@[simp] theorem phase_waitWal (w : Work α) : (waitWal w).phase = .unlogged w := rfl

@[simp] theorem phase_appendWal (w : Work α) : (appendWal w).phase = .unlogged w := rfl

@[simp] theorem phase_restore (w : Work α) (e : String) : (restore w e).phase = .unlogged w := rfl

@[simp] theorem phase_apply (w : Work α) : (apply w).phase = .logged w := rfl

@[simp] theorem phase_insertTasks (name : String) (todo : List (String × QueueItem α))
    (tasks : List (InFlightTask α)) :
    (insertTasks name todo tasks).phase = .logged (.dequeueBatch name todo) := rfl

@[simp] theorem phase_removeTasks (todo : List String) :
    (removeTasks todo : Pc α).phase = .logged (.ackBatch todo) := rfl

@[simp] theorem phase_scanned (taskIds : List String) :
    (scanned taskIds : Pc α).phase = .idle := rfl

@[simp] theorem phase_done (r : Outcome (Reply α)) : (done r).phase = .idle := rfl

@[simp] theorem phase_afterLog (w : Work α) : (afterLog w).phase = .logged w := by
  cases w <;> rfl

theorem phase_toLog (s : InMemoryStorage α) (w : Work α) :
    (toLog s w).phase = if s.wal.isSome then .unlogged w else .logged w := by
  unfold toLog
  split
  · rfl
  · exact phase_afterLog w

@[simp] theorem tasks_toLog (s : InMemoryStorage α) (w : Work α) :
    (toLog s w).phase.tasks = w.tasks := by
  rw [phase_toLog]
  split <;> rfl

/-- A failed append is followed by the undoing of a removal, or ends the call. -/
theorem failLog_cases (e : String) (w : Work α) :
    failLog e w = .restore w e ∨ (w.tasks = [] ∧ ∃ e', failLog e w = .done (.err e')) := by
  cases w with
  | dequeue name item taskId => exact Or.inl rfl
  | dequeueBatch name deliveries => exact Or.inl rfl
  | nack taskId task => exact Or.inl rfl
  | createQueue name => exact Or.inr ⟨rfl, _, rfl⟩
  | queue name item => exact Or.inr ⟨rfl, _, rfl⟩
  | queueBatch name items => exact Or.inr ⟨rfl, _, rfl⟩
  | ack taskId => exact Or.inr ⟨rfl, _, rfl⟩
  | extendVisibility taskId duration => exact Or.inr ⟨rfl, _, rfl⟩
  | ackBatch taskIds => exact Or.inr ⟨rfl, _, rfl⟩

/-! ### The steps of a call -/

/-- The steps of a call in the store `s`. -/
inductive Move (s : InMemoryStorage α) (env : Env) : Pc α → Access α → Pc α → Prop
  | reject {c : Call α} {r : Outcome (Reply α)} (hr : r ≠ .ok .done)
    (hack : ∀ id, c = .ack id → s.inFlight.lookup id = none) :
    Move s env (.start c) .look (.done r)
  | scan {t : UInt64} {taskIds : List String} :
    Move s env (.start (.cleanupExpiredTasks t)) .look (.scanned taskIds)
  | createQueue {name : String} (h : name ∉ s.queues) :
    Move s env (.start (.createQueue name)) .look (toLog s (.createQueue name))
  | queue {name : String} {item : α} (h : name ∈ s.queues) :
    Move s env (.start (.queue name item)) .look (toLog s (.queue name item))
  | queueBatch {name : String} {items : List α} (h : name ∈ s.queues) :
    Move s env (.start (.queueBatch name items)) .look (toLog s (.queueBatch name items))
  | dequeue {name : String} {item : QueueItem α} {rest : List (QueueItem α)}
    (h : s.queues.lookup name = some (item :: rest)) :
    Move s env (.start (.dequeue name)) (.pop name 1) (toLog s (.dequeue name item (env.uuid 0)))
  | dequeueBatch {name : String} {count : UInt64} {items : List (QueueItem α)}
    {deliveries : List (String × QueueItem α)} (h : s.queues.lookup name = some items)
    (hcap : capacityOverflow count = false)
    (hitems : deliveries.map Prod.snd = items.take count.toNat) (hne : deliveries ≠ []) :
    Move s env (.start (.dequeueBatch name count)) (.pop name count.toNat)
      (toLog s (.dequeueBatch name deliveries))
  | ack {id : String} {task : InFlightTask α} (h : s.inFlight.lookup id = some task) :
    Move s env (.start (.ack id)) (.dropTask id) (toLog s (.ack id))
  | nack {id : String} {task : InFlightTask α} (h : s.inFlight.lookup id = some task) :
    Move s env (.start (.nack id)) (.dropTask id) (toLog s (.nack id task))
  | extendVisibility {id : String} {duration : UInt64} {task : InFlightTask α}
    (h : s.inFlight.lookup id = some task) :
    Move s env (.start (.extendVisibility id duration)) .look
      (toLog s (.extendVisibility id duration))
  | ackBatch {taskIds : List String} :
    Move s env (.start (.ackBatch taskIds)) .look (.verify taskIds taskIds [])
  | verify {taskIds todo missing missing' : List String} {id : String} :
    Move s env (.verify taskIds (id :: todo) missing) .look (.verify taskIds todo missing')
  | verified {taskIds : List String} :
    Move s env (.verify taskIds [] []) .look (toLog s (.ackBatch taskIds))
  | unverified {taskIds missing : List String} {e : String} :
    Move s env (.verify taskIds [] missing) .look (.done (.err e))
  | acquire {w : Work α} : Move s env (.waitWal w) .look (.appendWal w)
  | append {w : Work α} (h : env.append = .ok ()) :
    Move s env (.appendWal w) (.log w.op) (afterLog w)
  | appendFails {w : Work α} {e : String} (h : env.append = .error e) :
    Move s env (.appendWal w) .look (failLog e w)
  | undoDequeue {name taskId e : String} {item : QueueItem α} :
    Move s env (.restore (.dequeue name item taskId) e) (.pushFront name [item]) (.done (.err e))
  | undoDequeueBatch {name e : String} {deliveries : List (String × QueueItem α)} :
    Move s env (.restore (.dequeueBatch name deliveries) e)
      (.pushFront name (deliveries.map Prod.snd)) (.done (.err e))
  | undoNack {id e : String} {task : InFlightTask α} :
    Move s env (.restore (.nack id task) e) (.insertTask id task) (.done (.err (walWriteFailed e)))
  | undoNothing {w : Work α} {e : String} (hw : w.tasks = []) :
    Move s env (.restore w e) .look (.done (.err e))
  | insertQueue {name : String} :
    Move s env (.apply (.createQueue name)) (.insertQueue name) (.done (.ok .done))
  | push {name : String} {item : α} (h : name ∈ s.queues) :
    Move s env (.apply (.queue name item)) (.pushBack name [⟨item, 0⟩]) (.done (.ok .done))
  | pushBatch {name : String} {items : List α} (h : name ∈ s.queues) :
    Move s env (.apply (.queueBatch name items)) (.pushBack name (items.map fun d => ⟨d, 0⟩))
      (.done (.ok .done))
  | insertTask {name taskId : String} {item : QueueItem α} {r : Reply α} :
    Move s env (.apply (.dequeue name item taskId))
      (.insertTask taskId (InFlightTask.deliver taskId name (env.now 0) item)) (.done (.ok r))
  | bury {id : String} {task : InFlightTask α} (h : task.exhausted = true) :
    Move s env (.apply (.nack id task)) (.pushBack (dlqName task.queueName) [task.item])
      (.done (.ok .done))
  | requeue {id : String} {task : InFlightTask α} (h : task.exhausted = false)
    (hq : task.queueName ∈ s.queues) :
    Move s env (.apply (.nack id task)) (.pushFront task.queueName [task.item])
      (.done (.ok .done))
  | lost {w : Work α} {name e : String} (hw : w.target = some name) (h : name ∉ s.queues) :
    Move s env (.apply w) .look (.done (.err e))
  | touch {id : String} {duration : UInt64} {task : InFlightTask α}
    (h : s.inFlight.lookup id = some task) :
    Move s env (.apply (.extendVisibility id duration))
      (.insertTask id { task with consumedAt := env.now 0 }) (.done (.ok .done))
  | untouched {id : String} {duration : UInt64} :
    Move s env (.apply (.extendVisibility id duration)) .look (.done (.ok .done))
  | acked {id : String} : Move s env (.apply (.ack id)) .look (.done (.ok .done))
  | beginInsert {name : String} {deliveries : List (String × QueueItem α)} :
    Move s env (.apply (.dequeueBatch name deliveries)) .look (.insertTasks name deliveries [])
  | beginRemove {taskIds : List String} :
    Move s env (.apply (.ackBatch taskIds)) .look (.removeTasks taskIds)
  | insertTasks {name taskId : String} {item : QueueItem α}
    {todo : List (String × QueueItem α)} {tasks tasks' : List (InFlightTask α)} :
    Move s env (.insertTasks name ((taskId, item) :: todo) tasks)
      (.insertTask taskId (InFlightTask.deliver taskId name (env.now 0) item))
      (.insertTasks name todo tasks')
  | insertedTasks {name : String} {tasks : List (InFlightTask α)} {r : Reply α} :
    Move s env (.insertTasks name [] tasks) .look (.done (.ok r))
  | removeTasks {id : String} {todo : List String} :
    Move s env (.removeTasks (id :: todo)) (.dropTask id) (.removeTasks todo)
  | removedTasks : Move s env (.removeTasks []) .look (.done (.ok .done))
  | scanned {taskIds : List String} : Move s env (.scanned taskIds) .look (.scanned taskIds)
  | done {r : Outcome (Reply α)} : Move s env (.done r) .look (.done r)

section Step

variable (s : InMemoryStorage α) (env : Env)

theorem move_begin (c : Call α) : Move s env (.start c) (begin s env c).1 (begin s env c).2 := by
  cases c with
  | createQueue name =>
    simp only [begin]
    split
    · exact .reject (by simp) (by simp)
    · next h => exact .createQueue h
  | queue name item =>
    simp only [begin]
    split
    · exact .reject (by simp) (by simp)
    · next h => exact .queue (not_not.mp h)
  | queueBatch name items =>
    simp only [begin]
    split
    · exact .reject (by simp) (by simp)
    · next h => exact .queueBatch (not_not.mp h)
  | dequeue name =>
    simp only [begin]
    split
    · exact .reject (by simp) (by simp)
    · exact .reject (by simp) (by simp)
    · next h => exact .dequeue h
  | dequeueBatch name count =>
    simp only [begin]
    split
    · exact .reject (by simp) (by simp)
    · next items h =>
      split
      · exact .reject (by simp) (by simp)
      split
      · exact .reject (by simp) (by simp)
      next hcap =>
      split
      · exact .reject (by simp) (by simp)
      · next hne =>
        rw [List.isEmpty_iff] at hne
        refine .dequeueBatch h (by simpa using hcap) (List.map_snd_zip ?_) ?_
        · rw [List.length_map, List.length_range]
        · rw [ne_eq, List.zip_eq_nil_iff, List.map_eq_nil_iff, List.range_eq_nil,
            List.length_eq_zero_iff, or_self]
          exact hne
  | ack taskId =>
    simp only [begin]
    split
    · next h => exact .reject (by simp) (by rintro _ ⟨⟩; exact h)
    · next h => exact .ack h
  | ackBatch taskIds => exact .ackBatch
  | nack taskId =>
    simp only [begin]
    split
    · exact .reject (by simp) (by simp)
    · next h => exact .nack h
  | extendVisibility taskId duration =>
    simp only [begin]
    split
    · exact .reject (by simp) (by simp)
    · next h => exact .extendVisibility h
  | cleanupExpiredTasks timeoutSeconds =>
    simp only [begin]
    split
    · exact .scan
    · exact .reject (by simp) (by simp)
    · exact .reject (by simp) (by simp)

theorem move_commit (w : Work α) :
    Move s env (.apply w) (commit s env w).1 (commit s env w).2 := by
  cases w with
  | createQueue name => exact .insertQueue
  | queue name item =>
    simp only [commit]
    split
    · next h => exact .push h
    · next h => exact .lost rfl h
  | queueBatch name items =>
    simp only [commit]
    split
    · next h => exact .pushBatch h
    · next h => exact .lost rfl h
  | dequeue name item taskId => exact .insertTask
  | dequeueBatch name deliveries => exact .beginInsert
  | ack taskId => exact .acked
  | nack taskId task =>
    simp only [commit]
    split
    · next h => exact .bury h
    split
    · next h hq => exact .requeue (by simpa using h) hq
    · next h => exact .lost rfl h
  | extendVisibility taskId duration =>
    simp only [commit]
    split
    · exact .untouched
    · next h => exact .touch h
  | ackBatch taskIds => exact .beginRemove

theorem move_undo (w : Work α) (e : String) :
    Move s env (.restore w e) (undo e w).1 (undo e w).2 := by
  cases w with
  | dequeue name item taskId => exact .undoDequeue
  | dequeueBatch name deliveries => exact .undoDequeueBatch
  | nack taskId task => exact .undoNack
  | createQueue name => exact .undoNothing rfl
  | queue name item => exact .undoNothing rfl
  | queueBatch name items => exact .undoNothing rfl
  | ack taskId => exact .undoNothing rfl
  | extendVisibility taskId duration => exact .undoNothing rfl
  | ackBatch taskIds => exact .undoNothing rfl

/-- **Every step is a move.** -/
theorem move_step (pc : Pc α) : Move s env pc (pc.step s env).1 (pc.step s env).2 := by
  cases pc with
  | start c => exact move_begin s env c
  | verify taskIds todo missing =>
    cases todo with
    | nil =>
      simp only [step]
      split
      · next h =>
        rw [List.isEmpty_iff] at h
        subst h
        exact .verified
      · exact .unverified
    | cons id todo => exact .verify
  | waitWal w => exact .acquire
  | appendWal w =>
    simp only [step]
    split
    · next h => exact .append h
    · next h => exact .appendFails h
  | restore w e => exact move_undo s env w e
  | apply w => exact move_commit s env w
  | insertTasks name todo tasks =>
    cases todo with
    | nil => exact .insertedTasks
    | cons p todo => exact .insertTasks
  | removeTasks todo =>
    cases todo with
    | nil => exact .removedTasks
    | cons id todo => exact .removeTasks
  | scanned taskIds => exact .scanned
  | done r => exact .done

end Step

end Pc

end Oxideq
