import Oxideq.Lib.System
import Oxideq.Storage.Call
import Oxideq.Storage.Replay

/-!
# Interleaved calls

The methods of `InMemoryStorage` cut at every access to a table and at every append to the log.
A call is a program counter; one step of it makes at most one access (`Access`) and moves the
counter on. The loops leave in a step of their own. What a call carries in local variables is part
of its counter, and so are the locks it holds:

* a `get_mut` guard that is kept over an await blocks every other access to its entry;
* the mutex of the log is held from the end of `lock().await` to the end of the append, and in the
  error branches of `dequeue`, `dequeue_batch` and `nack` also while these undo their removal.

A store without a log skips the appends. `cleanup_expired_tasks` is a scan followed by one `nack`
after the other in the same thread.
-/

namespace Oxideq

variable {α : Type}

/-! ### Accesses -/

/-- One access to the store. A push to a queue that does not exist creates it, which only the
dead-letter move makes use of. -/
inductive Access (α : Type) where
  | look
  | log (op : WalOp α)
  | insertQueue (name : String)
  | pushBack (name : String) (items : List (QueueItem α))
  | pushFront (name : String) (items : List (QueueItem α))
  | pop (name : String) (count : ℕ)
  | insertTask (taskId : String) (task : InFlightTask α)
  | dropTask (taskId : String)

/-- `in_flight.insert(task_id, task)`. -/
def InMemoryStorage.insertTask (s : InMemoryStorage α) (taskId : String) (task : InFlightTask α) :
    InMemoryStorage α :=
  { s with inFlight := s.inFlight.insert taskId task }

/-- The store after an access. -/
def Access.run (s : InMemoryStorage α) (env : Env) : Access α → InMemoryStorage α
  | .look => s
  | .log op => s.logged env op
  | .insertQueue name => s.setQueue name []
  | .pushBack name items => s.setQueue name (s.items name ++ items)
  | .pushFront name items => s.setQueue name (items ++ s.items name)
  | .pop name count => s.setQueue name ((s.items name).drop count)
  | .insertTask taskId task => s.insertTask taskId task
  | .dropTask taskId => s.dropTask taskId

@[simp] theorem Access.run_look (s : InMemoryStorage α) (env : Env) :
    (Access.look : Access α).run s env = s := rfl

/-! ### Program counters -/

/-- A call between its first access and its last one, with its local variables. `dequeue_batch`
holds its popped items paired with the ids drawn for them, in order. -/
inductive Work (α : Type) where
  | createQueue (name : String)
  | queue (name : String) (item : α)
  | queueBatch (name : String) (items : List α)
  | dequeue (name : String) (item : QueueItem α) (taskId : String)
  | dequeueBatch (name : String) (deliveries : List (String × QueueItem α))
  | ack (taskId : String)
  | nack (taskId : String) (task : InFlightTask α)
  | extendVisibility (taskId : String) (duration : UInt64)
  | ackBatch (taskIds : List String)

/-- The operation the call logs. -/
def Work.op : Work α → WalOp α
  | .createQueue name => .createQueue name
  | .queue name item => .enqueue name item
  | .queueBatch name items => .enqueueBatch name items
  | .dequeue name _ taskId => .dequeued name taskId
  | .dequeueBatch name deliveries => .dequeuedBatch name (deliveries.map Prod.fst)
  | .ack taskId => .ack taskId
  | .nack taskId _ => .nack taskId
  | .extendVisibility taskId duration => .extendVisibility taskId duration
  | .ackBatch taskIds => .ackBatch taskIds

/-- Where a call stands.

* `verify`: `ack_batch` still has to look for `todo`; `missing` were not found.
* `waitWal`, `appendWal`: the two awaits of the append, before and after the mutex is acquired.
* `restore`: the error branch that undoes a removal, with the mutex still held.
* `apply`: the access that follows the append.
* `insertTasks`, `removeTasks`: the loops of `dequeue_batch` and `ack_batch` over the in-flight
  table.
* `scanned`: the ids `cleanup_expired_tasks` has found; no thread rests here. -/
inductive Pc (α : Type) where
  | start (c : Call α)
  | verify (taskIds todo missing : List String)
  | waitWal (w : Work α)
  | appendWal (w : Work α)
  | restore (w : Work α) (e : String)
  | apply (w : Work α)
  | insertTasks (name : String) (todo : List (String × QueueItem α))
    (tasks : List (InFlightTask α))
  | removeTasks (todo : List String)
  | scanned (taskIds : List String)
  | done (r : Outcome (Reply α))

namespace Pc

/-- Behind a successful append, or where there is no log. -/
def afterLog : Work α → Pc α
  | .dequeueBatch name deliveries => .insertTasks name deliveries []
  | .ackBatch taskIds => .removeTasks taskIds
  | w => .apply w

/-- Behind a failed append. -/
def failLog (e : String) : Work α → Pc α
  | .ack _ => .done (.err (walWriteFailed e))
  | .dequeue name item taskId => .restore (.dequeue name item taskId) e
  | .dequeueBatch name deliveries => .restore (.dequeueBatch name deliveries) e
  | .nack taskId task => .restore (.nack taskId task) e
  | _ => .done (.err e)

/-- Behind the first access: on to the log, if there is one. -/
def toLog (s : InMemoryStorage α) (w : Work α) : Pc α :=
  if s.wal.isSome then .waitWal w else afterLog w

/-- The first step of a call. -/
def begin (s : InMemoryStorage α) (env : Env) : Call α → Access α × Pc α
  | .createQueue name =>
    if name ∈ s.queues then (.look, .done (.err (queueExists name)))
    else (.look, toLog s (.createQueue name))
  | .queue name item =>
    if name ∉ s.queues then (.look, .done (.err (queueNotFound name)))
    else (.look, toLog s (.queue name item))
  | .queueBatch name items =>
    if name ∉ s.queues then (.look, .done (.err (queueNotFound name)))
    else (.look, toLog s (.queueBatch name items))
  | .dequeue name =>
    match s.queues.lookup name with
    | none => (.look, .done (.err (queueNotFound name)))
    | some [] => (.look, .done (.ok (.delivered none)))
    -- the id is drawn with the pop: nothing the call reads comes in between
    | some (item :: _) => (.pop name 1, toLog s (.dequeue name item (env.uuid 0)))
  | .dequeueBatch name count =>
    match s.queues.lookup name with
    | none => (.look, .done (.err (queueNotFound name)))
    | some items =>
      if items.isEmpty then (.look, .done (.ok (.deliveredBatch [])))
      else if capacityOverflow count then (.look, .done .panic)
      else
        let poppedItems := items.take count.toNat
        if poppedItems.isEmpty then (.look, .done (.ok (.deliveredBatch [])))
        else
          let taskIds := (List.range poppedItems.length).map env.uuid
          -- emptiness test, allocation and pops are one access, under one guard
          (.pop name count.toNat, toLog s (.dequeueBatch name (taskIds.zip poppedItems)))
  | .ack taskId =>
    match s.inFlight.lookup taskId with
    | none => (.look, .done (.err taskNotFound))
    | some _ => (.dropTask taskId, toLog s (.ack taskId))
  | .nack taskId =>
    match s.inFlight.lookup taskId with
    | none => (.look, .done (.err taskNotFound))
    | some task => (.dropTask taskId, toLog s (.nack taskId task))
  | .extendVisibility taskId duration =>
    match s.inFlight.lookup taskId with
    | none => (.look, .done (.err taskNotFound))
    | some _ => (.look, toLog s (.extendVisibility taskId duration))
  -- the verification reads the table once for each id, and others may come in between
  | .ackBatch taskIds => (.look, .verify taskIds taskIds [])
  | .cleanupExpiredTasks timeoutSeconds =>
    match s.scanExpiredTasks env timeoutSeconds with
    | .ok taskIds => (.look, .scanned taskIds)
    | .err e => (.look, .done (.err e))
    | .panic => (.look, .done .panic)

/-- The step after the append. -/
def commit (s : InMemoryStorage α) (env : Env) : Work α → Access α × Pc α
  | .createQueue name => (.insertQueue name, .done (.ok .done))
  | .queue name item =>
    -- the second look-up of the queue: the first one was before the append
    if name ∈ s.queues then (.pushBack name [⟨item, 0⟩], .done (.ok .done))
    else (.look, .done (.err (queueNotFound name)))
  | .queueBatch name items =>
    if name ∈ s.queues then (.pushBack name (items.map fun d => ⟨d, 0⟩), .done (.ok .done))
    else (.look, .done (.err (queueNotFound name)))
  | .dequeue name item taskId =>
    let task := InFlightTask.deliver taskId name (env.now 0) item
    (.insertTask taskId task, .done (.ok (.delivered (some task))))
  | .nack _ task =>
    if task.exhausted then
      (.pushBack (dlqName task.queueName) [task.item], .done (.ok .done))
    -- only the dead-letter queue is created when it is missing
    else if task.queueName ∈ s.queues then
      (.pushFront task.queueName [task.item], .done (.ok .done))
    else (.look, .done (.err (originalQueueNotFound task.queueName)))
  | .extendVisibility taskId _ =>
    match s.inFlight.lookup taskId with
    | none => (.look, .done (.ok .done))
    | some task =>
      (.insertTask taskId { task with consumedAt := env.now 0 }, .done (.ok .done))
  | .ack _ => (.look, .done (.ok .done))
  | w => (.look, afterLog w)

/-- The step that undoes a removal after a failed append. -/
def undo (e : String) : Work α → Access α × Pc α
  | .dequeue name item _ => (.pushFront name [item], .done (.err e))
  | .dequeueBatch name deliveries =>
    (.pushFront name (deliveries.map Prod.snd), .done (.err e))
  | .nack taskId task => (.insertTask taskId task, .done (.err (walWriteFailed e)))
  | _ => (.look, .done (.err e))

/-- One step of a call: its access, and where it stands then. -/
def step (s : InMemoryStorage α) (env : Env) : Pc α → Access α × Pc α
  | .start c => begin s env c
  | .verify taskIds (id :: todo) missing =>
    (.look, .verify taskIds todo (if id ∈ s.inFlight then missing else missing ++ [id]))
  | .verify taskIds [] missing =>
    if missing.isEmpty then (.look, toLog s (.ackBatch taskIds))
    else (.look, .done (.err (tasksNotFound missing)))
  | .waitWal w => (.look, .appendWal w)
  | .appendWal w =>
    match env.append with
    | .ok () => (.log w.op, afterLog w)
    -- a failed append has written nothing
    | .error e => (.look, failLog e w)
  | .restore w e => undo e w
  | .apply w => commit s env w
  | .insertTasks name ((taskId, item) :: todo) tasks =>
    -- `consumed_at` is read for each task of the batch as it is inserted
    let task := InFlightTask.deliver taskId name (env.now 0) item
    (.insertTask taskId task, .insertTasks name todo (tasks ++ [task]))
  | .insertTasks _ [] tasks => (.look, .done (.ok (.deliveredBatch tasks)))
  | .removeTasks (id :: todo) => (.dropTask id, .removeTasks todo)
  | .removeTasks [] => (.look, .done (.ok .done))
  | .scanned taskIds => (.look, .scanned taskIds)
  | .done r => (.look, .done r)

end Pc

/-! ### Locks -/

/-- The queue whose entry the work keeps locked. -/
def Work.queueGuard : Work α → Option String
  | .dequeue name _ _ => some name
  | .dequeueBatch name _ => some name
  | _ => none

/-- The task whose entry the work keeps locked. -/
def Work.taskGuard : Work α → Option String
  | .extendVisibility taskId _ => some taskId
  | _ => none

namespace Pc

def queueGuard : Pc α → Option String
  | .waitWal w => w.queueGuard
  | .appendWal w => w.queueGuard
  | .restore w _ => w.queueGuard
  | .apply w => w.queueGuard
  | .insertTasks name _ _ => some name
  | _ => none

def taskGuard : Pc α → Option String
  | .waitWal w => w.taskGuard
  | .appendWal w => w.taskGuard
  | .apply w => w.taskGuard
  | _ => none

/-- The call holds the mutex of the log. -/
def holdsWal : Pc α → Bool
  | .appendWal _ => true
  | .restore _ _ => true
  | _ => false

/-- The queue the next step reaches for, when it does not hold the entry already. -/
def queueAccess : Pc α → Option String
  | .start (.createQueue name) => some name
  | .start (.queue name _) => some name
  | .start (.queueBatch name _) => some name
  | .start (.dequeue name) => some name
  | .start (.dequeueBatch name _) => some name
  | .apply (.createQueue name) => some name
  | .apply (.queue name _) => some name
  | .apply (.queueBatch name _) => some name
  | .apply (.nack _ task) =>
    -- the queue `nack` locks is decided by the counter of the task it holds
    some (if task.exhausted then dlqName task.queueName else task.queueName)
  | _ => none

/-- The task the next step reaches for. -/
def taskAccess : Pc α → Option String
  | .start (.ack taskId) => some taskId
  | .start (.nack taskId) => some taskId
  | .start (.extendVisibility taskId _) => some taskId
  | .verify _ (id :: _) _ => some id
  | .restore (.nack taskId _) _ => some taskId
  | .apply (.dequeue _ _ taskId) => some taskId
  | .insertTasks _ ((taskId, _) :: _) _ => some taskId
  | .removeTasks (id :: _) => some id
  | _ => none

/-- The next step is the scan, which visits every task. -/
def scans : Pc α → Bool
  | .start (.cleanupExpiredTasks _) => true
  | _ => false

/-- The next step acquires the mutex of the log. -/
def acquires : Pc α → Bool
  | .waitWal _ => true
  | _ => false

def finished : Pc α → Bool
  | .done _ => true
  | _ => false

/-- What the call has returned. -/
def outcome : Pc α → Option (Outcome (Reply α))
  | .done r => some r
  | _ => none

theorem outcome_eq_some {pc : Pc α} {r : Outcome (Reply α)} :
    pc.outcome = some r ↔ pc = .done r := by
  cases pc <;> simp [outcome]

/-- The call returned `Ok(())`. -/
def returned : Pc α → Bool
  | .done (.ok .done) => true
  | _ => false

theorem returned_iff {pc : Pc α} : pc.returned = true ↔ pc = .done (.ok .done) := by
  constructor
  · intro h
    unfold returned at h
    split at h
    · rfl
    · cases h
  · rintro rfl
    rfl

/-- The next step waits for a lock that `other` holds. -/
def BlockedBy (pc other : Pc α) : Prop :=
  (∃ name ∈ pc.queueAccess, name ∈ other.queueGuard) ∨
    (∃ taskId ∈ pc.taskAccess, taskId ∈ other.taskGuard) ∨
    (pc.scans ∧ other.taskGuard.isSome) ∨ (pc.acquires ∧ other.holdsWal)

instance (pc other : Pc α) : Decidable (pc.BlockedBy other) :=
  inferInstanceAs (Decidable (_ ∨ _ ∨ _ ∨ _))

end Pc

/-! ### Threads -/

/-- A thread: where its call stands and, inside the loop of `cleanup_expired_tasks`, the ids that
are left and the number of tasks returned so far. -/
structure Thread (α : Type) where
  pc : Pc α
  loop : Option (List String × ℕ)

namespace Thread

/-- A thread about to make a call. -/
def call (c : Call α) : Thread α := ⟨.start c, none⟩

/-- The head of the loop of `cleanup_expired_tasks`. -/
def next (count : ℕ) : List String → Thread α
  | [] => ⟨.done (.ok (.cleaned count)), none⟩
  | id :: ids => ⟨.start (.nack id), some (ids, count)⟩

/-- Where the thread goes on from `pc`: the end of a `nack` inside the loop starts the next one,
and only an `Ok` is counted. -/
def resume (loop : Option (List String × ℕ)) (pc : Pc α) : Thread α :=
  match pc, loop with
  | .scanned taskIds, _ => next 0 taskIds
  | .done (.ok _), some (ids, count) => next (count + 1) ids
  | .done (.err _), some (ids, count) => next count ids
  | pc, loop => ⟨pc, loop⟩

end Thread

/-! ### Configurations -/

/-- The store and the threads that share it. -/
structure Config (ι α : Type) where
  store : InMemoryStorage α
  threads : ι → Thread α

namespace Config

variable {ι : Type}

def pc (σ : Config ι α) (i : ι) : Pc α := (σ.threads i).pc

def Returned (σ : Config ι α) (i : ι) : Prop := σ.pc i = .done (.ok .done)

instance (σ : Config ι α) (i : ι) : Decidable (σ.Returned i) := decidable_of_iff _ Pc.returned_iff

/-- Thread `i` can take its next step: it has one, and no other thread holds a lock it waits
for. -/
def Enabled (σ : Config ι α) (i : ι) : Prop :=
  (σ.pc i).finished = false ∧ ∀ j, j ≠ i → ¬ (σ.pc i).BlockedBy (σ.pc j)

instance [Fintype ι] [DecidableEq ι] (σ : Config ι α) (i : ι) : Decidable (σ.Enabled i) :=
  inferInstanceAs (Decidable (_ ∧ _))

/-- The configuration after a step of thread `i`. -/
def stepAt [DecidableEq ι] (σ : Config ι α) (i : ι) (env : Env) : Config ι α :=
  let r := (σ.pc i).step σ.store env
  ⟨r.1.run σ.store env,
    Function.update σ.threads i (Thread.resume (σ.threads i).loop r.2)⟩

/-- **The interleaved store.** A label is the thread that takes a step and what it receives from
outside on it. -/
def machine (ι α : Type) [Fintype ι] [DecidableEq ι] : System (Config ι α) (ι × Env) where
  step σ l := if σ.Enabled l.1 then some (σ.stepAt l.1 l.2) else none

/-- Every thread is about to make its call. -/
def start (s : InMemoryStorage α) (calls : ι → Call α) : Config ι α :=
  ⟨s, fun i => Thread.call (calls i)⟩

end Config

end Oxideq
