import Oxideq.Storage.Types

/-!
# The in-memory store

`InMemoryStorage` of `storage/memory.rs`, one definition for each of its methods, as a
sequential caller sees them: a method takes the store and its environment and returns an outcome
together with the next store. The interleaved reading of the same methods, cut at every table
access and every await, is `Oxideq.Concurrent.Calls`; a call that runs there without interruption
computes the function given here.

The write-ahead log appears as the list of entries written through the open handle. An append
either succeeds and writes its line or fails and writes nothing, as `Env.append` says.
-/

namespace Oxideq

variable {α : Type}

/-! ### The log handle -/

/-- An open log file, by the entries appended through it. -/
structure WalManager (α : Type) where
  written : List (WalEntry α)
  deriving DecidableEq, Repr

namespace WalManager

/-- The handle just opened by `WalManager::new`, in append mode. -/
def new : WalManager α := ⟨[]⟩

/-- `WalManager::append`, with the result of the file write given by `io`. -/
def append (m : WalManager α) (io : Except String Unit) (entry : WalEntry α) :
    Except String (WalManager α) :=
  match io with
  | .ok () => .ok ⟨m.written ++ [entry]⟩
  | .error e => .error e

end WalManager

/-! ### The store -/

structure InMemoryStorage (α : Type) where
  queues : DashMap (List (QueueItem α))
  inFlight : DashMap (InFlightTask α)
  wal : Option (WalManager α)
  deriving DecidableEq

/-- `Utc::now().timestamp_millis()` of a clock reading. -/
def timestampMillis (now : Int) : Int64 := Int64.ofInt (now / 1000000)

/-! The error texts of the store. -/

def queueExists (name : String) : String := "Queue '" ++ name ++ "' already exists"

def queueNotFound (name : String) : String := "Queue '" ++ name ++ "' not found"

def originalQueueNotFound (name : String) : String := "Original queue '" ++ name ++ "' not found"

def taskNotFound : String := "Task not found"

def tasksNotFound (ids : List String) : String := "Tasks not found: " ++ ", ".intercalate ids

def walWriteFailed (e : String) : String := "WAL write failed: " ++ e

/-- `size_of::<QueueItem>()` on a 64-bit target: a `Vec` of three words and a padded `u32`. -/
def queueItemSize : ℕ := 32

/-- `Vec::with_capacity(count)` panics when the allocation would exceed `isize::MAX` bytes. -/
def capacityOverflow (count : UInt64) : Bool := 2 ^ 63 - 1 < count.toNat * queueItemSize

/-- The task handed out for `item`, taken from `queue` at time `now` under `id`. -/
def InFlightTask.deliver (id queue : String) (now : Int) (item : QueueItem α) :
    InFlightTask α where
  id := id
  data := item.data
  consumedAt := now
  queueName := queue
  deliveryAttempts := item.deliveryAttempts + 1

/-- The pending item a returned task becomes. -/
def InFlightTask.item (task : InFlightTask α) : QueueItem α := ⟨task.data, task.deliveryAttempts⟩

/-- `nack` moves a task to the dead-letter queue from its fifth delivery on. -/
def InFlightTask.exhausted (task : InFlightTask α) : Bool := 5 ≤ task.deliveryAttempts

def dlqName (queue : String) : String := queue ++ "_dlq"

namespace InMemoryStorage

/-- `InMemoryStorage::new`: an empty store without a log. -/
def new : InMemoryStorage α := ⟨∅, ∅, none⟩

/-- The append guarded by `if let Some(wal) = &self.wal`. -/
def logOp (s : InMemoryStorage α) (env : Env) (op : WalOp α) :
    Except String (InMemoryStorage α) :=
  match s.wal with
  | none => .ok s
  | some wal =>
    match wal.append env.append ⟨op, timestampMillis (env.now 0)⟩ with
    | .ok wal' => .ok { s with wal := some wal' }
    | .error e => .error e

/-- Replace the items of queue `name`. -/
def setQueue (s : InMemoryStorage α) (name : String) (items : List (QueueItem α)) :
    InMemoryStorage α :=
  { s with queues := s.queues.insert name items }

/-- `in_flight.insert(task.id.clone(), task)`. -/
def putTask (s : InMemoryStorage α) (task : InFlightTask α) : InMemoryStorage α :=
  { s with inFlight := s.inFlight.insert task.id task }

/-- `in_flight.remove(task_id)`, without its return value. -/
def dropTask (s : InMemoryStorage α) (taskId : String) : InMemoryStorage α :=
  { s with inFlight := s.inFlight.erase taskId }

/-! ### Queues -/

def createQueue (s : InMemoryStorage α) (env : Env) (name : String) :
    Outcome Unit × InMemoryStorage α :=
  if name ∈ s.queues then (.err (queueExists name), s)
  else
    match s.logOp env (.createQueue name) with
    | .error e => (.err e, s)
    | .ok s => (.ok (), s.setQueue name [])

/-- The push of `queue` and `queue_batch` behind the items already there. -/
def pushBack (s : InMemoryStorage α) (name : String) (items : List α) :
    Except String (InMemoryStorage α) :=
  match s.queues.lookup name with
  | none => .error (queueNotFound name)
  | some q => .ok (s.setQueue name (q ++ items.map fun d => ⟨d, 0⟩))

def queue (s : InMemoryStorage α) (env : Env) (name : String) (item : α) :
    Outcome Unit × InMemoryStorage α :=
  -- `contains_key` runs before the append, `get_mut` after it; a sequential caller finds the same
  -- queue twice
  if name ∉ s.queues then (.err (queueNotFound name), s)
  else
    match s.logOp env (.enqueue name item) with
    | .error e => (.err e, s)
    | .ok s =>
      match s.pushBack name [item] with
      | .error e => (.err e, s)
      | .ok s => (.ok (), s)

def queueBatch (s : InMemoryStorage α) (env : Env) (name : String) (items : List α) :
    Outcome Unit × InMemoryStorage α :=
  if name ∉ s.queues then (.err (queueNotFound name), s)
  else
    match s.logOp env (.enqueueBatch name items) with
    | .error e => (.err e, s)
    | .ok s =>
      match s.pushBack name items with
      | .error e => (.err e, s)
      | .ok s => (.ok (), s)

/-! ### Deliveries -/

/-- `dequeue` pops first and logs afterwards; a failed append pushes the item back in front. -/
def dequeue (s : InMemoryStorage α) (env : Env) (name : String) :
    Outcome (Option (InFlightTask α)) × InMemoryStorage α :=
  match s.queues.lookup name with
  | none => (.err (queueNotFound name), s)
  | some [] => (.ok none, s)
  | some (item :: rest) =>
    -- the guard of `get_mut` is held from the pop to the end, so nothing comes in between
    let popped := s.setQueue name rest
    match popped.logOp env (.dequeued name (env.uuid 0)) with
    | .error e => (.err e, popped.setQueue name (item :: rest))
    | .ok s =>
      let task := InFlightTask.deliver (env.uuid 0) name (env.now 1) item
      (.ok (some task), s.putTask task)

/-- The tasks of a batch, in order, each with its own id and its own clock reading. -/
def deliverAll (name : String) (now : ℕ → Int) (ids : List String) (items : List (QueueItem α)) :
    List (InFlightTask α) :=
  (ids.zip items).mapIdx fun i p => InFlightTask.deliver p.1 name (now i) p.2

/-- `Vec::with_capacity(count)` runs after the emptiness test and before the first pop. -/
def dequeueBatch (s : InMemoryStorage α) (env : Env) (name : String) (count : UInt64) :
    Outcome (List (InFlightTask α)) × InMemoryStorage α :=
  match s.queues.lookup name with
  | none => (.err (queueNotFound name), s)
  | some items =>
    -- the first `is_empty`, on the queue
    if items.isEmpty then (.ok [], s)
    else if capacityOverflow count then (.panic, s)
    else
      let poppedItems := items.take count.toNat
      let rest := items.drop count.toNat
      let popped := s.setQueue name rest
      -- the second one, on what was popped: a count of 0 ends here
      if poppedItems.isEmpty then (.ok [], popped)
      else
        let taskIds := (List.range poppedItems.length).map env.uuid
        match popped.logOp env (.dequeuedBatch name taskIds) with
        | .error e =>
          -- `into_iter().rev()` and one `push_front` for each item
          (.err e, popped.setQueue name (poppedItems.reverse.foldl (fun q i => i :: q) rest))
        | .ok s =>
          let tasks := deliverAll name (fun i => env.now (i + 1)) taskIds poppedItems
          (.ok tasks, tasks.foldl putTask s)

/-! ### Outcomes of a delivery -/

/-- `ack` removes first; when its append fails the task is not put back. -/
def ack (s : InMemoryStorage α) (env : Env) (taskId : String) : Outcome Unit × InMemoryStorage α :=
  match s.inFlight.lookup taskId with
  | none => (.err taskNotFound, s)
  | some _ =>
    let removed := s.dropTask taskId
    match removed.logOp env (.ack taskId) with
    -- the task is gone from the table and from the log's point of view still in flight
    | .error e => (.err (walWriteFailed e), removed)
    | .ok s => (.ok (), s)

/-- The second half of `nack`: the dead-letter queue is created when it is missing, the original
queue is not. -/
def requeue (s : InMemoryStorage α) (task : InFlightTask α) : Except String (InMemoryStorage α) :=
  if task.exhausted then
    let dlq := dlqName task.queueName
    .ok (s.setQueue dlq ((s.queues.lookup dlq).getD [] ++ [task.item]))
  else
    match s.queues.lookup task.queueName with
    | some q => .ok (s.setQueue task.queueName (task.item :: q))
    | none => .error (originalQueueNotFound task.queueName)

/-- `nack` removes first; a failed append puts the task back under the same id. -/
def nack (s : InMemoryStorage α) (env : Env) (taskId : String) :
    Outcome Unit × InMemoryStorage α :=
  match s.inFlight.lookup taskId with
  | none => (.err taskNotFound, s)
  | some task =>
    let removed := s.dropTask taskId
    match removed.logOp env (.nack taskId) with
    | .error e =>
      (.err (walWriteFailed e), { removed with inFlight := removed.inFlight.insert taskId task })
    | .ok s =>
      -- from here on an error would lose the task: it is out of the table and its entry is written
      match s.requeue task with
      | .error e => (.err e, s)
      | .ok s => (.ok (), s)

/-- The clock of the task is reset; the duration only reaches the log. -/
def extendVisibility (s : InMemoryStorage α) (env : Env) (taskId : String) (duration : UInt64) :
    Outcome Unit × InMemoryStorage α :=
  match s.inFlight.lookup taskId with
  | none => (.err taskNotFound, s)
  | some task =>
    match s.logOp env (.extendVisibility taskId duration) with
    | .error e => (.err e, s)
    | .ok s =>
      (.ok (), { s with
        inFlight := s.inFlight.insert taskId { task with consumedAt := env.now 1 } })

/-- `ack_batch` verifies every id before it logs, and removes only after it has logged. -/
def ackBatch (s : InMemoryStorage α) (env : Env) (taskIds : List String) :
    Outcome Unit × InMemoryStorage α :=
  -- an id that occurs twice is looked up twice, and reported twice when it is missing
  let missingIds := taskIds.filter (· ∉ s.inFlight)
  if missingIds ≠ [] then (.err (tasksNotFound missingIds), s)
  else
    match s.logOp env (.ackBatch taskIds) with
    | .error e => (.err e, s)
    | .ok s => (.ok (), taskIds.foldl dropTask s)

/-! ### Expiry -/

/-- `chrono::Duration::seconds` in nanoseconds; out of range it panics. -/
def durationSeconds (seconds : Int) : Option Int :=
  if -9223372036854775 ≤ seconds ∧ seconds ≤ 9223372036854775 then some (seconds * 1000000000)
  else none

/-- The timeout as the scan uses it, after the cast `timeout_seconds as i64`. -/
def expiryTimeout (timeoutSeconds : UInt64) : Option Int :=
  durationSeconds timeoutSeconds.toInt64.toInt

/-- The ids of the tasks older than `timeout` at time `now`. -/
def expiredIds (s : InMemoryStorage α) (now timeout : Int) : Multiset String :=
  (s.inFlight.entries.filter fun e => timeout < now - e.2.consumedAt).map (·.1)

def scanExpiredTasks (s : InMemoryStorage α) (env : Env) (timeoutSeconds : UInt64) :
    Outcome (List String) :=
  match expiryTimeout timeoutSeconds with
  | none => .panic
  | some timeout => .ok (env.iter.list (s.expiredIds (env.now 0) timeout))

/-- The loop of `cleanup_expired_tasks`: the tasks are returned one `nack` at a time, and only
the ones that succeed are counted. -/
def nackAll (s : InMemoryStorage α) (envs : ℕ → Env) : List String → ℕ → ℕ × InMemoryStorage α
  | [], count => (count, s)
  | id :: ids, count =>
    match s.nack (envs 0) id with
    | (.ok (), s) => nackAll s (fun k => envs (k + 1)) ids (count + 1)
    -- an id that has gone in the meantime is an error of its `nack`, and skipped
    | (_, s) => nackAll s (fun k => envs (k + 1)) ids count

/-- `envs 0` serves the scan, `envs (k + 1)` the `k`-th `nack`. -/
def cleanupExpiredTasks (s : InMemoryStorage α) (envs : ℕ → Env) (timeoutSeconds : UInt64) :
    Outcome ℕ × InMemoryStorage α :=
  match s.scanExpiredTasks (envs 0) timeoutSeconds with
  | .ok expired =>
    let r := s.nackAll (fun k => envs (k + 1)) expired 0
    (.ok r.1, r.2)
  | .err e => (.err e, s)
  | .panic => (.panic, s)

end InMemoryStorage

end Oxideq
