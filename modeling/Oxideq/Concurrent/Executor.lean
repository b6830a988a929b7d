import Oxideq.Lib.Table
import Oxideq.Concurrent.Calls

/-!
# Calls on the threads of an executor

The calls of `Oxideq.Concurrent.Calls` as an executor with `W` threads runs them. A call that is
suspended at an await is on no thread; a call that comes to a locked shard of a table keeps its
thread until the lock is free. What is added to the calls is what decides who waits for whom:

* **Shards.** An access locks the shard of its key, for reading or for writing. The guards of
  `get_mut` are write locks, kept over the awaits in their scope. An iterator holds the read lock
  of the shard it stands in, also while it waits for the next one.
* **`get_stats`** and the scan of `cleanup_expired_tasks`, cut at every shard. `get_stats` keeps its
  queue locked while it counts the tasks of that queue.
* **The mutex** of the log is free or held; who waits for it is suspended, and resumes when it is
  free. In what order the waiters are served is left open. The awaits of one append are taken as
  one, which completes with the result of the write.

A thread takes a step at a time (`Action`). `Enabled` says which steps can be taken, `Live` that one
can be as long as a call is unfinished.
-/

namespace Oxideq

variable {α : Type}

/-! ### Locks -/

/-- The lock of a shard of one of the two tables. -/
inductive Lock where
  | queues (shard : ℕ)
  | inFlight (shard : ℕ)
  deriving DecidableEq, Repr

inductive Mode where
  | read
  | write
  deriving DecidableEq, Repr

/-- Only readers share a lock. -/
def Mode.excludes : Mode → Mode → Bool
  | .read, .read => false
  | _, _ => true

def Sharding.queueLock (h : Sharding) (name : String) : Lock := .queues (h.queueShard name).val

def Sharding.taskLock (h : Sharding) (taskId : String) : Lock := .inFlight (h.taskShard taskId).val

namespace Pc

/-- `contains_key` locks for reading, every other access of a method for writing. -/
def mode : Pc α → Mode
  -- the four checks by `contains_key`
  | .start (.createQueue _) => .read
  | .start (.queue _ _) => .read
  | .start (.queueBatch _ _) => .read
  | .verify _ _ _ => .read
  | _ => .write

/-- The locks the call holds. -/
def held (h : Sharding) (pc : Pc α) : List (Lock × Mode) :=
  (pc.queueGuard.map fun name => (h.queueLock name, .write)).toList ++
    (pc.taskGuard.map fun taskId => (h.taskLock taskId, .write)).toList

/-- The lock the next step needs, beyond those the call holds. -/
def wanted (h : Sharding) (pc : Pc α) : Option (Lock × Mode) :=
  (pc.queueAccess.map fun name => (h.queueLock name, pc.mode)).or
    (pc.taskAccess.map fun taskId => (h.taskLock taskId, pc.mode))

end Pc

/-! ### Jobs -/

/-- What is asked of the store. -/
inductive Request (α : Type) where
  | call (c : Call α)
  | getStats

/-- The counts `get_stats` reports for a queue. -/
structure QueueStats where
  name : String
  pending : ℕ
  inFlight : ℕ
  deriving DecidableEq, Repr

/-- The value `get_stats` returns. -/
structure Stats where
  totalInFlight : ℕ
  queues : List QueueStats
  deriving DecidableEq, Repr

namespace InMemoryStorage

/-- The queues in a shard. -/
def queuesIn (s : InMemoryStorage α) (h : Sharding) (shard : ℕ) : DashMap (List (QueueItem α)) :=
  Table.restrict (fun name => (h.queueShard name).val = shard) s.queues

/-- The tasks in a shard. -/
def tasksIn (s : InMemoryStorage α) (h : Sharding) (shard : ℕ) : DashMap (InFlightTask α) :=
  Table.restrict (fun taskId => (h.taskShard taskId).val = shard) s.inFlight

end InMemoryStorage

/-- Where a request stands. `shard` is the next shard to be locked; an iterator holds the one
before it.

* `scan`: `scan_expired_tasks`, with the ids found so far.
* `measure`: `in_flight.len()`, which locks the shards one at a time.
* `queues`: the loop of `get_stats`, with the queues of the current shard that are left and their
  lengths.
* `count`: the count of the tasks of one queue inside that loop. -/
inductive Job (α : Type) where
  | fresh (req : Request α)
  | call (t : Thread α)
  | scan (now timeout : Int) (shard : ℕ) (taskIds : List String)
  | measure (shard total : ℕ)
  | queues (shard : ℕ) (todo : List (String × ℕ)) (acc : Stats)
  | count (shard : ℕ) (name : String) (pending : ℕ) (todo : List (String × ℕ)) (acc : Stats)
    (taskShard found : ℕ)
  | stats (acc : Stats)

namespace Job

/-- The first step of a request, before it comes to a table. -/
def begin (env : Env) : Request α → Job α
  | .call (.cleanupExpiredTasks timeoutSeconds) =>
    match InMemoryStorage.expiryTimeout timeoutSeconds with
    -- `chrono::Duration::seconds` panics on a number of seconds it cannot hold
    | none => .call ⟨.done .panic, none⟩
    | some timeout => .scan (env.now 0) timeout 0 []
  | .call c => .call (Thread.call c)
  | .getStats => .measure 0 0

/-- One step: its access, and where the request stands then. -/
def step (h : Sharding) (s : InMemoryStorage α) (env : Env) : Job α → Access α × Job α
  | .fresh req => (.look, begin env req)
  | .call t =>
    let r := t.pc.step s env
    (r.1, .call (Thread.resume t.loop r.2))
  | .scan now timeout shard taskIds =>
    if shard < h.count then
      let expired := ((s.tasksIn h shard).entries.filter fun e =>
        timeout < now - e.2.consumedAt).map (·.1)
      -- one shard at a time, so a task can be delivered behind the iterator
      (.look, .scan now timeout (shard + 1) (taskIds ++ env.iter.list expired))
    else (.look, .call (Thread.next 0 taskIds))
  | .measure shard total =>
    if shard < h.count then
      (.look, .measure (shard + 1) (total + (s.tasksIn h shard).entries.card))
    else (.look, .queues 0 [] ⟨total, []⟩)
  | .queues shard ((name, pending) :: todo) acc =>
    (.look, .count shard name pending todo acc 0 0)
  | .queues shard [] acc =>
    if shard < h.count then
      let names := env.iter.list ((s.queuesIn h shard).entries.map (·.1))
      (.look, .queues (shard + 1) (names.map fun name => (name, (s.items name).length)) acc)
    else (.look, .stats acc)
  | .count shard name pending todo acc taskShard found =>
    if taskShard < h.count then
      -- the tasks of one queue, counted while the shard of that queue stays locked
      let tasks := (s.tasksIn h taskShard).entries.filter fun e => e.2.queueName = name
      (.look, .count shard name pending todo acc (taskShard + 1) (found + tasks.card))
    else
      (.look,
        .queues shard todo { acc with queues := acc.queues ++ [⟨name, pending, found⟩] })
  | .stats acc => (.look, .stats acc)

/-- The lock of the shard before the next one. -/
def behind (lock : ℕ → Lock) : ℕ → List (Lock × Mode)
  | 0 => []
  | shard + 1 => [(lock shard, .read)]

/-- The lock of the next shard, if there is one. -/
def ahead (h : Sharding) (lock : ℕ → Lock) (shard : ℕ) : Option (Lock × Mode) :=
  if shard < h.count then some (lock shard, .read) else none

/-- The locks the request holds. -/
def held (h : Sharding) : Job α → List (Lock × Mode)
  | .call t => t.pc.held h
  | .scan _ _ shard _ => behind .inFlight shard
  | .queues shard _ _ => behind .queues shard
  | .count shard _ _ _ _ taskShard _ => behind .queues shard ++ behind .inFlight taskShard
  | _ => []

/-- The lock the next step needs, beyond those the request holds. -/
def wanted (h : Sharding) : Job α → Option (Lock × Mode)
  | .call t => t.pc.wanted h
  | .scan _ _ shard _ => ahead h .inFlight shard
  | .measure shard _ => ahead h .inFlight shard
  | .queues shard [] _ => ahead h .queues shard
  | .count _ _ _ _ _ taskShard _ => ahead h .inFlight taskShard
  | _ => none

def finished : Job α → Bool
  | .call t => t.pc.finished
  | .stats _ => true
  | _ => false

/-- The request waits for the mutex of the log. -/
def waitsWal : Job α → Bool
  | .call t => t.pc.acquires
  | _ => false

/-- The request waits for its append. -/
def appends : Job α → Bool
  | .call ⟨.appendWal _, _⟩ => true
  | _ => false

def holdsWal : Job α → Bool
  | .call t => t.pc.holdsWal
  | _ => false

/-- A `nack` about to put its task back after a failed append, with the mutex still held. -/
def undoesNack : Job α → Bool
  | .call ⟨.restore (.nack _ _) _, _⟩ => true
  | _ => false

/-- The task an `extend_visibility` is about to lock. -/
def extended : Job α → Option String
  | .call ⟨.start (.extendVisibility taskId _), _⟩ => some taskId
  | _ => none

end Job

/-! ### The executor -/

/-- Where a request is: on no thread, on a thread, or on a thread and stopped at a lock. -/
inductive Standing where
  | parked
  | running
  | waiting
  deriving DecidableEq, Repr

/-- A request, and the result of its write once that has completed. -/
structure Fiber (α : Type) where
  job : Job α
  place : Standing
  write : Option (Except String Unit)

structure Executor (ι α : Type) where
  store : InMemoryStorage α
  fibers : ι → Fiber α

/-- What can happen to a request: it is put on a thread, it leaves its thread at an await, it stops
at a lock, its write completes, or it takes its next step. -/
inductive Action where
  | resume
  | park
  | wait
  | complete (r : Except String Unit)
  | run (env : Env)

/-- The request stops at a lock. -/
def Action.waits : Action → Bool
  | .wait => true
  | _ => false

namespace Executor

variable {ι : Type}

def job (σ : Executor ι α) (i : ι) : Job α := (σ.fibers i).job

def place (σ : Executor ι α) (i : ι) : Standing := (σ.fibers i).place

def write (σ : Executor ι α) (i : ι) : Option (Except String Unit) := (σ.fibers i).write

/-- No request has begun. -/
def start (s : InMemoryStorage α) (requests : ι → Request α) : Executor ι α :=
  ⟨s, fun i => ⟨.fresh (requests i), .parked, none⟩⟩

/-- `j` holds the lock that the next step of `i` needs. -/
def Blocks (h : Sharding) (σ : Executor ι α) (j i : ι) : Prop :=
  j ≠ i ∧ ∃ w ∈ (σ.job i).wanted h, ∃ g ∈ (σ.job j).held h, g.1 = w.1 ∧ g.2.excludes w.2 = true

instance [DecidableEq ι] (h : Sharding) (σ : Executor ι α) (j i : ι) :
    Decidable (σ.Blocks h j i) :=
  inferInstanceAs (Decidable (_ ∧ _))

/-- The next step of `i` finds its lock free. -/
def Available (h : Sharding) (σ : Executor ι α) (i : ι) : Prop := ∀ j, ¬ σ.Blocks h j i

instance [Fintype ι] [DecidableEq ι] (h : Sharding) (σ : Executor ι α) (i : ι) :
    Decidable (σ.Available h i) :=
  inferInstanceAs (Decidable (∀ _, _))

def WalFree (σ : Executor ι α) : Prop := ∀ j, (σ.job j).holdsWal = false

instance [Fintype ι] (σ : Executor ι α) : Decidable σ.WalFree :=
  inferInstanceAs (Decidable (∀ _, _))

/-- The awaits of `i` are over. -/
def Ready (σ : Executor ι α) (i : ι) : Prop :=
  ((σ.job i).waitsWal = true → σ.WalFree) ∧ ((σ.job i).appends = true → σ.write i ≠ none)

instance [Fintype ι] (σ : Executor ι α) (i : ι) : Decidable (σ.Ready i) :=
  inferInstanceAs (Decidable (_ ∧ _))

variable [Fintype ι] [DecidableEq ι]

/-- The requests that are on a thread. -/
def busy (σ : Executor ι α) : Finset ι := Finset.univ.filter fun i => σ.place i ≠ .parked

/-- What can happen to `i`, on `W` threads. Whoever waits for the mutex may be suspended even when
it is free: it may have been promised to another. -/
def Enabled (h : Sharding) (W : ℕ) (σ : Executor ι α) (i : ι) : Action → Prop
  | .resume =>
    σ.place i = .parked ∧ (σ.job i).finished = false ∧ σ.busy.card < W ∧ σ.Ready i
  | .park =>
    σ.place i = .running ∧
      ((σ.job i).waitsWal = true ∨ (σ.job i).appends = true ∧ σ.write i = none)
  | .wait => σ.place i = .running ∧ ¬ σ.Available h i
  | .complete _ => (σ.job i).appends = true ∧ σ.write i = none
  | .run _ => σ.place i ≠ .parked ∧ σ.Available h i ∧ σ.Ready i

instance (h : Sharding) (W : ℕ) (σ : Executor ι α) (i : ι) (a : Action) :
    Decidable (σ.Enabled h W i a) := by
  cases a <;> unfold Enabled <;> infer_instance

/-- Another place for `i`. -/
def setPlace (σ : Executor ι α) (i : ι) (p : Standing) : Executor ι α :=
  { σ with fibers := Function.update σ.fibers i { σ.fibers i with place := p } }

/-- The step of `i`; a request that is finished leaves its thread. -/
def runAt (h : Sharding) (σ : Executor ι α) (i : ι) (env : Env) : Executor ι α :=
  -- an append returns what its write completed with
  let env' := { env with append := (σ.write i).getD env.append }
  let r := (σ.job i).step h σ.store env'
  ⟨r.1.run σ.store env',
    Function.update σ.fibers i ⟨r.2, if r.2.finished then .parked else .running, none⟩⟩

/-- The configuration after an action. -/
def after (h : Sharding) (σ : Executor ι α) (i : ι) : Action → Executor ι α
  | .resume => σ.setPlace i .running
  | .park => σ.setPlace i .parked
  | .wait => σ.setPlace i .waiting
  | .complete r =>
    { σ with fibers := Function.update σ.fibers i { σ.fibers i with write := some r } }
  | .run env => σ.runAt h i env

/-- **The executor.** A label is a request and what happens to it. -/
def machine (ι α : Type) [Fintype ι] [DecidableEq ι] (h : Sharding) (W : ℕ) :
    System (Executor ι α) (ι × Action) where
  step σ l := if σ.Enabled h W l.1 l.2 then some (σ.after h l.1 l.2) else none

/-- As long as a request is unfinished, something can happen. -/
def Live (h : Sharding) (W : ℕ) (σ : Executor ι α) : Prop :=
  (∃ i, (σ.job i).finished = false) → ∃ l, ((machine ι α h W).step σ l).isSome

end Executor

end Oxideq
