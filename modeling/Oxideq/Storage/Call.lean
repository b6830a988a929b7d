import Oxideq.Storage.Memory

/-!
# Calls

The calls a client or the background worker can make on a store, as data, and what each returns.
`InMemoryStorage.call` runs one, `InMemoryStorage.callAll` one after the other.
-/

namespace Oxideq

variable {α : Type}

/-- A call of a method of the trait `Storage`, with its arguments. -/
inductive Call (α : Type) where
  | createQueue (name : String)
  | queue (name : String) (item : α)
  | queueBatch (name : String) (items : List α)
  | dequeue (name : String)
  | dequeueBatch (name : String) (count : UInt64)
  | ack (taskId : String)
  | ackBatch (taskIds : List String)
  | nack (taskId : String)
  | extendVisibility (taskId : String) (duration : UInt64)
  | cleanupExpiredTasks (timeoutSeconds : UInt64)
  deriving DecidableEq, Repr

/-- The values the calls return. -/
inductive Reply (α : Type) where
  | done
  | delivered (task : Option (InFlightTask α))
  | deliveredBatch (tasks : List (InFlightTask α))
  | cleaned (count : ℕ)
  deriving DecidableEq, Repr

def Outcome.map {β γ : Type} (f : β → γ) : Outcome β → Outcome γ
  | .ok v => .ok (f v)
  | .err e => .err e
  | .panic => .panic

namespace InMemoryStorage

/-- A call run to its end without interruption. `envs 0` serves the call itself; only
`cleanup_expired_tasks` uses the others, one for each of its `nack`s. -/
def call (s : InMemoryStorage α) (envs : ℕ → Env) :
    Call α → Outcome (Reply α) × InMemoryStorage α
  | .createQueue name => (s.createQueue (envs 0) name).map (.map fun _ => .done) id
  | .queue name item => (s.queue (envs 0) name item).map (.map fun _ => .done) id
  | .queueBatch name items => (s.queueBatch (envs 0) name items).map (.map fun _ => .done) id
  | .dequeue name => (s.dequeue (envs 0) name).map (.map .delivered) id
  | .dequeueBatch name count => (s.dequeueBatch (envs 0) name count).map (.map .deliveredBatch) id
  | .ack taskId => (s.ack (envs 0) taskId).map (.map fun _ => .done) id
  | .ackBatch taskIds => (s.ackBatch (envs 0) taskIds).map (.map fun _ => .done) id
  | .nack taskId => (s.nack (envs 0) taskId).map (.map fun _ => .done) id
  | .extendVisibility taskId duration =>
    (s.extendVisibility (envs 0) taskId duration).map (.map fun _ => .done) id
  | .cleanupExpiredTasks timeoutSeconds =>
    (s.cleanupExpiredTasks envs timeoutSeconds).map (.map .cleaned) id

/-- Calls made one after the other; `envs k` serves the `k`-th. What each returned, and the store
after all of them. -/
def callAll (s : InMemoryStorage α) (envs : ℕ → ℕ → Env) :
    List (Call α) → List (Outcome (Reply α)) × InMemoryStorage α
  | [] => ([], s)
  | c :: cs =>
    let r := s.call (envs 0) c
    (callAll r.2 (fun k => envs (k + 1)) cs).map (r.1 :: ·) id

/-! ### The items of a queue -/

/-- The items of a queue, none where it does not exist. -/
def items (s : InMemoryStorage α) (name : String) : List (QueueItem α) :=
  (s.queues.lookup name).getD []

theorem items_of_lookup {s : InMemoryStorage α} {name : String}
    {items : List (QueueItem α)} (h : s.queues.lookup name = some items) :
    s.items name = items := by
  rw [InMemoryStorage.items, h, Option.getD_some]

theorem items_of_notMem {s : InMemoryStorage α} {name : String} (h : name ∉ s.queues) :
    s.items name = [] := by
  rw [InMemoryStorage.items, Finmap.lookup_eq_none.mpr h, Option.getD_none]

theorem lookup_of_items {s : InMemoryStorage α} {name : String}
    {items : List (QueueItem α)} (h : s.items name = items) (hne : items ≠ []) :
    s.queues.lookup name = some items := by
  cases hl : s.queues.lookup name with
  | none =>
    rw [InMemoryStorage.items, hl, Option.getD_none] at h
    exact absurd h.symm hne
  | some items' => rw [← h, items_of_lookup hl]

end InMemoryStorage

end Oxideq
