import Mathlib.Data.Finmap
import Mathlib.Data.Multiset.Sort
import Mathlib.Data.String.Basic

/-!
# Data model of the storage layer

The records of `storage/mod.rs`, `storage/memory.rs` and `storage/wal/mod.rs`: queue items,
in-flight tasks, and the entries of the write-ahead log.

The storage layer stores and moves payloads without ever looking inside one, so every record
is generic in the payload type `α`. The program itself is the instance `α = Bytes`; the
concurrency results also use instances whose payloads carry the identity of a message.

Task ids and queue names are strings. A `DashMap` is a finite map: two tables with the same
entries are equal, and the order in which a table is iterated is not part of it. Clock readings
are nanoseconds since the epoch.
-/

namespace Oxideq

/-- A payload as the program stores it, `Vec<u8>`. -/
abbrev Bytes := List UInt8

/-- A concurrent table keyed by strings. Keys are unique and the iteration order is open. -/
abbrev DashMap (V : Type) := Finmap fun _ : String => V

/-- How the two tables of a store spread their keys over shards, each behind a lock of its own. -/
structure Sharding where
  count : ℕ
  queueShard : String → Fin count
  taskShard : String → Fin count

/-- A pending message. `deliveryAttempts` counts the deliveries made so far; the release build
wraps it at `2^32`. -/
structure QueueItem (α : Type) where
  data : α
  deliveryAttempts : UInt32
  deriving DecidableEq, Repr

/-- A task that has been handed out and not yet acknowledged. -/
structure InFlightTask (α : Type) where
  id : String
  data : α
  consumedAt : Int
  queueName : String
  deliveryAttempts : UInt32
  deriving DecidableEq, Repr

/-- The operation recorded by one line of the log. -/
inductive WalOp (α : Type) where
  | createQueue (name : String)
  | enqueue (queue : String) (data : α)
  | enqueueBatch (queue : String) (data : List α)
  | dequeued (queue : String) (taskId : String)
  | dequeuedBatch (queue : String) (taskIds : List String)
  | ack (taskId : String)
  | ackBatch (taskIds : List String)
  | nack (taskId : String)
  | extendVisibility (taskId : String) (duration : UInt64)
  deriving DecidableEq, Repr

/-- One line of the log. -/
structure WalEntry (α : Type) where
  op : WalOp α
  timestamp : Int64
  deriving DecidableEq, Repr

/-- What a call returns: its value, the text of its error, or a panic of the thread. -/
inductive Outcome (β : Type) where
  | ok (value : β)
  | err (message : String)
  | panic
  deriving DecidableEq, Repr

/-- An iteration order for the keys of a table: some listing of every set of keys. -/
structure IterOrder where
  list : Multiset String → List String
  coe_list : ∀ ids, (list ids : Multiset String) = ids

/-- The order of the keys themselves, as one possible iteration order. -/
def IterOrder.sorted : IterOrder where
  list ids := ids.sort (· ≤ ·)
  coe_list ids := ids.sort_eq (· ≤ ·)

/-- What a call receives from outside the store: the `Uuid::new_v4` draws, the successive
readings of the clock, the result of its append to the log, and the order in which a table is
iterated. -/
structure Env where
  uuid : ℕ → String
  now : ℕ → Int
  append : Except String Unit
  iter : IterOrder

/-- An environment in which time stands still and the append succeeds, with the given draws. -/
def Env.quiet (ids : List String) : Env where
  uuid n := ids.getD n ""
  now _ := 0
  append := .ok ()
  iter := IterOrder.sorted

end Oxideq
