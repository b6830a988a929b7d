import Oxideq.Concurrent.Alone
import Oxideq.Concurrent.Order
import Oxideq.Lib.Frame
import Oxideq.Storage.Batches

/-!
# What a call has to itself

The places of the two tables that a running call relies on, for a comparison of the interleaved
store with a sequential one. A call holds the queue it has locked, and the tasks it has taken from
the table or made sure of (`Pc.holds`). `Pc.Stands` says what it knows of its places in the two
stores, and `Pc.Stands.frame` that this outlasts what other calls do elsewhere.

The stores agree (`AgreeOn`) but on the places that are veiled: those a call has changed before it
takes effect, or not changed yet although it has.
-/

namespace Oxideq

variable {α : Type}

/-! ### Stores with the same tables -/

/-- A call opens no log and closes none. -/
theorem isSome_wal_call (env : Env) (s : InMemoryStorage α) {c : Call α}
    (hc : ∀ t, c ≠ .cleanupExpiredTasks t) :
    (s.call (fun _ => env) c).2.wal.isSome = s.wal.isSome := by
  obtain ⟨n, hn⟩ := ends_call env s hc
  have hiter : ∀ n x, ((advance env)^[n] x : InMemoryStorage α × Pc α).1.wal.isSome
      = x.1.wal.isSome := by
    intro n
    induction n with
    | zero => exact fun x => rfl
    | succ n ih =>
      intro x
      rw [Function.iterate_succ_apply, ih]
      exact Access.wal_run ..
  have hwal := hiter n (s, .start c)
  rwa [hn] at hwal

/-- The tables are equal, and both stores have a log or neither has. -/
structure SameTables (s r : InMemoryStorage α) : Prop where
  queues : s.queues = r.queues
  inFlight : s.inFlight = r.inFlight
  wal : s.wal.isSome = r.wal.isSome

namespace SameTables

variable {s r r' : InMemoryStorage α} {env : Env}

theorem refl (s : InMemoryStorage α) : SameTables s s := ⟨rfl, rfl, rfl⟩

theorem trans (h : SameTables s r) (h' : SameTables r r') : SameTables s r' :=
  ⟨h.queues.trans h'.queues, h.inFlight.trans h'.inFlight, h.wal.trans h'.wal⟩

theorem logged (s : InMemoryStorage α) (env : Env) (op : WalOp α) :
    SameTables s (s.logged env op) :=
  ⟨rfl, rfl, (Option.isSome_map ..).symm⟩

theorem symm (h : SameTables s r) : SameTables r s := ⟨h.queues.symm, h.inFlight.symm, h.wal.symm⟩

theorem toLog (h : SameTables s r) (w : Work α) : Pc.toLog s w = Pc.toLog r w := by
  unfold Pc.toLog
  rw [h.wal]

/-- A step reads nothing of the log but whether there is one. -/
theorem step (h : SameTables s r) (env : Env) (pc : Pc α) : pc.step s env = pc.step r env := by
  obtain ⟨queues, inFlight, wal⟩ := s
  obtain ⟨queues', inFlight', wal'⟩ := r
  obtain ⟨rfl, rfl, hwal⟩ := h
  have hlog : ∀ (q q' : DashMap (List (QueueItem α))) (f f' : DashMap (InFlightTask α))
      (w : Work α), Pc.toLog ⟨q, f, wal⟩ w = Pc.toLog ⟨q', f', wal'⟩ w := by
    intro q q' f f' w
    unfold Pc.toLog
    rw [show (⟨q, f, wal⟩ : InMemoryStorage α).wal.isSome
      = (⟨q', f', wal'⟩ : InMemoryStorage α).wal.isSome from hwal]
  cases pc with
  | start c =>
    cases c <;>
      simp only [Pc.step, Pc.begin, hlog queues queues inFlight inFlight,
        InMemoryStorage.scanExpiredTasks, InMemoryStorage.expiredIds]
  | verify ids todo missing =>
    cases todo <;> simp only [Pc.step, hlog queues queues inFlight inFlight]
  | insertTasks name todo tasks => rcases todo with _ | ⟨⟨id, item⟩, todo⟩ <;> rfl
  | removeTasks todo => cases todo <;> rfl
  | apply w => cases w <;> rfl
  | _ => rfl

theorem run (h : SameTables s r) (env : Env) (a : Access α) :
    SameTables (a.run s env) (a.run r env) := by
  have hitems : ∀ name, s.items name = r.items name := fun name => by
    rw [InMemoryStorage.items, InMemoryStorage.items, h.queues]
  have hqueue : ∀ name items, SameTables (s.setQueue name items) (r.setQueue name items) :=
    fun name items => ⟨by simp only [InMemoryStorage.setQueue, h.queues], h.inFlight, h.wal⟩
  cases a with
  | look => exact h
  | log op => exact (SameTables.logged s env op).symm.trans (h.trans (SameTables.logged r env op))
  | insertQueue name => exact hqueue name []
  | pushBack name items => simpa only [Access.run, hitems] using hqueue _ _
  | pushFront name items => simpa only [Access.run, hitems] using hqueue _ _
  | pop name count => simpa only [Access.run, hitems] using hqueue _ _
  | insertTask id task =>
    exact ⟨h.queues, by simp only [Access.run, InMemoryStorage.insertTask, h.inFlight], h.wal⟩
  | dropTask id =>
    exact ⟨h.queues, by simp only [Access.run, InMemoryStorage.dropTask, h.inFlight], h.wal⟩

/-- A call that runs alone does the same on both. -/
theorem ends {pc : Pc α} {s' r' : InMemoryStorage α} {x y : Outcome (Reply α)}
    (h : SameTables s r) (hs : Ends env (s, pc) s' x) (hr : Ends env (r, pc) r' y) :
    x = y ∧ SameTables s' r' := by
  obtain ⟨n, hn⟩ := hs
  have hsim : ∀ n s r, SameTables s r → ∀ pc : Pc α,
      ((advance env)^[n] (s, pc)).2 = ((advance env)^[n] (r, pc)).2 ∧
        SameTables ((advance env)^[n] (s, pc)).1 ((advance env)^[n] (r, pc)).1 := by
    intro n
    induction n with
    | zero => exact fun s r h pc => ⟨rfl, h⟩
    | succ n ih =>
      intro s r h pc
      have hstep := h.step (env.later pc.readings) pc
      simp only [Function.iterate_succ_apply, advance, hstep]
      exact ih _ _ (h.run ..) _
  obtain ⟨hpc, htables⟩ := hsim n s r h pc
  rw [hn] at hpc htables
  have hend : Ends env (r, pc) ((advance env)^[n] (r, pc)).1 x := ⟨n, Prod.ext rfl hpc.symm⟩
  obtain ⟨rfl, rfl⟩ := hend.unique hr
  exact ⟨rfl, htables⟩

/-- **What a call does depends on the log only through its presence.** -/
theorem call (h : SameTables s r) (env : Env) {c : Call α} (hc : ∀ t, c ≠ .cleanupExpiredTasks t) :
    (s.call (fun _ => env) c).1 = (r.call (fun _ => env) c).1 ∧
      SameTables (s.call (fun _ => env) c).2 (r.call (fun _ => env) c).2 :=
  h.ends (ends_call env s hc) (ends_call env r hc)

end SameTables

/-! ### Entries of the tables -/

/-- A place in one of the two tables. -/
inductive Slot where
  | queue (name : String)
  | task (id : String)
  deriving DecidableEq

namespace Slot

abbrev Content (α : Type) : Slot → Type
  | queue _ => Option (List (QueueItem α))
  | task _ => Option (InFlightTask α)

end Slot

/-- What the tables have at a place. -/
def InMemoryStorage.slot (s : InMemoryStorage α) : (k : Slot) → k.Content α
  | .queue name => s.queues.lookup name
  | .task id => s.inFlight.lookup id

namespace InMemoryStorage

variable (s : InMemoryStorage α)

@[simp] theorem slot_queue (name : String) : s.slot (.queue name) = s.queues.lookup name := rfl

@[simp] theorem slot_task (id : String) : s.slot (.task id) = s.inFlight.lookup id := rfl

variable {T : Set Slot}

theorem framed_of_tables {s r : InMemoryStorage α} (hq : r.queues = s.queues)
    (hf : r.inFlight = s.inFlight) : Framed slot T s r :=
  .of_eq (funext fun k => by cases k <;> simp only [slot, hq, hf])

theorem framed_slot_setQueue {name : String} (h : Slot.queue name ∈ T)
    (items : List (QueueItem α)) : Framed slot T s (s.setQueue name items) := by
  intro k hk
  cases k with
  | queue name' =>
    exact Finmap.lookup_insert_of_ne _ fun hne : name' = name => hk (hne ▸ h)
  | task id => rfl

theorem framed_slot_insertTask {id : String} (h : Slot.task id ∈ T) (task : InFlightTask α) :
    Framed slot T s (s.insertTask id task) := by
  intro k hk
  cases k with
  | queue name => rfl
  | task id' => exact Finmap.lookup_insert_of_ne _ fun hne : id' = id => hk (hne ▸ h)

theorem framed_slot_dropTask {id : String} (h : Slot.task id ∈ T) :
    Framed slot T s (s.dropTask id) := by
  intro k hk
  cases k with
  | queue name => rfl
  | task id' => exact Finmap.lookup_erase_ne fun hne : id' = id => hk (hne ▸ h)

end InMemoryStorage

/-! ### What a call holds -/

/-- The tasks the work has taken from the table, or verified. -/
def Work.keeps : Work α → List String
  | .nack id _ => [id]
  | .ackBatch ids => ids
  | _ => []

/-- The queue `create_queue` has found missing. -/
def Work.creating : Work α → Option String
  | .createQueue name => some name
  | _ => none

namespace Pc

/-- The tasks a call relies on to be left alone: those it has taken from the table and not
returned, those `ack_batch` has looked for and not removed, and those `dequeue_batch` has inserted
before its last one. -/
def keeps : Pc α → List String
  | .verify ids todo _ => ids.take (ids.length - todo.length)
  | .waitWal w => w.keeps
  | .appendWal w => w.keeps
  | .restore w _ => w.keeps
  | .apply w => w.keeps
  | .insertTasks _ _ tasks => tasks.map InFlightTask.id
  | .removeTasks todo => todo
  | _ => []

/-- The tasks of these at which the two stores may differ. -/
def hides : Pc α → List String
  | .verify _ _ _ => []
  | .waitWal (.ackBatch _) => []
  | .appendWal (.ackBatch _) => []
  | pc => pc.keeps

/-- The places a call has locked, or relies on. -/
def holds (pc : Pc α) : Set Slot
  | .queue name => pc.queueGuard = some name
  | .task id => pc.taskGuard = some id ∨ id ∈ pc.keeps

/-- The places at which the two stores may differ. -/
def veils (pc : Pc α) : Set Slot
  | .queue name => pc.queueGuard = some name
  | .task id => id ∈ pc.hides

/-- The places the next step reaches for. -/
def reaches (pc : Pc α) : Set Slot
  | .queue name => pc.queueAccess = some name
  | .task id => pc.taskAccess = some id

/-- The queue the call has found missing and is about to create. -/
def creating : Pc α → Option String
  | .waitWal w => w.creating
  | .appendWal w => w.creating
  | .apply w => w.creating
  | _ => none

/-- The call has taken effect. -/
def passed : Pc α → Bool
  | .waitWal (.ack _) => true
  | .appendWal (.ack _) => true
  | .apply (.ack _) => true
  | .removeTasks _ => true
  | .done _ => true
  | _ => false

end Pc

/-! ### The two stores -/

/-- The batch `deliveries` is what `dequeue_batch` takes from a queue that goes on with `rest`. -/
structure Batch (count : UInt64) (deliveries : List (String × QueueItem α))
    (rest : List (QueueItem α)) : Prop where
  fits : capacityOverflow count = false
  ne : deliveries ≠ []
  take : (deliveries.map Prod.snd ++ rest).take count.toNat = deliveries.map Prod.snd
  drop : (deliveries.map Prod.snd ++ rest).drop count.toNat = rest

/-- What a call `c` with its work in hand knows of the store `s` it runs on, and of the sequential
store `t`. -/
inductive Work.Stands (s t : InMemoryStorage α) : Call α → Work α → Prop
  | createQueue {name : String} (h : name ∉ s.queues) :
    Stands s t (.createQueue name) (.createQueue name)
  | queue {name : String} {item : α} (h : name ∈ s.queues) :
    Stands s t (.queue name item) (.queue name item)
  | queueBatch {name : String} {items : List α} (h : name ∈ s.queues) :
    Stands s t (.queueBatch name items) (.queueBatch name items)
  | dequeue {name id : String} {item : QueueItem α} {rest : List (QueueItem α)}
    (hs : s.slot (.queue name) = some rest) (ht : t.slot (.queue name) = some (item :: rest)) :
    Stands s t (.dequeue name) (.dequeue name item id)
  | dequeueBatch {name : String} {count : UInt64} {deliveries : List (String × QueueItem α)}
    {rest : List (QueueItem α)} (hs : s.slot (.queue name) = some rest)
    (ht : t.slot (.queue name) = some (deliveries.map Prod.snd ++ rest))
    (h : Batch count deliveries rest) :
    Stands s t (.dequeueBatch name count) (.dequeueBatch name deliveries)
  | ack {id : String} : Stands s t (.ack id) (.ack id)
  | nack {id : String} {task : InFlightTask α} (hs : s.slot (.task id) = none)
    (ht : t.slot (.task id) = some task) : Stands s t (.nack id) (.nack id task)
  | extendVisibility {id : String} {duration : UInt64} {task : InFlightTask α}
    (hs : s.slot (.task id) = some task) (ht : t.slot (.task id) = some task) :
    Stands s t (.extendVisibility id duration) (.extendVisibility id duration)
  | ackBatch {ids : List String} (hs : ∀ id ∈ ids, (s.slot (.task id)).isSome) :
    Stands s t (.ackBatch ids) (.ackBatch ids)

/-- The same for every place a call can stand at. -/
inductive Pc.Stands (s t : InMemoryStorage α) : Call α → Pc α → Prop
  | start {c : Call α} (hc : ∀ t, c ≠ .cleanupExpiredTasks t) : Stands s t c (.start c)
  | verify (seen todo : List String) :
    Stands s t (.ackBatch (seen ++ todo))
      (.verify (seen ++ todo) todo (seen.filter fun id => (s.slot (.task id)).isNone))
  | waitWal {c : Call α} {w : Work α} (hwal : s.wal.isSome) (h : w.Stands s t c) :
    Stands s t c (.waitWal w)
  | appendWal {c : Call α} {w : Work α} (hwal : s.wal.isSome) (h : w.Stands s t c) :
    Stands s t c (.appendWal w)
  | restore {c : Call α} {w : Work α} {e : String} (hwal : s.wal.isSome) (h : w.Stands s t c)
    (hw : Pc.failLog e w = .restore w e) : Stands s t c (.restore w e)
  | apply {c : Call α} {w : Work α} (h : w.Stands s t c) (hw : Pc.afterLog w = .apply w) :
    Stands s t c (.apply w)
  | insertTasks {name : String} (count : UInt64) (made todo : List (String × QueueItem α))
    (rest : List (QueueItem α)) (env : Env) (hs : s.slot (.queue name) = some rest)
    (ht : t.slot (.queue name) = some ((made ++ todo).map Prod.snd ++ rest))
    (h : Batch count (made ++ todo) rest)
    (hin : ∀ id ∈ (handOut env name 1 made).map InFlightTask.id, s.slot (.task id)
      = ((handOut env name 1 made).foldl InMemoryStorage.putTask t).slot (.task id)) :
    Stands s t (.dequeueBatch name count) (.insertTasks name todo (handOut env name 1 made))
  | removeTasks {ids todo : List String} (ht : ∀ id ∈ todo, t.slot (.task id) = none) :
    Stands s t (.ackBatch ids) (.removeTasks todo)
  | done {c : Call α} {r : Outcome (Reply α)} : Stands s t c (.done r)

/-- The two stores agree on the places of `T` outside of `V`. -/
def AgreeOn (T V : Set Slot) (s t : InMemoryStorage α) : Prop :=
  ∀ k ∈ T, k ∉ V → t.slot k = s.slot k

/-! ### Agreement -/

namespace AgreeOn

variable {T V V' : Set Slot} {s s' t t' : InMemoryStorage α}

theorem mono (h : AgreeOn T V s t) (hV : V ⊆ V') : AgreeOn T V' s t :=
  fun k hk hv => h k hk fun hmem => hv (hV hmem)

/-- One of the stores changes where they may differ. -/
theorem veil (h : AgreeOn T V s t) (hV : V ⊆ V') (hs : Framed InMemoryStorage.slot V' s s') :
    AgreeOn T V' s' t :=
  fun k hk hv => (h.mono hV k hk hv).trans (hs k hv).symm

theorem of_tables (h : AgreeOn T V s t) (hs : SameTables s s') (ht : SameTables t t') :
    AgreeOn T V s' t' := by
  intro k hk hv
  have hslot : ∀ {r r' : InMemoryStorage α}, SameTables r r' → r'.slot k = r.slot k := by
    intro r r' hr
    cases k <;> simp only [InMemoryStorage.slot, hr.queues, hr.inFlight]
  rw [hslot hs, hslot ht]
  exact h k hk hv

/-- Both stores change one place, to the same. -/
theorem both (h : AgreeOn T V s t) (k₀ : Slot) (hs : Framed InMemoryStorage.slot {k₀} s s')
    (ht : Framed InMemoryStorage.slot {k₀} t t') (heq : t'.slot k₀ = s'.slot k₀) :
    AgreeOn T (V \ {k₀}) s' t' := by
  intro k hk hv
  by_cases hk₀ : k = k₀
  · rw [hk₀]
    exact heq
  · have hmem : k ∉ ({k₀} : Set Slot) := hk₀
    rw [hs k hmem, ht k hmem]
    exact h k hk fun hV => hv ⟨hV, hmem⟩

theorem setQueue (h : AgreeOn T V s t) (name : String) (items : List (QueueItem α)) :
    AgreeOn T (V \ {.queue name}) (s.setQueue name items) (t.setQueue name items) :=
  h.both _ (s.framed_slot_setQueue (Set.mem_singleton _) items)
    (t.framed_slot_setQueue (Set.mem_singleton _) items)
    (by simp only [InMemoryStorage.slot_queue, InMemoryStorage.setQueue, Finmap.lookup_insert])

theorem insertTask (h : AgreeOn T V s t) (id : String) (task : InFlightTask α) :
    AgreeOn T (V \ {.task id}) (s.insertTask id task) (t.insertTask id task) :=
  h.both _ (s.framed_slot_insertTask (Set.mem_singleton _) task)
    (t.framed_slot_insertTask (Set.mem_singleton _) task)
    (by simp only [InMemoryStorage.slot_task, InMemoryStorage.insertTask, Finmap.lookup_insert])

theorem dropTask (h : AgreeOn T V s t) (id : String) :
    AgreeOn T (V \ {.task id}) (s.dropTask id) (t.dropTask id) :=
  h.both _ (s.framed_slot_dropTask (Set.mem_singleton _))
    (t.framed_slot_dropTask (Set.mem_singleton _))
    (by simp only [InMemoryStorage.slot_task, InMemoryStorage.dropTask, Finmap.lookup_erase])

end AgreeOn

/-! ### What others may change -/

section Frame

variable {s s' t t' : InMemoryStorage α} {c : Call α} {w : Work α} {pc : Pc α}

/-- What a call knows stays true when others leave alone what it holds, remove no queue, and do not
create the one it has found missing. -/
theorem Work.Stands.frame (h : w.Stands s t c)
    (hs : ∀ k ∈ (Pc.waitWal w).holds, s'.slot k = s.slot k)
    (ht : ∀ k ∈ (Pc.waitWal w).holds, t'.slot k = t.slot k)
    (hqueues : ∀ name ∈ s.queues, name ∈ s'.queues)
    (hnew : ∀ name, (Pc.waitWal w).creating = some name → name ∉ s.queues → name ∉ s'.queues) :
    w.Stands s' t' c := by
  cases h with
  | createQueue h => exact .createQueue (hnew _ rfl h)
  | queue h => exact .queue (hqueues _ h)
  | queueBatch h => exact .queueBatch (hqueues _ h)
  | @dequeue name _ _ _ hl hl' =>
    exact .dequeue ((hs (.queue name) rfl).trans hl) ((ht (.queue name) rfl).trans hl')
  | @dequeueBatch name _ _ _ hl hl' h =>
    exact .dequeueBatch ((hs (.queue name) rfl).trans hl) ((ht (.queue name) rfl).trans hl') h
  | ack => exact .ack
  | @nack id _ hl hl' =>
    have hid : id ∈ [id] := List.mem_singleton_self id
    exact .nack ((hs (.task id) (Or.inr hid)).trans hl) ((ht (.task id) (Or.inr hid)).trans hl')
  | @extendVisibility id _ _ hl hl' =>
    exact .extendVisibility ((hs (.task id) (Or.inl rfl)).trans hl)
      ((ht (.task id) (Or.inl rfl)).trans hl')
  | ackBatch h =>
    refine .ackBatch fun id hid => ?_
    rw [hs (.task id) (Or.inr hid)]
    exact h id hid

/-- A call that goes back holds as much as one that is about to append. -/
theorem Pc.holds_restore {e : String} (hw : Pc.failLog e w = .restore w e) :
    (Pc.restore w e).holds = (Pc.waitWal w).holds := by
  cases w with
  | dequeue name item id => ext k; cases k <;> rfl
  | dequeueBatch name deliveries => ext k; cases k <;> rfl
  | nack id task => ext k; cases k <;> rfl
  | _ => cases hw

/-- A task of a batch is inserted whatever there was under its id. -/
theorem InMemoryStorage.lookup_foldl_putTask_congr {tasks : List (InFlightTask α)} {id : String}
    (h : id ∈ tasks.map InFlightTask.id) (s r : InMemoryStorage α) :
    (tasks.foldl putTask s).slot (.task id) = (tasks.foldl putTask r).slot (.task id) := by
  induction tasks using List.reverseRecOn with
  | nil => cases h
  | append_singleton tasks task ih =>
    rw [List.foldl_concat, List.foldl_concat]
    by_cases hid : id = task.id
    · rw [hid]
      simp only [slot_task, putTask, Finmap.lookup_insert]
    · have hmem : id ∈ tasks.map InFlightTask.id := by
        rw [List.map_append, List.mem_append] at h
        exact h.resolve_right fun h => hid (List.mem_singleton.mp h)
      simp only [slot_task, putTask, Finmap.lookup_insert_of_ne _ hid]
      exact ih hmem

theorem Pc.Stands.frame (h : pc.Stands s t c) (hwal : s'.wal.isSome = s.wal.isSome)
    (hs : ∀ k ∈ pc.holds, s'.slot k = s.slot k) (ht : ∀ k ∈ pc.holds, t'.slot k = t.slot k)
    (hqueues : ∀ name ∈ s.queues, name ∈ s'.queues)
    (hnew : ∀ name, pc.creating = some name → name ∉ s.queues → name ∉ s'.queues) :
    pc.Stands s' t' c := by
  cases h with
  | start hc => exact .start hc
  | @verify seen todo =>
    have hseen : seen.filter (fun id => (s.slot (.task id)).isNone)
        = seen.filter (fun id => (s'.slot (.task id)).isNone) := by
      refine List.filter_congr fun id hid => ?_
      rw [hs (.task id) (Or.inr (by simpa [Pc.keeps] using hid))]
    rw [hseen]
    exact .verify seen todo
  | waitWal hwal' h => exact .waitWal (hwal.trans hwal') (h.frame hs ht hqueues hnew)
  | appendWal hwal' h => exact .appendWal (hwal.trans hwal') (h.frame hs ht hqueues hnew)
  | @restore _ w e hwal' h hw =>
    rw [Pc.holds_restore hw] at hs ht
    refine .restore (hwal.trans hwal') (h.frame hs ht hqueues fun name hname => ?_) hw
    cases w with
    | createQueue name => cases hw
    | _ => cases hname
  | apply h hw => exact .apply (h.frame hs ht hqueues hnew) hw
  | @insertTasks name count made todo rest env hl hl' h hin =>
    refine .insertTasks count made todo rest env ((hs (.queue name) rfl).trans hl)
      ((ht (.queue name) rfl).trans hl') h fun id hid => ?_
    rw [hs (.task id) (Or.inr hid), hin id hid]
    exact InMemoryStorage.lookup_foldl_putTask_congr hid t t'
  | removeTasks h =>
    refine .removeTasks fun id hid => ?_
    rw [ht (.task id) (Or.inr hid)]
    exact h id hid
  | done => exact .done

end Frame

end Oxideq
