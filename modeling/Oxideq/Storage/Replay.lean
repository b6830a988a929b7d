import Oxideq.Storage.Memory

/-!
# Replay

`new_persistent` of `storage/memory.rs`, from the entries of the log on: a second interpreter
which rebuilds the tables of the store entry by entry. Two entries are replayed by hand, because
a delivery must not draw a fresh id; the others go through the live methods on a store without a
log.

The rebuilt store is compared with the live one up to the clock: `SameState` asks for equal
queues and for an equal in-flight table once `consumedAt` is left out. Replay respects it
(`SameState.effect`), which is what makes the clock readings made during a replay
irrelevant.
-/

namespace Oxideq

variable {α : Type}

/-! ### Appending -/

/-- The handle after further entries were written. -/
def WalManager.extend (m : WalManager α) (es : List (WalEntry α)) : WalManager α :=
  ⟨m.written ++ es⟩

namespace InMemoryStorage

/-- The store after a successful append. -/
def logged (s : InMemoryStorage α) (env : Env) (op : WalOp α) : InMemoryStorage α :=
  { s with wal := s.wal.map (·.extend [⟨op, timestampMillis (env.now 0)⟩]) }

theorem logOp_ok {env : Env} (h : env.append = .ok ()) (s : InMemoryStorage α) (op : WalOp α) :
    s.logOp env op = .ok (s.logged env op) := by
  unfold logOp logged
  cases hw : s.wal with
  | none => simp only [Option.map_none]; rw [← hw]
  | some m => simp only [WalManager.append, h]; rfl

/-- An append writes its entry or fails. -/
theorem logOp_cases (s : InMemoryStorage α) (env : Env) (op : WalOp α) :
    s.logOp env op = .ok (s.logged env op) ∨ ∃ e, s.logOp env op = .error e := by
  cases h : env.append with
  | ok _ => exact Or.inl (logOp_ok h s op)
  | error e =>
    cases hw : s.wal with
    | none =>
      refine Or.inl ?_
      unfold logOp logged
      simp only [hw, Option.map_none]
      rw [← hw]
    | some m =>
      refine Or.inr ⟨e, ?_⟩
      unfold logOp
      simp only [hw, WalManager.append, h]

@[simp] theorem logged_queues (s : InMemoryStorage α) (env : Env) (op : WalOp α) :
    (s.logged env op).queues = s.queues := rfl

@[simp] theorem logged_inFlight (s : InMemoryStorage α) (env : Env) (op : WalOp α) :
    (s.logged env op).inFlight = s.inFlight := rfl

@[simp] theorem logged_setQueue (s : InMemoryStorage α) (env : Env) (op : WalOp α)
    (name : String) (items : List (QueueItem α)) :
    (s.setQueue name items).logged env op = (s.logged env op).setQueue name items := rfl

@[simp] theorem logged_dropTask (s : InMemoryStorage α) (env : Env) (op : WalOp α)
    (id : String) : (s.dropTask id).logged env op = (s.logged env op).dropTask id := rfl

/-! ### The replay loop -/

/-- `Dequeued` and `DequeuedBatch`: the front items go in flight under the logged ids, as many as
there are. -/
def replayDeliveries (s : InMemoryStorage α) (now : ℕ → Int) (name : String)
    (taskIds : List String) : InMemoryStorage α :=
  match s.queues.lookup name with
  | none => s
  | some items =>
    (deliverAll name now taskIds items).foldl putTask
      (s.setQueue name (items.drop taskIds.length))

/-- One iteration of the replay loop of `new_persistent`. -/
def replayEntry (s : InMemoryStorage α) (env : Env) (entry : WalEntry α) : InMemoryStorage α :=
  match entry.op with
  | .createQueue name => (s.createQueue env name).2
  | .enqueue queue data => (s.queue env queue data).2
  -- by hand: `dequeue` would draw a new id
  | .dequeued queue taskId => s.replayDeliveries env.now queue [taskId]
  | .ack taskId => (s.ack env taskId).2
  | .ackBatch taskIds => (s.ackBatch env taskIds).2
  | .nack taskId => (s.nack env taskId).2
  -- the logged duration is ignored
  | .extendVisibility taskId _ => (s.extendVisibility env taskId 0).2
  | .enqueueBatch queue data => (s.queueBatch env queue data).2
  | .dequeuedBatch queue taskIds => s.replayDeliveries env.now queue taskIds

/-- The replay loop; `envs k` serves its `k`-th iteration. -/
def replayEntries (s : InMemoryStorage α) (envs : ℕ → Env) :
    List (WalEntry α) → InMemoryStorage α
  | [] => s
  | entry :: entries =>
    (s.replayEntry (envs 0) entry).replayEntries (fun k => envs (k + 1)) entries

/-- `new_persistent` on the entries read from the file: replay into a store without a log, then
open the log. -/
def recover (envs : ℕ → Env) (entries : List (WalEntry α)) : InMemoryStorage α :=
  -- the entries are replayed without a log, so none of them is written a second time
  { (new : InMemoryStorage α).replayEntries envs entries with wal := some WalManager.new }

/-! ### The meaning of an entry -/

/-- The store after `f`, or the store itself where `f` fails. -/
def orSelf (s : InMemoryStorage α) : Except String (InMemoryStorage α) → InMemoryStorage α
  | .ok s' => s'
  -- the replay drops every error (`let _ = …`)
  | .error _ => s

@[simp] theorem orSelf_ok (s s' : InMemoryStorage α) : s.orSelf (.ok s') = s' := rfl

@[simp] theorem orSelf_error (s : InMemoryStorage α) (e : String) : s.orSelf (.error e) = s := rfl

/-- What an entry of the log stands for: the change of the tables it records. Replay computes it
(`replayEntry_eq_effect`) and the call that wrote the entry has it. -/
def effect (s : InMemoryStorage α) (now : ℕ → Int) : WalOp α → InMemoryStorage α
  | .createQueue name => if name ∈ s.queues then s else s.setQueue name []
  | .enqueue queue data => s.orSelf (s.pushBack queue [data])
  | .enqueueBatch queue data => s.orSelf (s.pushBack queue data)
  | .dequeued queue taskId => s.replayDeliveries now queue [taskId]
  | .dequeuedBatch queue taskIds => s.replayDeliveries now queue taskIds
  | .ack taskId => s.dropTask taskId
  -- refused whole if one id is missing, as by the live method
  | .ackBatch taskIds => if ∀ id ∈ taskIds, id ∈ s.inFlight then taskIds.foldl dropTask s else s
  | .nack taskId =>
    match s.inFlight.lookup taskId with
    | none => s
    | some task => (s.dropTask taskId).orSelf ((s.dropTask taskId).requeue task)
  | .extendVisibility taskId _ =>
    match s.inFlight.lookup taskId with
    | none => s
    | some task =>
      { s with inFlight := s.inFlight.insert taskId { task with consumedAt := now 1 } }

/-- Removing an absent id changes nothing. -/
theorem dropTask_of_lookup_none {s : InMemoryStorage α} {id : String}
    (h : s.inFlight.lookup id = none) : s.dropTask id = s := by
  unfold dropTask
  congr 1
  refine Finmap.ext_lookup fun id' => ?_
  by_cases hid : id' = id
  · rw [hid, Finmap.lookup_erase, h]
  · exact Finmap.lookup_erase_ne hid

/-- Writing a queue back unchanged changes nothing. -/
theorem setQueue_self {s : InMemoryStorage α} {name : String} {items : List (QueueItem α)}
    (h : s.queues.lookup name = some items) : s.setQueue name items = s := by
  unfold setQueue
  congr 1
  refine Finmap.ext_lookup fun name' => ?_
  by_cases hn : name' = name
  · rw [hn, Finmap.lookup_insert, h]
  · exact Finmap.lookup_insert_of_ne _ hn

@[simp] theorem setQueue_setQueue (s : InMemoryStorage α) (name : String)
    (items items' : List (QueueItem α)) :
    (s.setQueue name items).setQueue name items' = s.setQueue name items' := by
  unfold setQueue
  simp only [Finmap.insert_insert]

/-- Putting back the task just removed changes nothing. -/
theorem insert_dropTask {s : InMemoryStorage α} {id : String} {task : InFlightTask α}
    (h : s.inFlight.lookup id = some task) :
    { s.dropTask id with inFlight := (s.dropTask id).inFlight.insert id task } = s := by
  have htable : (s.inFlight.erase id).insert id task = s.inFlight := by
    refine Finmap.ext_lookup fun id' => ?_
    by_cases hid : id' = id
    · rw [hid, Finmap.lookup_insert, h]
    · rw [Finmap.lookup_insert_of_ne _ hid, Finmap.lookup_erase_ne hid]
  unfold dropTask
  simp only [htable]

/-- Pushing popped items back, last one first, restores their order. -/
theorem foldl_cons_reverse {β : Type} (items rest : List β) :
    items.reverse.foldl (fun q i => i :: q) rest = items ++ rest := by
  rw [List.foldl_reverse]
  induction items with
  | nil => rfl
  | cons item items ih => rw [List.foldr_cons, ih, List.cons_append]

/-- Without a log, nothing stands between a live method and its effect. -/
theorem logOp_of_wal_none {s : InMemoryStorage α} (h : s.wal = none) (env : Env) (op : WalOp α) :
    s.logOp env op = .ok s := by
  unfold logOp
  rw [h]

/-- Replay computes the effect of the entry. -/
theorem replayEntry_eq_effect {s : InMemoryStorage α} (h : s.wal = none) (env : Env)
    (entry : WalEntry α) : s.replayEntry env entry = s.effect env.now entry.op := by
  -- `ack` and `nack` log after they have removed the task
  have hdrop : ∀ id, (s.dropTask id).wal = none := fun _ => h
  unfold replayEntry
  cases entry.op with
  | createQueue name =>
    simp only [createQueue, effect, logOp_of_wal_none h]
    split <;> rfl
  | enqueue queue data =>
    simp only [InMemoryStorage.queue, effect, logOp_of_wal_none h]
    split
    · next hq => simp [pushBack, Finmap.lookup_eq_none.mpr hq, orSelf]
    · cases s.pushBack queue [data] <;> rfl
  | enqueueBatch queue data =>
    simp only [InMemoryStorage.queueBatch, effect, logOp_of_wal_none h]
    split
    · next hq => simp [pushBack, Finmap.lookup_eq_none.mpr hq, orSelf]
    · cases s.pushBack queue data <;> rfl
  | dequeued queue taskId => rfl
  | dequeuedBatch queue taskIds => rfl
  | ack taskId =>
    simp only [ack, effect, logOp_of_wal_none (hdrop taskId)]
    cases hl : s.inFlight.lookup taskId with
    | none => exact (dropTask_of_lookup_none hl).symm
    | some task => rfl
  | ackBatch taskIds =>
    simp only [ackBatch, effect, logOp_of_wal_none h, List.filter_eq_nil_iff, ne_eq,
      decide_not, Bool.not_eq_true', decide_eq_false_iff_not, not_not]
    by_cases hm : ∀ id ∈ taskIds, id ∈ s.inFlight
    · rw [if_pos hm, if_neg (not_not.mpr hm)]
    · rw [if_neg hm, if_pos hm]
  | nack taskId =>
    simp only [nack, effect, logOp_of_wal_none (hdrop taskId)]
    cases s.inFlight.lookup taskId with
    | none => rfl
    | some task =>
      simp only
      cases (s.dropTask taskId).requeue task <;> rfl
  | extendVisibility taskId duration =>
    simp only [extendVisibility, effect, logOp_of_wal_none h]
    cases s.inFlight.lookup taskId <;> rfl

end InMemoryStorage

/-! ### Equality up to the clock -/

/-- A task without its clock reading. -/
def InFlightTask.untimed (task : InFlightTask α) : InFlightTask α := { task with consumedAt := 0 }

@[simp] theorem InFlightTask.untimed_item (task : InFlightTask α) :
    task.untimed.item = task.item := rfl

@[simp] theorem InFlightTask.untimed_exhausted (task : InFlightTask α) :
    task.untimed.exhausted = task.exhausted := rfl

@[simp] theorem InFlightTask.untimed_queueName (task : InFlightTask α) :
    task.untimed.queueName = task.queueName := rfl

@[simp] theorem InFlightTask.untimed_id (task : InFlightTask α) : task.untimed.id = task.id := rfl

@[simp] theorem InFlightTask.untimed_consumedAt (task : InFlightTask α) (t : Int) :
    ({ task with consumedAt := t } : InFlightTask α).untimed = task.untimed := rfl

@[simp] theorem InFlightTask.deliver_id (id queue : String) (now : Int) (item : QueueItem α) :
    (InFlightTask.deliver id queue now item).id = id := rfl

theorem InFlightTask.untimed_deliver (id queue : String) (now now' : Int) (item : QueueItem α) :
    (InFlightTask.deliver id queue now item).untimed
      = (InFlightTask.deliver id queue now' item).untimed := rfl

/-- The two stores hold the same queues and, clock readings aside, the same tasks in flight. -/
structure SameState (s r : InMemoryStorage α) : Prop where
  queues : s.queues = r.queues
  inFlight : ∀ id, (s.inFlight.lookup id).map InFlightTask.untimed
    = (r.inFlight.lookup id).map InFlightTask.untimed

namespace SameState

variable {s r u : InMemoryStorage α}

theorem refl (s : InMemoryStorage α) : SameState s s := ⟨rfl, fun _ => rfl⟩

theorem symm (h : SameState s r) : SameState r s := ⟨h.queues.symm, fun id => (h.inFlight id).symm⟩

theorem trans (h : SameState s r) (h' : SameState r u) : SameState s u :=
  ⟨h.queues.trans h'.queues, fun id => (h.inFlight id).trans (h'.inFlight id)⟩

/-- The log handle is not part of the state. -/
theorem of_tables (hq : s.queues = r.queues) (hf : s.inFlight = r.inFlight) : SameState s r :=
  ⟨hq, fun _ => by rw [hf]⟩

theorem mem_inFlight (h : SameState s r) (id : String) : id ∈ s.inFlight ↔ id ∈ r.inFlight := by
  rw [← Finmap.lookup_isSome, ← Finmap.lookup_isSome, ← Option.isSome_map, h.inFlight id,
    Option.isSome_map]

/-- A task in flight on one side is in flight on the other, up to its clock reading. -/
theorem lookup_some (h : SameState s r) {id : String} {task : InFlightTask α}
    (hs : s.inFlight.lookup id = some task) :
    ∃ task', r.inFlight.lookup id = some task' ∧ task'.untimed = task.untimed := by
  -- the two lookups agree under `untimed`, so one is `some` when the other is
  have hid := h.inFlight id
  rw [hs, Option.map_some] at hid
  exact Option.map_eq_some_iff.mp hid.symm

theorem lookup_none (h : SameState s r) {id : String} (hs : s.inFlight.lookup id = none) :
    r.inFlight.lookup id = none := by
  rw [Finmap.lookup_eq_none] at hs ⊢
  rwa [← h.mem_inFlight id]

theorem setQueue (h : SameState s r) (name : String) (items : List (QueueItem α)) :
    SameState (s.setQueue name items) (r.setQueue name items) := by
  refine ⟨?_, h.inFlight⟩
  simp only [InMemoryStorage.setQueue, h.queues]

theorem dropTask (h : SameState s r) (id : String) :
    SameState (s.dropTask id) (r.dropTask id) := by
  refine ⟨h.queues, fun id' => ?_⟩
  simp only [InMemoryStorage.dropTask]
  by_cases hid : id' = id
  · subst hid
    rw [Finmap.lookup_erase, Finmap.lookup_erase]
  · rw [Finmap.lookup_erase_ne hid, Finmap.lookup_erase_ne hid]
    exact h.inFlight id'

/-- Tasks that differ in their clock reading only may be put in flight on the two sides. -/
theorem insertTask (h : SameState s r) (id : String) {task task' : InFlightTask α}
    (ht : task.untimed = task'.untimed) :
    SameState { s with inFlight := s.inFlight.insert id task }
      { r with inFlight := r.inFlight.insert id task' } := by
  refine ⟨h.queues, fun id' => ?_⟩
  by_cases hid : id' = id
  · subst hid
    rw [Finmap.lookup_insert, Finmap.lookup_insert, Option.map_some, Option.map_some, ht]
  · rw [Finmap.lookup_insert_of_ne _ hid, Finmap.lookup_insert_of_ne _ hid]
    exact h.inFlight id'

theorem putTask (h : SameState s r) {task task' : InFlightTask α}
    (ht : task.untimed = task'.untimed) : SameState (s.putTask task) (r.putTask task') := by
  have hid : task.id = task'.id := by simpa using congrArg InFlightTask.id ht
  unfold InMemoryStorage.putTask
  rw [hid]
  exact h.insertTask task'.id ht

/-- Putting a task in flight again under another clock reading changes nothing. -/
theorem retime (s : InMemoryStorage α) {id : String} {task : InFlightTask α} (t : Int)
    (hs : s.inFlight.lookup id = some task) :
    SameState s { s with inFlight := s.inFlight.insert id { task with consumedAt := t } } := by
  refine ⟨rfl, fun id' => ?_⟩
  by_cases hid : id' = id
  · subst hid
    rw [Finmap.lookup_insert, hs]
    rfl
  · rw [Finmap.lookup_insert_of_ne _ hid]

theorem dropTasks (h : SameState s r) (ids : List String) :
    SameState (ids.foldl InMemoryStorage.dropTask s) (ids.foldl InMemoryStorage.dropTask r) := by
  induction ids generalizing s r with
  | nil => exact h
  | cons id ids ih => exact ih (h.dropTask id)

/-- The tasks of a batch delivered at two different times are the same up to the clock. -/
theorem deliverAll (h : SameState s r) (name : String) (now now' : ℕ → Int) (ids : List String)
    (items : List (QueueItem α)) :
    SameState ((InMemoryStorage.deliverAll name now ids items).foldl InMemoryStorage.putTask s)
      ((InMemoryStorage.deliverAll name now' ids items).foldl InMemoryStorage.putTask r) := by
  unfold InMemoryStorage.deliverAll
  induction ids.zip items generalizing s r now now' with
  | nil => exact h
  | cons p ps ih =>
    rw [List.mapIdx_cons, List.mapIdx_cons, List.foldl_cons, List.foldl_cons]
    exact ih (h.putTask (InFlightTask.untimed_deliver ..)) (fun i => now (i + 1))
      (fun i => now' (i + 1))

/-- Returning a task has the same effect on both sides. -/
theorem requeue (h : SameState s r) {task task' : InFlightTask α}
    (ht : task.untimed = task'.untimed) :
    (∃ s' r', s.requeue task = .ok s' ∧ r.requeue task' = .ok r' ∧ SameState s' r') ∨
      ∃ e, s.requeue task = .error e ∧ r.requeue task' = .error e := by
  -- where a task goes and what is pushed do not depend on its clock reading
  have hitem : task.item = task'.item := by simpa using congrArg InFlightTask.item ht
  have hname : task.queueName = task'.queueName := by
    simpa using congrArg InFlightTask.queueName ht
  have hex : task.exhausted = task'.exhausted := by
    simpa using congrArg InFlightTask.exhausted ht
  unfold InMemoryStorage.requeue
  rw [hitem, hname, hex, h.queues]
  split
  · exact Or.inl ⟨_, _, rfl, rfl, h.setQueue ..⟩
  · cases r.queues.lookup task'.queueName with
    | none => exact Or.inr ⟨_, rfl, rfl⟩
    | some q => exact Or.inl ⟨_, _, rfl, rfl, h.setQueue ..⟩

theorem pushBack (h : SameState s r) (name : String) (items : List α) :
    SameState (s.orSelf (s.pushBack name items)) (r.orSelf (r.pushBack name items)) := by
  unfold InMemoryStorage.pushBack
  rw [h.queues]
  cases r.queues.lookup name with
  | none => exact h
  | some q => exact h.setQueue ..

theorem replayDeliveries (h : SameState s r) (now now' : ℕ → Int) (name : String)
    (ids : List String) :
    SameState (s.replayDeliveries now name ids) (r.replayDeliveries now' name ids) := by
  unfold InMemoryStorage.replayDeliveries
  rw [h.queues]
  cases r.queues.lookup name with
  | none => exact h
  | some items => exact (h.setQueue ..).deliverAll ..

/-- **Effects respect the state.** An entry has the same effect on two stores that agree up to
the clock, whatever the clock readings made on the way. -/
theorem effect (h : SameState s r) (now now' : ℕ → Int) (op : WalOp α) :
    SameState (s.effect now op) (r.effect now' op) := by
  cases op with
  | createQueue name =>
    simp only [InMemoryStorage.effect, h.queues]
    split
    · exact h
    · exact h.setQueue ..
  | enqueue queue data => exact h.pushBack ..
  | enqueueBatch queue data => exact h.pushBack ..
  | dequeued queue taskId => exact h.replayDeliveries ..
  | dequeuedBatch queue taskIds => exact h.replayDeliveries ..
  | ack taskId => exact h.dropTask taskId
  | ackBatch taskIds =>
    simp only [InMemoryStorage.effect, h.mem_inFlight]
    split
    · exact h.dropTasks taskIds
    · exact h
  | nack taskId =>
    simp only [InMemoryStorage.effect]
    cases hl : s.inFlight.lookup taskId with
    | none =>
      rw [h.lookup_none hl]
      exact h
    | some task =>
      obtain ⟨task', hl', ht⟩ := h.lookup_some hl
      rw [hl']
      -- both sides put the task back, or both have lost its queue
      obtain ⟨s', r', hs', hr', h'⟩ | ⟨e, hs', hr'⟩ := (h.dropTask taskId).requeue ht.symm
      · simpa only [hs', hr', InMemoryStorage.orSelf_ok] using h'
      · simpa only [hs', hr', InMemoryStorage.orSelf_error] using h.dropTask taskId
  | extendVisibility taskId duration =>
    simp only [InMemoryStorage.effect]
    cases hl : s.inFlight.lookup taskId with
    | none =>
      rw [h.lookup_none hl]
      exact h
    | some task =>
      obtain ⟨task', hl', ht⟩ := h.lookup_some hl
      rw [hl']
      exact h.insertTask taskId ht.symm

end SameState

namespace InMemoryStorage

/-- The tables after a list of entries, by their meaning alone. -/
def effects (s : InMemoryStorage α) (ops : List (WalOp α)) : InMemoryStorage α :=
  ops.foldl (fun s op => s.effect (fun _ => 0) op) s

theorem effects_append (s : InMemoryStorage α) (ops ops' : List (WalOp α)) :
    s.effects (ops ++ ops') = (s.effects ops).effects ops' :=
  List.foldl_append

@[simp] theorem setQueue_wal (s : InMemoryStorage α) (name : String)
    (items : List (QueueItem α)) : (s.setQueue name items).wal = s.wal := rfl

@[simp] theorem putTask_wal (s : InMemoryStorage α) (task : InFlightTask α) :
    (s.putTask task).wal = s.wal := rfl

@[simp] theorem dropTask_wal (s : InMemoryStorage α) (id : String) :
    (s.dropTask id).wal = s.wal := rfl

@[simp] theorem foldl_putTask_wal (s : InMemoryStorage α) (tasks : List (InFlightTask α)) :
    (tasks.foldl putTask s).wal = s.wal := by
  induction tasks generalizing s with
  | nil => rfl
  | cons task tasks ih => rw [List.foldl_cons, ih, putTask_wal]

theorem foldl_putTask_queues (s : InMemoryStorage α) (tasks : List (InFlightTask α)) :
    (tasks.foldl putTask s).queues = s.queues := by
  induction tasks generalizing s with
  | nil => rfl
  | cons task tasks ih =>
    rw [List.foldl_cons, ih]
    rfl

theorem foldl_dropTask_queues (s : InMemoryStorage α) (ids : List String) :
    (ids.foldl dropTask s).queues = s.queues := by
  induction ids generalizing s with
  | nil => rfl
  | cons id ids ih =>
    rw [List.foldl_cons, ih]
    rfl

@[simp] theorem foldl_dropTask_wal (s : InMemoryStorage α) (ids : List String) :
    (ids.foldl dropTask s).wal = s.wal := by
  induction ids generalizing s with
  | nil => rfl
  | cons id ids ih => rw [List.foldl_cons, ih, dropTask_wal]

/-! Which ids are in flight after a batch. -/

theorem mem_foldl_putTask (s : InMemoryStorage α) (tasks : List (InFlightTask α)) (id : String) :
    id ∈ (tasks.foldl putTask s).inFlight
      ↔ id ∈ s.inFlight ∨ id ∈ tasks.map InFlightTask.id := by
  induction tasks generalizing s with
  | nil => simp
  | cons task tasks ih =>
    rw [List.foldl_cons, ih, putTask, Finmap.mem_insert, List.map_cons, List.mem_cons]
    tauto

theorem mem_foldl_dropTask (s : InMemoryStorage α) (ids : List String) (id : String) :
    id ∈ (ids.foldl dropTask s).inFlight ↔ id ∈ s.inFlight ∧ id ∉ ids := by
  induction ids generalizing s with
  | nil => simp
  | cons id' ids ih =>
    rw [List.foldl_cons, ih, dropTask, Finmap.mem_erase, List.mem_cons]
    tauto

theorem deliverAll_cons (name : String) (now : ℕ → Int) (id : String) (ids : List String)
    (item : QueueItem α) (items : List (QueueItem α)) :
    deliverAll name now (id :: ids) (item :: items)
      = .deliver id name (now 0) item :: deliverAll name (fun i => now (i + 1)) ids items := by
  rw [deliverAll, List.zip_cons_cons, List.mapIdx_cons, deliverAll]

/-- What the tasks of a batch have from their items, they have in the order of the items. -/
theorem map_deliverAll {β : Type} {name : String} {f : InFlightTask α → β} {g : QueueItem α → β}
    (hfg : ∀ id now item, f (.deliver id name now item) = g item) (now : ℕ → Int)
    {ids : List String} {items : List (QueueItem α)} (hlen : ids.length = items.length) :
    (deliverAll name now ids items).map f = items.map g := by
  induction items generalizing now ids with
  | nil =>
    rw [List.length_nil, List.length_eq_zero_iff] at hlen
    rw [hlen]
    rfl
  | cons item items ih =>
    obtain ⟨id, ids, rfl⟩ := List.exists_cons_of_length_eq_add_one hlen
    rw [deliverAll_cons, List.map_cons, List.map_cons, hfg, ih _ (Nat.succ.inj hlen)]

/-- The tasks of a batch carry its ids, in order, as long as there are items for them. -/
theorem map_id_deliverAll (name : String) (now : ℕ → Int) (ids : List String)
    (items : List (QueueItem α)) :
    (deliverAll name now ids items).map InFlightTask.id = (ids.zip items).map Prod.fst := by
  unfold deliverAll
  induction ids.zip items generalizing now with
  | nil => rfl
  | cons p ps ih =>
    rw [List.mapIdx_cons, List.map_cons, List.map_cons]
    exact congrArg _ (ih fun i => now (i + 1))

theorem requeue_inFlight {s s' : InMemoryStorage α} {task : InFlightTask α}
    (h : s.requeue task = .ok s') : s'.inFlight = s.inFlight := by
  unfold requeue at h
  split at h
  · cases h; rfl
  · cases hl : s.queues.lookup task.queueName with
    | none => rw [hl] at h; cases h
    | some q => rw [hl] at h; cases h; rfl

theorem pushBack_inFlight {s s' : InMemoryStorage α} {name : String} {items : List α}
    (h : s.pushBack name items = .ok s') : s'.inFlight = s.inFlight := by
  unfold pushBack at h
  cases hl : s.queues.lookup name with
  | none => rw [hl] at h; cases h
  | some q => rw [hl] at h; cases h; rfl

theorem requeue_wal {s s' : InMemoryStorage α} {task : InFlightTask α}
    (h : s.requeue task = .ok s') : s'.wal = s.wal := by
  unfold requeue at h
  split at h
  · cases h; rfl
  · cases hl : s.queues.lookup task.queueName with
    | none => rw [hl] at h; cases h
    | some q => rw [hl] at h; cases h; rfl

theorem pushBack_wal {s s' : InMemoryStorage α} {name : String} {items : List α}
    (h : s.pushBack name items = .ok s') : s'.wal = s.wal := by
  unfold pushBack at h
  cases hl : s.queues.lookup name with
  | none => rw [hl] at h; cases h
  | some q => rw [hl] at h; cases h; rfl

theorem replayDeliveries_wal (s : InMemoryStorage α) (now : ℕ → Int) (name : String)
    (ids : List String) : (s.replayDeliveries now name ids).wal = s.wal := by
  unfold replayDeliveries
  cases s.queues.lookup name <;> simp

/-- Entries change the tables only. -/
theorem effect_wal (s : InMemoryStorage α) (now : ℕ → Int) (op : WalOp α) :
    (s.effect now op).wal = s.wal := by
  cases op with
  | createQueue name => simp only [effect]; split <;> rfl
  | enqueue queue data =>
    simp only [effect]
    cases h : s.pushBack queue [data] with
    | error e => rfl
    | ok s' => exact pushBack_wal h
  | enqueueBatch queue data =>
    simp only [effect]
    cases h : s.pushBack queue data with
    | error e => rfl
    | ok s' => exact pushBack_wal h
  | dequeued queue taskId => exact replayDeliveries_wal ..
  | dequeuedBatch queue taskIds => exact replayDeliveries_wal ..
  | ack taskId => rfl
  | ackBatch taskIds => simp only [effect]; split <;> simp
  | nack taskId =>
    simp only [effect]
    cases s.inFlight.lookup taskId with
    | none => rfl
    | some task =>
      simp only
      cases h : (s.dropTask taskId).requeue task with
      | error e => rfl
      | ok s' => rw [orSelf_ok, requeue_wal h, dropTask_wal]
  | extendVisibility taskId duration =>
    simp only [effect]
    cases s.inFlight.lookup taskId <;> rfl

/-- **Replay is the fold of the effects**, up to the clock: from equal states, a replay under any
clock and the bare effects of the same entries end in equal states. -/
theorem replayEntries_sameState {s r : InMemoryStorage α} (hwal : r.wal = none)
    (h : SameState s r) (envs : ℕ → Env) (entries : List (WalEntry α)) :
    SameState (s.effects (entries.map WalEntry.op)) (r.replayEntries envs entries) := by
  induction entries generalizing s r envs with
  | nil => exact h
  | cons entry entries ih =>
    have hr : (r.replayEntry (envs 0) entry).wal = none := by
      rw [replayEntry_eq_effect hwal, effect_wal, hwal]
    refine ih hr ?_ (fun k => envs (k + 1))
    rw [replayEntry_eq_effect hwal]
    exact h.effect ..

/-- What `new_persistent` rebuilds is the fold of the effects of the log. -/
theorem recover_sameState (envs : ℕ → Env) (entries : List (WalEntry α)) :
    SameState ((new : InMemoryStorage α).effects (entries.map WalEntry.op))
      (recover envs entries) :=
  (replayEntries_sameState rfl (SameState.refl new) envs entries).trans
    (SameState.of_tables rfl rfl)

end InMemoryStorage

end Oxideq
