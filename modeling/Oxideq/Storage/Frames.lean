import Oxideq.Lib.Frame
import Oxideq.Storage.Batches

/-!
# What a call leaves alone

A store is read at its cells: the pending items of a queue, and a task in flight by its queue and
its id. The in-flight table is shared by all queues, and a call that is given an id finds the task
there whatever queue it came from; so the cells a call may touch are named by its arguments only
in part, and for the rest by the tasks it finds (`Call.touched`). Everything else is as it was
(`framed_call`).

A task in flight never changes its queue. A call that hands out tasks could take one away from
another queue, by drawing an id that is in use; that it does not is the one thing to be assumed.
-/

namespace Oxideq

variable {α : Type}

/-! ### Cells -/

inductive Cell where
  | items (queue : String)
  | task (queue taskId : String)
  deriving DecidableEq, Repr

namespace Cell

def queue : Cell → String
  | .items queue => queue
  | .task queue _ => queue

/-- All the cells of a queue. -/
def cellsOf (name : String) : Set Cell := {p | p.queue = name}

theorem items_subset (name : String) : {.items name} ⊆ cellsOf name :=
  Set.singleton_subset_iff.mpr rfl

/-- What is read there. -/
abbrev Content (α : Type) : Cell → Type
  | .items _ => Option (List (QueueItem α))
  | .task _ _ => Option (InFlightTask α)

end Cell

namespace InMemoryStorage

open Cell

/-- The pending items of the queue, or the task with the id if it came from the queue. -/
def content (s : InMemoryStorage α) : (p : Cell) → p.Content α
  | .items queue => s.queues.lookup queue
  | .task queue taskId => (s.inFlight.lookup taskId).filter fun task => task.queueName = queue

/-- Where the task with the id is. -/
def cellOf (s : InMemoryStorage α) (taskId : String) : Set Cell :=
  {p | ∃ task, s.inFlight.lookup taskId = some task ∧ p = .task task.queueName taskId}

/-- Where `nack` would move the task with the id. -/
def returnOf (s : InMemoryStorage α) (taskId : String) : Set Cell :=
  {p | ∃ task, s.inFlight.lookup taskId = some task ∧
    p = .items (if task.exhausted then dlqName task.queueName else task.queueName)}

variable {s s' : InMemoryStorage α} {env : Env} {name id : String}

theorem content_congr (hq : s'.queues = s.queues) (hf : s'.inFlight = s.inFlight) :
    s'.content = s.content := by
  funext p
  cases p with
  | items queue => rw [content, content, hq]
  | task queue taskId => rw [content, content, hf]

theorem content_logged (s : InMemoryStorage α) (env : Env) (op : WalOp α) :
    (s.logged env op).content = s.content := content_congr rfl rfl

theorem framed_setQueue (s : InMemoryStorage α) (name : String) (items : List (QueueItem α)) :
    Framed content {.items name} s (s.setQueue name items) := by
  intro p hp
  cases p with
  | items queue =>
    refine Finmap.lookup_insert_of_ne _ fun heq => hp ?_
    rw [heq]
    rfl
  | task queue taskId => rfl

/-- A task comes into the table, in a cell of its own or of a task of the same queue. -/
theorem framed_insert {task : InFlightTask α}
    (h : ∀ old, s.inFlight.lookup id = some old → old.queueName = task.queueName) :
    Framed content {.task task.queueName id} s
      { s with inFlight := s.inFlight.insert id task } := by
  intro p hp
  cases p with
  | items queue => rfl
  | task queue taskId =>
    by_cases hid : taskId = id
    · subst hid
      have hne : task.queueName ≠ queue := fun heq => hp (by rw [heq]; rfl)
      -- neither the task nor what it replaces is of the queue
      have hold : (s.inFlight.lookup taskId).filter (fun t => decide (t.queueName = queue))
          = none := by
        refine Option.filter_eq_none_iff.mpr fun old hl => ?_
        rw [h old hl, decide_eq_true_eq]
        exact hne
      rw [content, content, hold, Finmap.lookup_insert, Option.filter_some, if_neg]
      simpa using hne
    · rw [content, content, Finmap.lookup_insert_of_ne _ hid]

theorem framed_dropTask (s : InMemoryStorage α) (id : String) :
    Framed content (s.cellOf id) s (s.dropTask id) := by
  intro p hp
  cases p with
  | items queue => rfl
  | task queue taskId =>
    by_cases hid : taskId = id
    · subst hid
      rw [content, content, dropTask, Finmap.lookup_erase, Option.filter_none]
      refine (Option.filter_eq_none_iff.mpr fun task hl hq => hp ⟨task, hl, ?_⟩).symm
      rw [of_decide_eq_true hq]
    · rw [content, content, dropTask, Finmap.lookup_erase_ne hid]

/-! ### The methods -/

/-- An append of its own touches nothing. -/
theorem framed_of_logged {touched : Set Cell} (env : Env) (op : WalOp α)
    (h : Framed content touched (s.logged env op) s') : Framed content touched s s' :=
  (Framed.of_eq (content_logged s env op)).trans h

theorem framed_createQueue (s : InMemoryStorage α) (env : Env) (name : String) :
    Framed content {.items name} s (s.createQueue env name).2 := by
  unfold createQueue
  split
  · exact .refl s
  obtain h | ⟨e, h⟩ := s.logOp_cases env (.createQueue name)
  · rw [h]
    exact framed_of_logged env (.createQueue name) (framed_setQueue _ name [])
  · rw [h]
    exact .refl s

theorem framed_pushBack {items : List α} (h : s.pushBack name items = .ok s') :
    Framed content {.items name} s s' := by
  unfold pushBack at h
  split at h
  · cases h
  · cases h
    exact framed_setQueue s name _

theorem framed_queue (s : InMemoryStorage α) (env : Env) (name : String) (item : α) :
    Framed content {.items name} s (s.queue env name item).2 := by
  unfold queue
  split
  · exact .refl s
  obtain h | ⟨e, h⟩ := s.logOp_cases env (.enqueue name item)
  · simp only [h]
    refine framed_of_logged env (.enqueue name item) ?_
    split
    · exact .refl _
    · next hpush => exact framed_pushBack hpush
  · rw [h]
    exact .refl s

theorem framed_queueBatch (s : InMemoryStorage α) (env : Env) (name : String) (items : List α) :
    Framed content {.items name} s (s.queueBatch env name items).2 := by
  unfold queueBatch
  split
  · exact .refl s
  obtain h | ⟨e, h⟩ := s.logOp_cases env (.enqueueBatch name items)
  · simp only [h]
    refine framed_of_logged env (.enqueueBatch name items) ?_
    split
    · exact .refl _
    · next hpush => exact framed_pushBack hpush
  · rw [h]
    exact .refl s

/-! Tasks that are handed out. -/

theorem framed_cells_setQueue (s : InMemoryStorage α) (name : String)
    (items : List (QueueItem α)) : Framed content (cellsOf name) s (s.setQueue name items) :=
  (framed_setQueue s name items).mono (items_subset name)

/-- A task of the queue comes into the table, under an id that no task of another queue has. -/
theorem framed_putTask {task : InFlightTask α} (hq : task.queueName = name)
    (h : ∀ old, s.inFlight.lookup task.id = some old → old.queueName = name) :
    Framed content (cellsOf name) s (s.putTask task) := by
  refine Framed.mono (framed_insert fun old hl => ?_) (Set.singleton_subset_iff.mpr hq)
  rw [h old hl, hq]

theorem framed_foldl_putTask {tasks : List (InFlightTask α)}
    (hq : ∀ task ∈ tasks, task.queueName = name)
    (h : ∀ task ∈ tasks, ∀ old, s.inFlight.lookup task.id = some old → old.queueName = name) :
    Framed content (cellsOf name) s (tasks.foldl putTask s) := by
  induction tasks generalizing s with
  | nil => exact .refl s
  | cons task tasks ih =>
    have hhead := framed_putTask (hq task List.mem_cons_self) (h task List.mem_cons_self)
    refine hhead.trans (ih (fun t ht => hq t (List.mem_cons_of_mem _ ht)) fun t ht old hl => ?_)
    -- the tasks before it are of the queue as well
    by_cases hid : t.id = task.id
    · rw [hid, putTask, Finmap.lookup_insert] at hl
      cases hl
      exact hq task List.mem_cons_self
    · rw [putTask, Finmap.lookup_insert_of_ne _ hid] at hl
      exact h t (List.mem_cons_of_mem _ ht) old hl

theorem framed_dequeue (hfresh : env.uuid 0 ∉ s.inFlight) :
    Framed content (cellsOf name) s (s.dequeue env name).2 := by
  unfold dequeue
  split
  · exact .refl s
  · exact .refl s
  next item rest hl =>
  obtain h | ⟨e, h⟩ := (s.setQueue name rest).logOp_cases env (.dequeued name (env.uuid 0))
  · simp only [h]
    refine (framed_cells_setQueue s name rest).trans ?_
    refine framed_of_logged env (.dequeued name (env.uuid 0)) ?_
    refine framed_putTask rfl fun old hold => ?_
    exact absurd ((Finmap.lookup_eq_none.mpr hfresh).symm.trans hold) nofun
  · simp only [h]
    exact (framed_cells_setQueue s name rest).trans (framed_cells_setQueue _ name _)

theorem queueName_deliverAll {now : ℕ → Int} {ids : List String} {items : List (QueueItem α)}
    {task : InFlightTask α} (h : task ∈ deliverAll name now ids items) : task.queueName = name := by
  obtain ⟨i, hi, rfl⟩ := List.mem_mapIdx.mp h
  rfl

theorem framed_dequeueBatch (hfresh : ∀ k, env.uuid k ∉ s.inFlight) (count : UInt64) :
    Framed content (cellsOf name) s (s.dequeueBatch env name count).2 := by
  unfold dequeueBatch
  split
  · exact .refl s
  next items hl =>
  split
  · exact .refl s
  split
  · exact .refl s
  -- from here on the items are popped
  refine (framed_cells_setQueue s name (items.drop count.toNat)).trans ?_
  dsimp only
  split
  · exact .refl _
  generalize hids : (List.range (items.take count.toNat).length).map env.uuid = ids
  obtain h | ⟨e, h⟩ :=
    (s.setQueue name (items.drop count.toNat)).logOp_cases env (.dequeuedBatch name ids)
  · simp only [h]
    refine framed_of_logged env (.dequeuedBatch name ids) ?_
    refine framed_foldl_putTask (fun task ht => ?_) fun task ht old hold => ?_
    · exact queueName_deliverAll ht
    · have hid := List.mem_map_of_mem (f := InFlightTask.id) ht
      rw [map_id_deliverAll, ← hids] at hid
      obtain ⟨pair, hpair, hpair'⟩ := List.mem_map.mp hid
      obtain ⟨k, -, hk⟩ := List.mem_map.mp (List.of_mem_zip hpair).1
      rw [← hpair', ← hk] at hold
      exact absurd ((Finmap.lookup_eq_none.mpr (hfresh k)).symm.trans hold) nofun
  · simp only [h]
    exact framed_cells_setQueue _ name _

/-! Tasks that are found by their id. -/

theorem framed_ack (s : InMemoryStorage α) (env : Env) (id : String) :
    Framed content (s.cellOf id) s (s.ack env id).2 := by
  unfold ack
  split
  · exact .refl s
  obtain h | ⟨e, h⟩ := (s.dropTask id).logOp_cases env (.ack id)
  · simp only [h]
    exact (framed_dropTask s id).trans (.of_eq (content_logged _ env _))
  · simp only [h]
    exact framed_dropTask s id

theorem framed_ackBatch (s : InMemoryStorage α) (env : Env) (ids : List String) :
    Framed content {p | ∃ id ∈ ids, p ∈ s.cellOf id} s (s.ackBatch env ids).2 := by
  unfold ackBatch
  dsimp only
  split
  · exact .refl s
  obtain h | ⟨e, h⟩ := s.logOp_cases env (.ackBatch ids)
  · simp only [h]
    refine framed_of_logged env (.ackBatch ids) fun p hp => ?_
    cases p with
    | items queue => rw [content, content, foldl_dropTask_queues]
    | task queue taskId =>
      rw [content, content, lookup_foldl_dropTask]
      split
      · next hid =>
        rw [Option.filter_none]
        refine (Option.filter_eq_none_iff.mpr fun task hl hq => hp ⟨taskId, hid, task, hl, ?_⟩).symm
        rw [of_decide_eq_true hq]
      · rfl
  · rw [h]
    exact .refl s

theorem framed_extendVisibility (s : InMemoryStorage α) (env : Env) (id : String)
    (duration : UInt64) :
    Framed content (s.cellOf id) s (s.extendVisibility env id duration).2 := by
  unfold extendVisibility
  split
  · exact .refl s
  next task hl =>
  obtain h | ⟨e, h⟩ := s.logOp_cases env (.extendVisibility id duration)
  · simp only [h]
    refine framed_of_logged env (.extendVisibility id duration) ?_
    refine Framed.mono (framed_insert fun old hold => ?_) ?_
    · rw [logged_inFlight, hl] at hold
      cases hold
      rfl
    · rintro p rfl
      exact ⟨task, hl, rfl⟩
  · simp only [h]
    exact .refl s

theorem framed_requeue {task : InFlightTask α} (h : s.requeue task = .ok s') :
    Framed content {.items (if task.exhausted then dlqName task.queueName else task.queueName)}
      s s' := by
  unfold requeue at h
  split at h
  · next hexhausted =>
    cases h
    rw [if_pos hexhausted]
    exact framed_setQueue s _ _
  · next hexhausted =>
    rw [if_neg hexhausted]
    split at h
    · cases h
      exact framed_setQueue s _ _
    · cases h

theorem framed_nack (s : InMemoryStorage α) (env : Env) (id : String) :
    Framed content (s.cellOf id ∪ s.returnOf id) s (s.nack env id).2 := by
  unfold nack
  split
  · exact .refl s
  next task hl =>
  obtain h | ⟨e, h⟩ := (s.dropTask id).logOp_cases env (.nack id)
  · simp only [h]
    have hdrop := (framed_dropTask s id).mono (Set.subset_union_left (t := s.returnOf id))
    refine hdrop.trans (framed_of_logged env (.nack id) ?_)
    split
    · exact .refl _
    · next hrequeue =>
      refine (framed_requeue hrequeue).mono ?_
      rintro p rfl
      exact Or.inr ⟨task, hl, rfl⟩
  · simp only [h]
    -- the task is put back where it was
    rw [insert_dropTask hl]
    exact .refl s

/-- A cleanup is a list of `nack`s. -/
theorem framed_nackAll (envs : ℕ → Env) (s : InMemoryStorage α) (ids : List String) (count : ℕ) :
    Framed content {p | ∃ id ∈ ids, p ∈ s.cellOf id ∪ s.returnOf id} s
      (s.nackAll envs ids count).2 := by
  induction ids generalizing s envs count with
  | nil => exact .refl s
  | cons id ids ih =>
    have hhead : Framed content {p | ∃ id' ∈ id :: ids, p ∈ s.cellOf id' ∪ s.returnOf id'} s
        (s.nack (envs 0) id).2 :=
      (framed_nack s (envs 0) id).mono fun p hp => ⟨id, List.mem_cons_self, hp⟩
    -- what is in flight after the first `nack` was in flight before
    have hlookup : ∀ {id' task}, (s.nack (envs 0) id).2.inFlight.lookup id' = some task →
        s.inFlight.lookup id' = some task := by
      intro id' task hl
      obtain hn | hn := s.nack_inFlight (envs 0) id
      · rwa [hn] at hl
      · rw [hn] at hl
        by_cases hid : id' = id
        · rw [hid, Finmap.lookup_erase] at hl
          cases hl
        · rwa [Finmap.lookup_erase_ne hid] at hl
    have hrest : ∀ count', Framed content
        {p | ∃ id' ∈ id :: ids, p ∈ s.cellOf id' ∪ s.returnOf id'} (s.nack (envs 0) id).2
        ((s.nack (envs 0) id).2.nackAll (fun k => envs (k + 1)) ids count').2 := by
      intro count'
      refine (ih (fun k => envs (k + 1)) _ count').mono ?_
      rintro p ⟨id', hid', hp⟩
      refine ⟨id', List.mem_cons_of_mem _ hid', hp.imp ?_ ?_⟩
      · rintro ⟨task, hl, rfl⟩
        exact ⟨task, hlookup hl, rfl⟩
      · rintro ⟨task, hl, rfl⟩
        exact ⟨task, hlookup hl, rfl⟩
    unfold nackAll
    split
    · next heq =>
      rw [heq] at hhead hrest
      exact hhead.trans (hrest _)
    · next heq =>
      rw [heq] at hhead hrest
      exact hhead.trans (hrest _)

theorem framed_cleanupExpiredTasks (envs : ℕ → Env) (s : InMemoryStorage α)
    (timeoutSeconds : UInt64) :
    Framed content {p | ∃ id, p ∈ s.cellOf id ∪ s.returnOf id} s
      (s.cleanupExpiredTasks envs timeoutSeconds).2 := by
  unfold cleanupExpiredTasks
  split
  · refine (framed_nackAll _ s _ 0).mono ?_
    rintro p ⟨id, -, hp⟩
    exact ⟨id, hp⟩
  · exact .refl s
  · exact .refl s

end InMemoryStorage

/-! ### Calls -/

/-- What a call may touch. -/
def Call.touched (s : InMemoryStorage α) : Call α → Set Cell
  | .createQueue name => {.items name}
  | .queue name _ => {.items name}
  | .queueBatch name _ => {.items name}
  | .dequeue name => Cell.cellsOf name
  | .dequeueBatch name _ => Cell.cellsOf name
  | .ack taskId => s.cellOf taskId
  | .ackBatch taskIds => {p | ∃ taskId ∈ taskIds, p ∈ s.cellOf taskId}
  | .nack taskId => s.cellOf taskId ∪ s.returnOf taskId
  | .extendVisibility taskId _ => s.cellOf taskId
  | .cleanupExpiredTasks _ => {p | ∃ taskId, p ∈ s.cellOf taskId ∪ s.returnOf taskId}

/-- **A call touches nothing else**, as long as the ids it draws are not in use. -/
theorem InMemoryStorage.framed_call {s : InMemoryStorage α} {envs : ℕ → Env}
    (hfresh : ∀ k, (envs 0).uuid k ∉ s.inFlight) (c : Call α) :
    Framed content (c.touched s) s (s.call envs c).2 := by
  cases c with
  | createQueue name => exact framed_createQueue s (envs 0) name
  | queue name item => exact framed_queue s (envs 0) name item
  | queueBatch name items => exact framed_queueBatch s (envs 0) name items
  | dequeue name => exact framed_dequeue (hfresh 0)
  | dequeueBatch name count => exact framed_dequeueBatch hfresh count
  | ack taskId => exact framed_ack s (envs 0) taskId
  | ackBatch taskIds => exact framed_ackBatch s (envs 0) taskIds
  | nack taskId => exact framed_nack s (envs 0) taskId
  | extendVisibility taskId duration => exact framed_extendVisibility s (envs 0) taskId duration
  | cleanupExpiredTasks timeoutSeconds => exact framed_cleanupExpiredTasks envs s timeoutSeconds

end Oxideq
