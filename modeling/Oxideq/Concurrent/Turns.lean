import Oxideq.Concurrent.Conservation

/-!
# Turns

The moves of a call on a persistent store, by what they do to the queues and to the in-flight
table: `Phase.Turn` has one constructor for each way from phase to phase. A call takes what it
needs out of the tables as it gets its work, writes its entry, and completes the work; where the
append fails, it puts back what it took.

`Thread.Serves` says what a thread can have in hand, given the call it was started with.
-/

namespace Oxideq

variable {ι α : Type}

/-! ### Queue ends -/

namespace Work

/-- What the work took from the front of the queue. -/
def popped : Work α → String → List (QueueItem α)
  | .dequeue name item _, q => if q = name then [item] else []
  | .dequeueBatch name deliveries, q => if q = name then deliveries.map Prod.snd else []
  | _, _ => []

/-- What the work will push to the front of the queue. -/
def frontPush : Work α → String → List (QueueItem α)
  | .nack _ task, q => if task.exhausted = false ∧ q = task.queueName then [task.item] else []
  | _, _ => []

/-- What the work will push behind the queue. -/
def backPush : Work α → String → List (QueueItem α)
  | .queue name item, q => if q = name then [⟨item, 0⟩] else []
  | .queueBatch name items, q => if q = name then items.map fun d => ⟨d, 0⟩ else []
  | .nack _ task, q =>
    if task.exhausted = true ∧ q = dlqName task.queueName then [task.item] else []
  | _, _ => []

/-- The queue the work may add to the table. -/
def makes : Work α → Option String
  | .createQueue name => some name
  | .nack _ task => if task.exhausted then some (dlqName task.queueName) else none
  | _ => none

theorem returned_of_tasks {w : Work α} (h : w.tasks = []) : w.returned = [] :=
  (List.append_eq_nil_iff.mp h).2

theorem popped_of_tasks {w : Work α} (h : w.tasks = []) (q : String) : w.popped q = [] := by
  cases w with
  | dequeue name item taskId => cases h
  | dequeueBatch name deliveries =>
    rw [tasks_dequeueBatch, List.map_eq_nil_iff] at h
    simp [popped, h]
  | _ => rfl

end Work

theorem InMemoryStorage.items_setQueue (s : InMemoryStorage α) (name q : String)
    (items : List (QueueItem α)) :
    (s.setQueue name items).items q = if q = name then items else s.items q := by
  unfold InMemoryStorage.items InMemoryStorage.setQueue
  split
  · next h => rw [h, Finmap.lookup_insert, Option.getD_some]
  · next h => rw [Finmap.lookup_insert_of_ne _ h]

/-- A queue that does not exist has no items either. -/
theorem InMemoryStorage.items_setQueue_nil (s : InMemoryStorage α) {name : String}
    (h : name ∉ s.queues) (q : String) : (s.setQueue name []).items q = s.items q := by
  rw [items_setQueue]
  split
  · next hq => rw [hq, items_of_notMem h]
  · rfl

/-! What the accesses to a queue do to every queue. -/

section Items

variable (s : InMemoryStorage α) (env : Env) (name q : String)

theorem Access.items_pushBack (items : List (QueueItem α)) :
    ((Access.pushBack name items).run s env).items q
      = s.items q ++ if q = name then items else [] := by
  rw [Access.run, InMemoryStorage.items_setQueue]
  split
  · next hq => rw [hq]
  · exact (List.append_nil _).symm

theorem Access.items_pushFront (items : List (QueueItem α)) :
    ((Access.pushFront name items).run s env).items q
      = (if q = name then items else []) ++ s.items q := by
  rw [Access.run, InMemoryStorage.items_setQueue]
  split
  · next hq => rw [hq]
  · rfl

theorem Access.items_pop (count : ℕ) :
    s.items q = (if q = name then (s.items name).take count else [])
      ++ ((Access.pop name count).run s env).items q := by
  rw [Access.run, InMemoryStorage.items_setQueue]
  split
  · next hq => rw [hq, List.take_append_drop]
  · rfl

variable {name}

theorem Access.items_insertQueue (h : name ∉ s.queues) :
    ((Access.insertQueue name).run s env).items q = s.items q :=
  s.items_setQueue_nil h q

end Items

/-! ### Turns -/

/-- The entries written to the log. -/
def InMemoryStorage.written (s : InMemoryStorage α) : List (WalEntry α) :=
  s.wal.elim [] WalManager.written

def InMemoryStorage.ops (s : InMemoryStorage α) : List (WalOp α) := s.written.map WalEntry.op

/-- The operations an access writes to the log. -/
def Access.ops : Access α → List (WalOp α)
  | .log op => [op]
  | _ => []

theorem Access.wal_run (s : InMemoryStorage α) (env : Env) (a : Access α) :
    (a.run s env).wal.isSome = s.wal.isSome := by
  cases a with
  | log op => exact Option.isSome_map ..
  | _ => rfl

theorem Access.ops_run {s : InMemoryStorage α} (h : s.wal.isSome) (env : Env) (a : Access α) :
    (a.run s env).ops = s.ops ++ a.ops := by
  cases a with
  | log op =>
    obtain ⟨m, hm⟩ := Option.isSome_iff_exists.mp h
    simp [Access.run, InMemoryStorage.ops, InMemoryStorage.written, InMemoryStorage.logged, hm,
      WalManager.extend, Access.ops]
  | _ => exact (List.append_nil _).symm

namespace Phase

/-- From the tables `s` to the tables `s'` by a step from phase to phase, on which `acks` are
acknowledged and `ops` logged. -/
inductive Turn (s s' : InMemoryStorage α) (acks : List (InFlightTask α)) (ops : List (WalOp α)) :
    Phase α → Phase α → Prop
  | rest (hq : ∀ q, s'.items q = s.items q) (ht : s'.inFlightTasks = s.inFlightTasks)
    (ha : acks = []) (ho : ops = []) : Turn s s' acks ops .idle .idle
  | enter {w : Work α} (hq : ∀ q, s.items q = w.popped q ++ s'.items q)
    (ht : s.inFlightTasks = s'.inFlightTasks + w.returned + acks)
    (ha : ∀ t ∈ acks, w = .ack t.id) (hack : ∀ id, w = .ack id → ∃ t ∈ acks, t.id = id)
    (ho : ops = []) : Turn s s' acks ops .idle (.unlogged w)
  | wait {w : Work α} (hq : ∀ q, s'.items q = s.items q)
    (ht : s'.inFlightTasks = s.inFlightTasks) (ha : acks = []) (ho : ops = []) :
    Turn s s' acks ops (.unlogged w) (.unlogged w)
  | undo {w : Work α} (hq : ∀ q, s'.items q = w.popped q ++ s.items q)
    (ht : s'.inFlightTasks = s.inFlightTasks + w.returned) (ha : acks = []) (ho : ops = []) :
    Turn s s' acks ops (.unlogged w) .idle
  | log {w : Work α} (hq : ∀ q, s'.items q = s.items q)
    (ht : s'.inFlightTasks = s.inFlightTasks) (ha : acks = []) (ho : ops = [w.op]) :
    Turn s s' acks ops (.unlogged w) (.logged w)
  | go {w w' : Work α} (hq : ∀ q, s'.items q = s.items q)
    (ht : s'.inFlightTasks + w'.delivered + acks = s.inFlightTasks + w.delivered)
    (hf : ∀ q, w.frontPush q = [] ∧ w'.frontPush q = [])
    (hb : ∀ q, w.backPush q = [] ∧ w'.backPush q = [])
    (ha : ∀ t ∈ acks, ∃ todo, w = .ackBatch (t.id :: todo)) (ho : ops = [])
    (hm : w'.makes = none) :
    Turn s s' acks ops (.logged w) (.logged w')
  | finish {w : Work α} (hq : ∀ q, s'.items q = w.frontPush q ++ s.items q ++ w.backPush q)
    (ht : s'.inFlightTasks = s.inFlightTasks + w.delivered) (ha : acks = []) (ho : ops = []) :
    Turn s s' acks ops (.logged w) .idle

end Phase

namespace Pc

variable {s : InMemoryStorage α} {env : Env} {pc pc' : Pc α} {a : Access α}

theorem Move.turn (hm : Move s env pc a pc') (hwal : s.wal.isSome) (hs : s.Valid)
    (hp : pc.phase.Valid s)
    (hids : ((s.inFlightTasks + pc.phase.tasks).map InFlightTask.id).Nodup)
    (hnew : ∀ name, a = .insertQueue name → name ∉ s.queues) :
    Phase.Turn s (a.run s env) (acks s pc) a.ops pc.phase pc'.phase := by
  have hlog : ∀ w : Work α, (toLog s w).phase = .unlogged w := fun w => by
    rw [phase_toLog, if_pos hwal]
  -- Up to the log: what the call takes out of the tables it has in hand afterwards.
  cases hm with
  | @reject c r hr hack => exact .rest (fun q => rfl) rfl (acks_reject hack) rfl
  | scan => exact .rest (fun q => rfl) rfl rfl rfl
  | createQueue h | queue h | queueBatch h | extendVisibility h | verified =>
    rw [hlog]
    exact .enter (fun q => rfl) (by simp [acks, Work.returned]) (by simp [acks]) (by simp) rfl
  | @dequeue name item rest h =>
    rw [hlog]
    refine .enter (fun q => ?_) (by simp [acks, Work.returned, Access.run]) (by simp [acks])
      (by simp) rfl
    have hpop := Access.items_pop s env name q 1
    rwa [InMemoryStorage.items_of_lookup h] at hpop
  | @dequeueBatch name count items deliveries h hcap hd hne =>
    rw [hlog]
    refine .enter (fun q => ?_) (by simp [acks, Work.returned, Access.run]) (by simp [acks])
      (by simp) rfl
    have hpop := Access.items_pop s env name q count.toNat
    rwa [InMemoryStorage.items_of_lookup h, ← hd] at hpop
  | @ack id task h =>
    rw [hlog]
    have hid : task.id = id := hs.id_eq h
    refine .enter (fun q => rfl) ?_ (by simp [acks, h, hid]) (by simp [acks, h, hid]) rfl
    rw [← InMemoryStorage.inFlightTasks_dropTask h]
    simp [acks, h, Work.returned, Access.run, add_comm]
  | @nack id task h =>
    rw [hlog]
    refine .enter (fun q => rfl) ?_ (by simp [acks]) (by simp) rfl
    rw [← InMemoryStorage.inFlightTasks_dropTask h]
    simp [acks, Work.returned, Access.run, add_comm]
  | ackBatch => exact .rest (fun q => rfl) rfl rfl rfl
  | verify => exact .rest (fun q => rfl) rfl rfl rfl
  | unverified => exact .rest (fun q => rfl) rfl rfl rfl
  | acquire => exact .wait (fun q => rfl) rfl rfl rfl
  -- The append, or the way back.
  | append h =>
    rw [phase_afterLog]
    exact .log (fun q => rfl) rfl rfl rfl
  | @appendFails w e h =>
    obtain hf | ⟨hw, e', hf⟩ := failLog_cases e w
    · rw [hf]
      exact .wait (fun q => rfl) rfl rfl rfl
    · rw [hf]
      refine .undo (fun q => ?_) (by simp [Work.returned_of_tasks hw]) rfl rfl
      rw [Work.popped_of_tasks hw, List.nil_append, Access.run_look]
  | @undoDequeue name taskId e item =>
    exact .undo (fun q => Access.items_pushFront s env name q [item])
      (by simp [Work.returned, Access.run]) rfl rfl
  | @undoDequeueBatch name e deliveries =>
    exact .undo (fun q => Access.items_pushFront s env name q (deliveries.map Prod.snd))
      (by simp [Work.returned, Access.run]) rfl rfl
  | @undoNack id e task =>
    have hput := inFlightTasks_of_inHand hs hids id task (hp.id_eq rfl) (by simp)
    exact .undo (fun q => rfl) (by simp [Work.returned, Access.run, hput, add_comm]) rfl rfl
  | @undoNothing w e hw =>
    refine .undo (fun q => ?_) (by simp [Work.returned_of_tasks hw]) rfl rfl
    rw [Work.popped_of_tasks hw, List.nil_append, Access.run_look]
  -- Behind the log: the work is completed.
  | @insertQueue name =>
    -- `create_queue` inserts an empty queue, which is a turn only where there was none
    refine .finish (fun q => ?_) (by simp [Work.delivered, Access.run]) rfl rfl
    rw [Access.items_insertQueue s env q (hnew name rfl)]
    exact (List.append_nil _).symm
  | @push name item h =>
    exact .finish (fun q => Access.items_pushBack s env name q [⟨item, 0⟩])
      (by simp [Work.delivered, Access.run]) rfl rfl
  | @pushBatch name items h =>
    exact .finish (fun q => Access.items_pushBack s env name q (items.map fun d => ⟨d, 0⟩))
      (by simp [Work.delivered, Access.run]) rfl rfl
  | @insertTask name taskId item r =>
    have hput := inFlightTasks_of_inHand hs hids taskId
      (InFlightTask.deliver taskId name (env.now 0) item) rfl (List.mem_singleton_self _)
    refine .finish (fun q => ?_) (by simp [Work.delivered, Access.run, hput, add_comm]) rfl rfl
    exact (List.append_nil _).symm
  | @bury id task h =>
    refine .finish (fun q => ?_) (by simp [Work.delivered, Access.run]) rfl rfl
    rw [Access.items_pushBack]
    simp [Work.frontPush, Work.backPush, h]
  | @requeue id task h hq =>
    refine .finish (fun q => ?_) (by simp [Work.delivered, Access.run]) rfl rfl
    rw [Access.items_pushFront]
    simp [Work.frontPush, Work.backPush, h]
  -- the queue the work is about was there when it began, and none is ever removed
  | lost hw h => exact absurd (hp.target_mem hw) h
  | @touch id duration task h =>
    have htouch := InMemoryStorage.inFlightTasks_touch h { task with consumedAt := env.now 0 } rfl
    refine .finish (fun q => ?_) (by simpa [Work.delivered, Access.run] using htouch) rfl rfl
    exact (List.append_nil _).symm
  | untouched =>
    exact .finish (fun q => (List.append_nil _).symm) (by simp [Work.delivered]) rfl rfl
  | acked => exact .finish (fun q => (List.append_nil _).symm) (by simp [Work.delivered]) rfl rfl
  -- The two loops over the in-flight table, one task at a time.
  | beginInsert | beginRemove =>
    exact .go (fun q => rfl) (by simp [acks]) (fun q => ⟨rfl, rfl⟩) (fun q => ⟨rfl, rfl⟩)
      (by simp [acks]) rfl rfl
  | @insertTasks name taskId item todo tasks tasks' =>
    have hput := inFlightTasks_of_inHand hs hids taskId
      (InFlightTask.deliver taskId name (env.now 0) item) rfl List.mem_cons_self
    refine .go (fun q => rfl) ?_ (fun q => ⟨rfl, rfl⟩) (fun q => ⟨rfl, rfl⟩) (by simp [acks]) rfl
      rfl
    simp [acks, Work.delivered, Access.run, hput, ← Multiset.cons_coe]
  | insertedTasks =>
    exact .finish (fun q => (List.append_nil _).symm) (by simp [Work.delivered]) rfl rfl
  | @removeTasks id todo =>
    refine .go (fun q => rfl) ?_ (fun q => ⟨rfl, rfl⟩) (fun q => ⟨rfl, rfl⟩) ?_ rfl rfl
    · simpa [Work.delivered, Access.run] using inFlightTasks_removeTasks s id todo
    · intro t ht
      obtain ⟨task, hl, rfl⟩ : ∃ task, s.inFlight.lookup id = some task ∧ task.untimed = t := by
        simpa [acks] using ht
      have hid : task.id = id := hs.id_eq hl
      exact ⟨todo, by rw [InFlightTask.untimed_id, hid]⟩
  | removedTasks =>
    exact .finish (fun q => (List.append_nil _).symm) (by simp [Work.delivered]) rfl rfl
  | scanned => exact .rest (fun q => rfl) rfl rfl rfl
  | done => exact .rest (fun q => rfl) rfl rfl rfl

/-- A queue that is new after a move was made by it. -/
theorem Move.mem_queues (hm : Move s env pc a pc') (hp : pc.phase.Valid s) {q : String}
    (hq : q ∈ (a.run s env).queues) :
    q ∈ s.queues ∨ ∃ w, pc.phase = .logged w ∧ w.makes = some q := by
  have hset : ∀ {name : String} {items : List (QueueItem α)}, name ∈ s.queues →
      q ∈ (s.setQueue name items).queues → q ∈ s.queues := by
    intro name items hname hmem
    rcases Finmap.mem_insert.mp hmem with rfl | hmem
    · exact hname
    · exact hmem
  cases hm with
  | dequeue h => exact Or.inl (hset (Finmap.mem_iff.mpr ⟨_, h⟩) hq)
  | dequeueBatch h hcap hitems hne => exact Or.inl (hset (Finmap.mem_iff.mpr ⟨_, h⟩) hq)
  | undoDequeue => exact Or.inl (hset (hp.target_mem rfl) hq)
  | undoDequeueBatch => exact Or.inl (hset (hp.target_mem rfl) hq)
  | insertQueue =>
    rcases Finmap.mem_insert.mp hq with rfl | hq
    · exact Or.inr ⟨_, rfl, rfl⟩
    · exact Or.inl hq
  | push h => exact Or.inl (hset h hq)
  | pushBatch h => exact Or.inl (hset h hq)
  | bury h =>
    rcases Finmap.mem_insert.mp hq with rfl | hq
    · exact Or.inr ⟨_, rfl, if_pos h⟩
    · exact Or.inl hq
  | requeue h hname => exact Or.inl (hset hname hq)
  | _ => exact Or.inl hq

/-- A task leaves the table by being acknowledged, or taken by a `nack`. -/
theorem Move.mem_inFlight (hm : Move s env pc a pc') (hs : s.Valid) {id : String}
    (h : id ∈ s.inFlight) :
    id ∈ (a.run s env).inFlight ∨ id ∈ (acks s pc).map InFlightTask.id ∨
      pc = .start (.nack id) := by
  obtain ⟨task, hl⟩ := Finmap.mem_iff.mp h
  have hid : task.id = id := hs.id_eq hl
  have hdrop : ∀ {id'}, id ≠ id' → id ∈ (s.dropTask id').inFlight := fun hne =>
    Finmap.mem_erase.mpr ⟨hne, h⟩
  cases hm with
  | @ack id' task' hl' =>
    by_cases hne : id = id'
    · subst hne
      exact Or.inr (Or.inl (by simp [acks, hl, hid]))
    · exact Or.inl (hdrop hne)
  | @nack id' task' hl' =>
    by_cases hne : id = id'
    · exact Or.inr (Or.inr (by rw [hne]))
    · exact Or.inl (hdrop hne)
  | @removeTasks id' todo =>
    by_cases hne : id = id'
    · subst hne
      exact Or.inr (Or.inl (by simp [acks, hl, hid]))
    · exact Or.inl (hdrop hne)
  | undoNack => exact Or.inl (Finmap.mem_insert.mpr (Or.inr h))
  | insertTask => exact Or.inl (Finmap.mem_insert.mpr (Or.inr h))
  | touch hl' => exact Or.inl (Finmap.mem_insert.mpr (Or.inr h))
  | insertTasks => exact Or.inl (Finmap.mem_insert.mpr (Or.inr h))
  | _ => exact Or.inl h

end Pc

/-! ### Whose work it is -/

/-- The work is part of the call. -/
inductive Work.Serves : Work α → Call α → Prop
  | createQueue {name : String} : Serves (.createQueue name) (.createQueue name)
  | queue {name : String} {item : α} : Serves (.queue name item) (.queue name item)
  | queueBatch {name : String} {items : List α} :
    Serves (.queueBatch name items) (.queueBatch name items)
  | dequeue {name taskId : String} {item : QueueItem α} :
    Serves (.dequeue name item taskId) (.dequeue name)
  | dequeueBatch {name : String} {deliveries : List (String × QueueItem α)} {count : UInt64} :
    Serves (.dequeueBatch name deliveries) (.dequeueBatch name count)
  | ack {id : String} : Serves (.ack id) (.ack id)
  | nack {id : String} {task : InFlightTask α} : Serves (.nack id task) (.nack id)
  | expired {id : String} {task : InFlightTask α} {t : UInt64} :
    Serves (.nack id task) (.cleanupExpiredTasks t)
  | extendVisibility {id : String} {duration : UInt64} :
    Serves (.extendVisibility id duration) (.extendVisibility id duration)
  | ackBatch {removed todo : List String} :
    Serves (.ackBatch todo) (.ackBatch (removed ++ todo))

/-- The call can be where `pc` stands. -/
inductive Pc.Serves : Pc α → Call α → Prop
  | start {c : Call α} : Serves (.start c) c
  | expired {id : String} {t : UInt64} : Serves (.start (.nack id)) (.cleanupExpiredTasks t)
  | verify {taskIds todo missing : List String} :
    Serves (.verify taskIds todo missing) (.ackBatch taskIds)
  | unlogged {pc : Pc α} {w : Work α} {c : Call α} (hpc : pc.phase = .unlogged w)
    (h : w.Serves c) : Serves pc c
  | logged {pc : Pc α} {w : Work α} {c : Call α} (hpc : pc.phase = .logged w)
    (h : w.Serves c) : Serves pc c
  | scanned {taskIds : List String} {t : UInt64} :
    Serves (.scanned taskIds) (.cleanupExpiredTasks t)
  | done {r : Outcome (Reply α)} {c : Call α} : Serves (.done r) c

namespace Pc

variable {s : InMemoryStorage α} {env : Env} {pc pc' : Pc α} {a : Access α} {c : Call α}

theorem serves_toLog {w : Work α} (h : w.Serves c) : (toLog s w).Serves c := by
  have hphase := phase_toLog s w
  split at hphase
  · exact .unlogged hphase h
  · exact .logged hphase h

/-- The work a move begins with is part of the call. -/
theorem Serves.work {w : Work α} (h : pc.Serves c)
    (hpc : pc.phase = .unlogged w ∨ pc.phase = .logged w) : w.Serves c := by
  cases h with
  | unlogged hw h =>
    rw [hw] at hpc
    rcases hpc with hpc | hpc <;> cases hpc
    exact h
  | logged hw h =>
    rw [hw] at hpc
    rcases hpc with hpc | hpc <;> cases hpc
    exact h
  | _ => rcases hpc with hpc | hpc <;> cases hpc

theorem Serves.of_start {c' : Call α} (h : (Pc.start c').Serves c) :
    c = c' ∨ ∃ id t, c' = .nack id ∧ c = .cleanupExpiredTasks t := by
  cases h with
  | start => exact Or.inl rfl
  | expired => exact Or.inr ⟨_, _, rfl, rfl⟩
  | unlogged hpc h => cases hpc
  | logged hpc h => cases hpc

theorem Serves.of_verify {taskIds todo missing : List String}
    (h : (Pc.verify taskIds todo missing : Pc α).Serves c) : c = .ackBatch taskIds := by
  cases h with
  | verify => rfl
  | unlogged hpc h => cases hpc
  | logged hpc h => cases hpc

theorem Serves.of_scanned {taskIds : List String}
    (h : (Pc.scanned taskIds : Pc α).Serves c) : ∃ t, c = .cleanupExpiredTasks t := by
  cases h with
  | scanned => exact ⟨_, rfl⟩
  | unlogged hpc h => cases hpc
  | logged hpc h => cases hpc

/-- The part of a call that has not been started is the call, except in the loop of
`cleanup_expired_tasks`. -/
theorem Serves.eq_of_start {c' : Call α} (h : (Pc.start c').Serves c)
    (hc' : ∀ id, c' ≠ .nack id) : c = c' := by
  obtain hc | ⟨id, t, hc, -⟩ := h.of_start
  · exact hc
  · exact absurd hc (hc' id)

/-- A move stays within the call. -/
theorem Move.serves (hm : Move s env pc a pc') (h : pc.Serves c) : pc'.Serves c := by
  cases hm with
  | createQueue hq =>
    rw [h.eq_of_start (by simp)]
    exact serves_toLog .createQueue
  | queue hq =>
    rw [h.eq_of_start (by simp)]
    exact serves_toLog .queue
  | queueBatch hq =>
    rw [h.eq_of_start (by simp)]
    exact serves_toLog .queueBatch
  | dequeue hq =>
    rw [h.eq_of_start (by simp)]
    exact serves_toLog .dequeue
  | dequeueBatch hq hcap hitems hne =>
    rw [h.eq_of_start (by simp)]
    exact serves_toLog .dequeueBatch
  | ack hl =>
    rw [h.eq_of_start (by simp)]
    exact serves_toLog .ack
  | nack hl =>
    -- a `nack` is a call of its own, or one round of a cleanup
    obtain rfl | ⟨id, t, -, rfl⟩ := h.of_start
    · exact serves_toLog .nack
    · exact serves_toLog .expired
  | extendVisibility hl =>
    rw [h.eq_of_start (by simp)]
    exact serves_toLog .extendVisibility
  | scan =>
    rw [h.eq_of_start (by simp)]
    exact .scanned
  | ackBatch =>
    rw [h.eq_of_start (by simp)]
    exact .verify
  | verify =>
    rw [h.of_verify]
    exact .verify
  | @verified taskIds =>
    rw [h.of_verify]
    have hall : (Work.ackBatch taskIds : Work α).Serves (.ackBatch ([] ++ taskIds)) := .ackBatch
    exact serves_toLog hall
  | acquire => exact .unlogged rfl (h.work (Or.inl rfl))
  | append happ => exact .logged (phase_afterLog _) (h.work (Or.inl rfl))
  | @appendFails w e happ =>
    obtain hf | ⟨-, e', hf⟩ := failLog_cases e w
    · rw [hf]
      exact .unlogged rfl (h.work (Or.inl rfl))
    · rw [hf]
      exact .done
  | beginInsert => exact .logged rfl (h.work (Or.inr rfl))
  | beginRemove => exact .logged rfl (h.work (Or.inr rfl))
  | insertTasks =>
    have hw := h.work (Or.inr rfl)
    refine .logged rfl ?_
    cases hw
    exact .dequeueBatch
  | @removeTasks id todo =>
    have hw := h.work (Or.inr rfl)
    refine .logged rfl ?_
    cases hw with
    | @ackBatch removed =>
      -- the id just removed joins the ones removed before
      rw [List.append_cons]
      exact .ackBatch
  | scanned => exact h
  | _ => exact .done

end Pc

/-- The thread is on its way through the call. -/
structure Thread.Serves (t : Thread α) (c : Call α) : Prop where
  pc : t.pc.Serves c
  loop : t.loop ≠ none → ∃ x, c = .cleanupExpiredTasks x

theorem Thread.Serves.next {c : Call α} {x : UInt64} (hc : c = .cleanupExpiredTasks x)
    (count : ℕ) (ids : List String) : (Thread.next count ids : Thread α).Serves c := by
  subst hc
  cases ids with
  | nil => exact ⟨.done, by simp [Thread.next]⟩
  | cons id ids => exact ⟨.expired, fun _ => ⟨x, rfl⟩⟩

theorem Thread.Serves.resume {pc : Pc α} {loop : Option (List String × ℕ)} {c : Call α}
    (hpc : pc.Serves c) (hloop : loop ≠ none → ∃ x, c = .cleanupExpiredTasks x) :
    (Thread.resume loop pc).Serves c := by
  unfold Thread.resume
  split
  · obtain ⟨x, hx⟩ := hpc.of_scanned
    exact .next hx 0 _
  · obtain ⟨x, hx⟩ := hloop (by simp)
    exact .next hx _ _
  · obtain ⟨x, hx⟩ := hloop (by simp)
    exact .next hx _ _
  · exact ⟨hpc, hloop⟩

/-- Outside the loop of `cleanup_expired_tasks`, a thread is where its call stands. -/
theorem Thread.Serves.resume_eq {t : Thread α} {pc : Pc α} {c : Call α} (h : t.Serves c)
    (hpc : pc.Serves c) (hc : ∀ x, c ≠ .cleanupExpiredTasks x) :
    Thread.resume t.loop pc = ⟨pc, none⟩ := by
  have hloop : t.loop = none := by
    by_contra hne
    obtain ⟨x, hx⟩ := h.loop hne
    exact hc x hx
  rw [hloop]
  unfold Thread.resume
  split
  · obtain ⟨x, hx⟩ := hpc.of_scanned
    exact absurd hx (hc x)
  · next h => cases h
  · next h => cases h
  · rfl

namespace Config

variable [Fintype ι] [DecidableEq ι]

/-- The step `l` is a turn of its thread; with the record after it. -/
structure Passes (s s' : Config ι α × History ι α) (l : ι × Env) (acks : List (InFlightTask α))
    (ops : List (WalOp α)) (p p' : Phase α) : Prop where
  before : s.1.phases l.1 = p
  after : ((s.1.pc l.1).step s.1.store l.2).2.phase = p'
  phases : s'.1.phases = Function.update s.1.phases l.1 p'
  turn : Phase.Turn s.1.store s'.1.store acks ops p p'
  wal : s'.1.store.wal.isSome
  ops : s'.1.store.ops = s.1.store.ops ++ ops
  queues : ∀ q ∈ s'.1.store.queues, q ∈ s.1.store.queues ∨
    ∃ w, p = .logged w ∧ w.makes = some q
  acked : s'.2.acked = acks ++ s.2.acked
  unwritten : s'.2.unwritten = History.unwrite acks s.2.unwritten p p'
  settled : s'.2.settled = History.settles p p' ++ s.2.settled
  waiting : s'.2.waiting = History.await l.1 s.2.waiting p p'

/-- **The steps on a persistent store are turns.** -/
theorem Balanced.passes {base : Multiset α} {s s' : Config ι α × History ι α} {l : ι × Env}
    (hb : Balanced base s) (hwal : s.1.store.wal.isSome) (hc : CreatesAbsent s.1 l)
    (h : (recorded ι α).step s l = some s') : ∃ acks ops p p', Passes s s' l acks ops p p' := by
  obtain ⟨i, env⟩ := l
  obtain ⟨-, ⟨a, pc', hstep⟩, hrec⟩ := recorded_step h
  have hpc' : ((s.1.pc i).step s.1.store env).2 = pc' := by rw [hstep.eq]
  -- The tasks in flight and in this thread's hand are a part of all the tasks, whose ids are
  -- pairwise different.
  have hle : s.1.store.inFlightTasks + ((s.1.phases i).tasks : Multiset (InFlightTask α))
      ≤ s.1.tasks + s.2.acked :=
    (add_le_add_right (Finset.single_le_sum
      (f := fun j => ((s.1.phases j).tasks : Multiset (InFlightTask α)))
      (fun _ _ => Multiset.zero_le _) (Finset.mem_univ i)) _).trans (Multiset.le_add_right _ _)
  have hids := Multiset.nodup_of_le (Multiset.map_le_map hle) hb.ids
  refine ⟨(s.1.pc i).acks s.1.store, a.ops, s.1.phases i, pc'.phase, rfl, by rw [hpc'],
    hstep.phases, ?_, ?_, ?_, ?_, ?_, ?_, ?_, ?_⟩
  · rw [hstep.store]
    exact hstep.move.turn hwal hb.valid (hb.phases i) hids (hstep.createsAbsent hc)
  · rw [hstep.store, Access.wal_run, hwal]
  · rw [hstep.store, Access.ops_run hwal]
  · rw [hstep.store]
    exact fun q hq => hstep.move.mem_queues (hb.phases i) hq
  · rw [hrec, History.extend]
  · rw [hrec, History.extend, hpc']
    rfl
  · rw [hrec, History.extend, hpc']
    rfl
  · rw [hrec, History.extend, hpc']
    rfl

/-- Every thread is on its way through its call. -/
def Serving (calls : ι → Call α) (σ : Config ι α) : Prop := ∀ i, (σ.threads i).Serves (calls i)

omit [Fintype ι] [DecidableEq ι] in
theorem serving_start (s : InMemoryStorage α) (calls : ι → Call α) :
    Serving calls (start s calls) :=
  fun _ => ⟨.start, fun hne => absurd rfl hne⟩

omit [Fintype ι] in
theorem StepOf.serving {calls : ι → Call α} {σ σ' : Config ι α} {i : ι} {env : Env} {a : Access α}
    {pc' : Pc α} (h : StepOf σ i env σ' a pc') (hs : Serving calls σ) : Serving calls σ' := by
  intro j
  rw [h.threads]
  by_cases hj : j = i
  · rw [hj, Function.update_self]
    exact .resume (h.move.serves (hs i).pc) (hs i).loop
  · rw [Function.update_of_ne hj]
    exact hs j

omit [Fintype ι] in
theorem StepOf.pc_self {σ σ' : Config ι α} {i : ι} {env : Env} {a : Access α} {pc' : Pc α}
    {c : Call α} (h : StepOf σ i env σ' a pc') (hs : (σ.threads i).Serves c)
    (hc : ∀ x, c ≠ .cleanupExpiredTasks x) : σ'.pc i = pc' := by
  rw [pc, h.threads, Function.update_self, hs.resume_eq (h.move.serves hs.pc) hc]

omit [Fintype ι] [DecidableEq ι] in
/-- Where no call creates queues, none is created over an existing one. -/
theorem Serving.createsAbsent {calls : ι → Call α} {σ : Config ι α} (hs : Serving calls σ)
    (hcalls : ∀ i name, calls i ≠ .createQueue name) (l : ι × Env) : CreatesAbsent σ l := by
  intro name hphase
  have hserves := (hs l.1).pc.work (Or.inr hphase)
  generalize hcall : calls l.1 = c at hserves
  cases hserves
  exact absurd hcall (hcalls l.1 name)

end Config

end Oxideq
