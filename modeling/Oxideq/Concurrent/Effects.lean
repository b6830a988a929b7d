import Oxideq.Concurrent.Turns

/-!
# The effect of an entry

What the replay of one entry does to the queues and to the in-flight table, for the entry a call
writes for its work: the queues lose what the entry delivers and gain what it returns or brings
(`items_effect`), and the tasks in flight follow (`tasks_effect_*`).
-/

namespace Oxideq

variable {α : Type}

namespace SameState

variable {s r : InMemoryStorage α}

theorem inFlightTasks (h : SameState s r) : s.inFlightTasks = r.inFlightTasks := by
  have htable : Table.mapValues (fun _ => InFlightTask.untimed) s.inFlight
      = Table.mapValues (fun _ => InFlightTask.untimed) r.inFlight := by
    refine Finmap.ext_lookup fun id => ?_
    rw [Table.lookup_mapValues, Table.lookup_mapValues]
    exact h.inFlight id
  have htotal : ∀ u : InMemoryStorage α, u.inFlightTasks
      = Table.total (fun _ t => {t}) (Table.mapValues (fun _ => InFlightTask.untimed) u.inFlight) :=
    fun u => (Table.total_mapValues (fun (_ : String) (t : InFlightTask α) =>
      ({t} : Multiset (InFlightTask α))) (fun _ => InFlightTask.untimed) u.inFlight).symm
  rw [htotal, htotal, htable]

theorem items (h : SameState s r) (q : String) : s.items q = r.items q := by
  rw [InMemoryStorage.items, InMemoryStorage.items, h.queues]

theorem messages (h : SameState s r) : s.messages = r.messages := by
  rw [InMemoryStorage.messages, InMemoryStorage.messages, h.inFlightTasks,
    InMemoryStorage.pendingData, InMemoryStorage.pendingData, h.queues]

theorem valid (h : SameState s r) (hs : s.Valid) : r.Valid := by
  constructor
  · intro id task hl
    obtain ⟨task', hl', ht⟩ := h.symm.lookup_some hl
    have hid : task'.id = id := hs.id_eq hl'
    rw [← hid, ← InFlightTask.untimed_id, ← ht, InFlightTask.untimed_id]
  · intro id task hl
    obtain ⟨task', hl', ht⟩ := h.symm.lookup_some hl
    have hq : task'.queueName ∈ s.queues := hs.queue_mem hl'
    rw [← h.queues, ← InFlightTask.untimed_queueName, ← ht, InFlightTask.untimed_queueName]
    exact hq

end SameState

namespace Work

/-- The ids the entry of the work acknowledges. -/
def settles : Work α → List String
  | .ack id => [id]
  | .ackBatch ids => ids
  | _ => []

/-- Clock readings do not matter where a task returns to. -/
theorem frontPush_congr {task task' : InFlightTask α} (h : task.untimed = task'.untimed)
    (id id' : String) : (nack id task).frontPush = (nack id' task').frontPush := by
  obtain ⟨_, _, _, _, _⟩ := task
  obtain ⟨_, _, _, _, _⟩ := task'
  cases h
  rfl

theorem backPush_congr {task task' : InFlightTask α} (h : task.untimed = task'.untimed)
    (id id' : String) : (nack id task).backPush = (nack id' task').backPush := by
  obtain ⟨_, _, _, _, _⟩ := task
  obtain ⟨_, _, _, _, _⟩ := task'
  cases h
  rfl

end Work

namespace InMemoryStorage

/-! ### Many tasks at once -/

theorem inFlightTasks_foldl_putTask {s : InMemoryStorage α} {tasks : List (InFlightTask α)}
    (hfresh : ∀ t ∈ tasks, t.id ∉ s.inFlight) (hnd : (tasks.map InFlightTask.id).Nodup) :
    (tasks.foldl putTask s).inFlightTasks
      = s.inFlightTasks + (tasks.map InFlightTask.untimed : Multiset (InFlightTask α)) := by
  -- By induction on the tasks; no later one overwrites an earlier one.
  induction tasks generalizing s with
  | nil => exact (add_zero _).symm
  | cons task tasks ih =>
    rw [List.map_cons, List.nodup_cons] at hnd
    have hput : (s.putTask task).inFlightTasks = {task.untimed} + s.inFlightTasks :=
      inFlightTasks_insertTask (hfresh task List.mem_cons_self) task
    have hrest : ∀ t ∈ tasks, t.id ∉ (s.putTask task).inFlight := by
      intro t ht hmem
      rcases Finmap.mem_insert.mp hmem with hid | hmem
      · exact hnd.1 (List.mem_map.mpr ⟨t, ht, hid⟩)
      · exact hfresh t (List.mem_cons_of_mem _ ht) hmem
    rw [List.foldl_cons, ih hrest hnd.2, hput, List.map_cons, ← Multiset.cons_coe,
      ← Multiset.singleton_add, ← add_assoc, add_comm _ s.inFlightTasks]

/-- Removing a task leaves the others. -/
theorem Valid.inFlightTasks_dropTask {s : InMemoryStorage α} (h : s.Valid) (id : String) :
    (s.dropTask id).inFlightTasks = s.inFlightTasks.filter (·.id ≠ id) := by
  cases hl : s.inFlight.lookup id with
  | none =>
    rw [dropTask_of_lookup_none hl]
    refine (Multiset.filter_eq_self.mpr fun t ht hid => ?_).symm
    have hmem := h.mem_ids.mp (Multiset.mem_map.mpr ⟨t, ht, hid⟩)
    exact Finmap.lookup_eq_none.mp hl hmem
  | some task =>
    have hid : task.id = id := h.id_eq hl
    have hnd := h.nodup_ids
    rw [← InMemoryStorage.inFlightTasks_dropTask hl, Multiset.map_add, Multiset.map_singleton,
      Multiset.singleton_add, Multiset.nodup_cons, InFlightTask.untimed_id, hid] at hnd
    rw [← InMemoryStorage.inFlightTasks_dropTask hl, Multiset.filter_add,
      Multiset.filter_singleton, if_neg (by simp [hid]), Multiset.empty_eq_zero, zero_add]
    refine (Multiset.filter_eq_self.mpr fun t ht hid' => ?_).symm
    exact hnd.1 (Multiset.mem_map.mpr ⟨t, ht, hid'⟩)

theorem Valid.inFlightTasks_dropTasks {s : InMemoryStorage α} (h : s.Valid) (ids : List String) :
    (ids.foldl InMemoryStorage.dropTask s).inFlightTasks
      = s.inFlightTasks.filter (·.id ∉ ids) := by
  induction ids generalizing s with
  | nil => exact (Multiset.filter_eq_self.mpr fun t _ => by simp).symm
  | cons id ids ih =>
    rw [List.foldl_cons, ih (h.dropTask id), h.inFlightTasks_dropTask, Multiset.filter_filter]
    refine Multiset.filter_congr fun t _ => ?_
    rw [List.mem_cons, not_or]
    exact and_comm

/-! ### Deliveries -/

/-- A replayed delivery hands out the tasks that were handed out, when it finds their items at the
front of the queue. -/
theorem inFlightTasks_replayDeliveries {r : InMemoryStorage α} {name : String}
    (deliveries : List (String × QueueItem α)) {rest : List (QueueItem α)}
    (h : r.queues.lookup name = some (deliveries.map Prod.snd ++ rest))
    (hfresh : ∀ p ∈ deliveries, p.1 ∉ r.inFlight) (hnd : (deliveries.map Prod.fst).Nodup)
    (now : ℕ → Int) :
    (r.replayDeliveries now name (deliveries.map Prod.fst)).inFlightTasks
      = r.inFlightTasks + ((deliveries.map fun p => InFlightTask.deliver p.1 name 0 p.2 : List _)
          : Multiset (InFlightTask α)) := by
  have hzip : (deliveries.map Prod.fst).zip (deliveries.map Prod.snd ++ rest) = deliveries := by
    have hlen : (deliveries.map Prod.fst).length = (deliveries.map Prod.snd).length := by
      rw [List.length_map, List.length_map]
    calc (deliveries.map Prod.fst).zip (deliveries.map Prod.snd ++ rest)
        = (deliveries.map Prod.fst ++ []).zip (deliveries.map Prod.snd ++ rest) := by
          rw [List.append_nil]
      _ = (deliveries.map Prod.fst).zip (deliveries.map Prod.snd) ++ [].zip rest :=
          List.zip_append hlen
      _ = deliveries := by
          rw [List.zip_nil_left, List.append_nil, ← List.unzip_fst, ← List.unzip_snd]
          exact List.zip_unzip deliveries
  have huntimed : ∀ (now : ℕ → Int) (ps : List (String × QueueItem α)),
      (ps.mapIdx fun i p => InFlightTask.deliver p.1 name (now i) p.2).map InFlightTask.untimed
        = ps.map fun p => InFlightTask.deliver p.1 name 0 p.2 := by
    intro now ps
    induction ps generalizing now with
    | nil => rfl
    | cons p ps ih =>
      rw [List.mapIdx_cons, List.map_cons, List.map_cons]
      exact congrArg _ (ih fun i => now (i + 1))
  have hids : ((deliverAll name now (deliveries.map Prod.fst)
      (deliveries.map Prod.snd ++ rest)).map InFlightTask.id) = deliveries.map Prod.fst := by
    rw [map_id_deliverAll, hzip]
  -- the replay takes as many items as there are ids, which are the ones popped for them
  unfold InMemoryStorage.replayDeliveries
  rw [h]
  refine (inFlightTasks_foldl_putTask ?_ ?_).trans ?_
  · intro t ht hmem
    have hid : t.id ∈ deliveries.map Prod.fst := by
      rw [← hids]
      exact List.mem_map_of_mem ht
    obtain ⟨p, hp, hpid⟩ := List.mem_map.mp hid
    refine hfresh p hp ?_
    rw [hpid]
    exact hmem
  · rw [hids]
    exact hnd
  · rw [inFlightTasks_setQueue, deliverAll, hzip, huntimed]

/-! ### The entry of a call -/

section Entry

variable {r : InMemoryStorage α} {w : Work α}

/-- The replay has the task in flight that the call is about to return. -/
def Returns (r : InMemoryStorage α) (w : Work α) : Prop :=
  ∀ id task, w = .nack id task → ∃ t, r.inFlight.lookup id = some t ∧ t.untimed = task.untimed

theorem items_replayDeliveries (now : ℕ → Int) (name q : String) (ids : List String) :
    (r.replayDeliveries now name ids).items q
      = if q = name then (r.items name).drop ids.length else r.items q := by
  unfold InMemoryStorage.replayDeliveries
  cases h : r.queues.lookup name with
  | none =>
    have hnil : r.items name = [] := by rw [InMemoryStorage.items, h, Option.getD_none]
    show r.items q = _
    by_cases hq : q = name
    · rw [if_pos hq, hq, hnil, List.drop_nil]
    · rw [if_neg hq]
  | some items =>
    rw [InMemoryStorage.items, foldl_putTask_queues, items_of_lookup h]
    exact r.items_setQueue name q _

theorem items_pushBack {name : String} (h : name ∈ r.queues) (items : List α) (q : String) :
    (r.orSelf (r.pushBack name items)).items q
      = r.items q ++ if q = name then items.map (fun d => ⟨d, 0⟩) else [] := by
  obtain ⟨old, hold⟩ := Finmap.mem_iff.mp h
  rw [InMemoryStorage.pushBack, hold]
  simp only [orSelf_ok, items_setQueue]
  split
  · next hq => rw [hq, items_of_lookup hold]
  · rw [List.append_nil]

theorem items_requeue {task : InFlightTask α} (h : task.queueName ∈ r.queues) (q : String) :
    (r.orSelf (r.requeue task)).items q
      = (Work.nack task.id task).frontPush q ++ r.items q
        ++ (Work.nack task.id task).backPush q := by
  unfold InMemoryStorage.requeue
  split
  · next hex =>
    simp only [orSelf_ok, items_setQueue]
    by_cases hq : q = dlqName task.queueName
    · subst hq
      simp [Work.frontPush, Work.backPush, hex, InMemoryStorage.items]
    · simp [Work.frontPush, Work.backPush, hex, hq]
  · next hex =>
    obtain ⟨old, hold⟩ := Finmap.mem_iff.mp h
    simp only [hold, orSelf_ok, items_setQueue]
    by_cases hq : q = task.queueName
    · simp [Work.frontPush, Work.backPush, hex, hq, items_of_lookup hold]
    · simp [Work.frontPush, Work.backPush, hex, hq]

/-- **The queues after an entry.** -/
theorem items_effect (hw : w.Valid r) (hr : r.Valid) (hn : r.Returns w) (now : ℕ → Int)
    (q : String) : (r.effect now w.op).items q
      = w.frontPush q ++ (r.items q).drop (w.popped q).length ++ w.backPush q := by
  cases w with
  | createQueue name =>
    have hsame : (r.effect now (.createQueue name)).items q = r.items q := by
      simp only [effect]
      split
      · rfl
      · next h => exact r.items_setQueue_nil h q
    exact hsame.trans (by simp [Work.frontPush, Work.popped, Work.backPush])
  | queue name item =>
    have hpush := items_pushBack (hw.target_mem rfl) [item] q
    exact hpush.trans (by simp [Work.frontPush, Work.popped, Work.backPush])
  | queueBatch name items =>
    have hpush := items_pushBack (hw.target_mem rfl) items q
    exact hpush.trans (by simp [Work.frontPush, Work.popped, Work.backPush])
  | dequeue name item taskId =>
    rw [Work.op, effect, items_replayDeliveries]
    by_cases hq : q = name
    · simp [Work.frontPush, Work.popped, Work.backPush, hq]
    · simp [Work.frontPush, Work.popped, Work.backPush, hq]
  | dequeueBatch name deliveries =>
    rw [Work.op, effect, items_replayDeliveries]
    by_cases hq : q = name
    · simp [Work.frontPush, Work.popped, Work.backPush, hq]
    · simp [Work.frontPush, Work.popped, Work.backPush, hq]
  | ack id => exact (List.append_nil _).symm
  | nack id task =>
    -- the replay's own task is returned, and differs from the live one in its clock
    obtain ⟨t, hl, ht⟩ := hn id task rfl
    have hq : t.queueName ∈ (r.dropTask id).queues := hr.queue_mem hl
    have hrequeue := items_requeue hq q
    rw [Work.frontPush_congr ht t.id id, Work.backPush_congr ht t.id id] at hrequeue
    simp only [Work.op, effect, hl]
    exact hrequeue
  | extendVisibility id duration =>
    have hsame : (r.effect now (.extendVisibility id duration)).items q = r.items q := by
      simp only [effect]
      cases r.inFlight.lookup id <;> rfl
    exact hsame.trans (by simp [Work.frontPush, Work.popped, Work.backPush])
  | ackBatch ids =>
    have hsame : (r.effect now (.ackBatch ids)).items q = r.items q := by
      simp only [effect]
      split
      · rw [InMemoryStorage.items, foldl_dropTask_queues]
        rfl
      · rfl
    exact hsame.trans (by simp [Work.frontPush, Work.popped, Work.backPush])

theorem inFlightTasks_pushBack (r : InMemoryStorage α) (name : String) (items : List α) :
    (r.orSelf (r.pushBack name items)).inFlightTasks = r.inFlightTasks := by
  cases h : r.pushBack name items with
  | error e => rfl
  | ok r' => rw [orSelf_ok, inFlightTasks, pushBack_inFlight h, inFlightTasks]

theorem inFlightTasks_requeue (r : InMemoryStorage α) (task : InFlightTask α) :
    (r.orSelf (r.requeue task)).inFlightTasks = r.inFlightTasks := by
  cases h : r.requeue task with
  | error e => rfl
  | ok r' => rw [orSelf_ok, inFlightTasks, requeue_inFlight h, inFlightTasks]

/-- **The tasks in flight after an entry**: the tasks returned are gone, the tasks delivered are
there, and what the entry acknowledges is removed. The items a delivery names have to be at the
front of the queue. -/
theorem inFlightTasks_effect (hw : w.Valid r) (hr : r.Valid) (hn : r.Returns w)
    (hd : ∀ q, ∃ rest, r.items q = w.popped q ++ rest)
    (hfresh : ∀ t ∈ w.delivered, t.id ∉ r.inFlight) (hnd : (w.delivered.map InFlightTask.id).Nodup)
    (hbatch : ∀ ids, w = .ackBatch ids →
      (∀ id ∈ ids, id ∈ r.inFlight) ∨ ∀ id ∈ ids, id ∉ r.inFlight) (now : ℕ → Int) :
    (r.effect now w.op).inFlightTasks + w.returned
      = (r.inFlightTasks + w.delivered).filter (·.id ∉ w.settles) := by
  -- most entries acknowledge nothing
  have hplain : w.settles = [] →
      (r.effect now w.op).inFlightTasks + w.returned = r.inFlightTasks + w.delivered →
      (r.effect now w.op).inFlightTasks + w.returned
        = (r.inFlightTasks + w.delivered).filter (·.id ∉ w.settles) := by
    intro hs h
    rw [h, hs]
    exact (Multiset.filter_eq_self.mpr fun t _ => List.not_mem_nil).symm
  have hacks : w.delivered = [] → w.returned = [] →
      (r.effect now w.op).inFlightTasks = r.inFlightTasks.filter (·.id ∉ w.settles) →
      (r.effect now w.op).inFlightTasks + w.returned
        = (r.inFlightTasks + w.delivered).filter (·.id ∉ w.settles) := by
    intro hdelivered hreturned h
    rw [hdelivered, hreturned, Multiset.coe_nil, add_zero, add_zero, h]
  have hlookup : ∀ {name}, name ∈ r.queues → r.queues.lookup name = some (r.items name) := by
    intro name hname
    obtain ⟨items, hl⟩ := Finmap.mem_iff.mp hname
    rw [hl, items_of_lookup hl]
  cases w with
  | createQueue name =>
    refine hplain rfl (congrArg (· + (0 : Multiset (InFlightTask α))) ?_)
    simp only [Work.op, effect]
    split <;> rfl
  | queue name item =>
    refine hplain rfl (congrArg (· + (0 : Multiset (InFlightTask α))) ?_)
    exact inFlightTasks_pushBack r name [item]
  | queueBatch name items =>
    refine hplain rfl (congrArg (· + (0 : Multiset (InFlightTask α))) ?_)
    exact inFlightTasks_pushBack r name items
  | dequeue name item taskId =>
    -- the items that were handed out are in front of the replay's queue as well
    obtain ⟨rest, hrest⟩ := hd name
    have hl := hlookup (hw.target_mem rfl)
    rw [hrest, Work.popped, if_pos rfl] at hl
    have hdeliver := inFlightTasks_replayDeliveries [(taskId, item)] hl
      (by simpa [Work.delivered] using hfresh) (List.nodup_singleton _) now
    exact hplain rfl ((add_zero _).trans hdeliver)
  | dequeueBatch name deliveries =>
    obtain ⟨rest, hrest⟩ := hd name
    have hl := hlookup (hw.target_mem rfl)
    rw [hrest, Work.popped, if_pos rfl] at hl
    have hids : (Work.dequeueBatch name deliveries).delivered.map InFlightTask.id
        = deliveries.map Prod.fst := by
      simp [Work.delivered, Function.comp_def]
    rw [hids] at hnd
    have hdeliver := inFlightTasks_replayDeliveries deliveries hl
      (fun p hp => hfresh _ (List.mem_map_of_mem hp)) hnd now
    exact hplain rfl ((add_zero _).trans hdeliver)
  | ack id =>
    refine hacks rfl rfl ((hr.inFlightTasks_dropTask id).trans ?_)
    refine Multiset.filter_congr fun t _ => ?_
    rw [Work.settles, List.mem_singleton]
  | nack id task =>
    obtain ⟨t, hl, ht⟩ := hn id task rfl
    have hdrop := InMemoryStorage.inFlightTasks_dropTask hl
    refine hplain rfl ?_
    simp only [Work.op, effect, hl]
    rw [inFlightTasks_requeue, Work.returned, ← ht, Multiset.coe_singleton, add_comm, hdrop]
    exact (add_zero _).symm
  | extendVisibility id duration =>
    refine hplain rfl (congrArg (· + (0 : Multiset (InFlightTask α))) ?_)
    simp only [Work.op, effect]
    cases hl : r.inFlight.lookup id with
    | none => rfl
    | some task => exact inFlightTasks_touch hl _ rfl
  | ackBatch ids =>
    refine hacks rfl rfl ?_
    simp only [Work.op, effect]
    split
    · exact hr.inFlightTasks_dropTasks ids
    · next hne =>
      -- a batch that is not all there is refused whole, and none of it is there
      have hnone := (hbatch ids rfl).resolve_left hne
      symm
      rw [Multiset.filter_eq_self]
      intro t ht hmem
      exact hnone _ hmem (hr.mem_ids.mp (Multiset.mem_map_of_mem _ ht))

/-! Queues are only added. -/

theorem mem_queues_pushBack {q : String} (h : q ∈ r.queues) (name : String) (items : List α) :
    q ∈ (r.orSelf (r.pushBack name items)).queues := by
  unfold InMemoryStorage.pushBack
  cases r.queues.lookup name with
  | none => exact h
  | some old => exact Finmap.mem_insert.mpr (Or.inr h)

theorem mem_queues_requeue {q : String} (h : q ∈ r.queues) (task : InFlightTask α) :
    q ∈ (r.orSelf (r.requeue task)).queues := by
  unfold InMemoryStorage.requeue
  split
  · exact Finmap.mem_insert.mpr (Or.inr h)
  cases r.queues.lookup task.queueName with
  | none => exact h
  | some old => exact Finmap.mem_insert.mpr (Or.inr h)

theorem mem_queues_replayDeliveries {q : String} (h : q ∈ r.queues) (now : ℕ → Int)
    (name : String) (ids : List String) : q ∈ (r.replayDeliveries now name ids).queues := by
  unfold InMemoryStorage.replayDeliveries
  cases r.queues.lookup name with
  | none => exact h
  | some items =>
    rw [foldl_putTask_queues]
    exact Finmap.mem_insert.mpr (Or.inr h)

theorem mem_queues_effect {q : String} (h : q ∈ r.queues) (now : ℕ → Int) (op : WalOp α) :
    q ∈ (r.effect now op).queues := by
  cases op with
  | createQueue name =>
    simp only [effect]
    split
    · exact h
    · exact Finmap.mem_insert.mpr (Or.inr h)
  | enqueue queue data => exact mem_queues_pushBack h ..
  | enqueueBatch queue data => exact mem_queues_pushBack h ..
  | dequeued queue taskId => exact mem_queues_replayDeliveries h ..
  | dequeuedBatch queue taskIds => exact mem_queues_replayDeliveries h ..
  | ack taskId => exact h
  | ackBatch taskIds =>
    simp only [effect]
    split
    · rw [foldl_dropTask_queues]
      exact h
    · exact h
  | nack taskId =>
    simp only [effect]
    cases r.inFlight.lookup taskId with
    | none => exact h
    | some task => exact mem_queues_requeue (r := r.dropTask taskId) h task
  | extendVisibility taskId duration =>
    simp only [effect]
    cases r.inFlight.lookup taskId <;> exact h

theorem mem_queues_effects {q : String} (h : q ∈ r.queues) (ops : List (WalOp α)) :
    q ∈ (r.effects ops).queues := by
  induction ops generalizing r with
  | nil => exact h
  | cons op ops ih => exact ih (mem_queues_effect h _ op)

/-- After its entry, a queue the work makes is there. -/
theorem mem_queues_of_makes (hn : r.Returns w) {q : String} (h : w.makes = some q)
    (now : ℕ → Int) : q ∈ (r.effect now w.op).queues := by
  cases w with
  | createQueue name =>
    cases h
    simp only [Work.op, effect]
    split
    · next hmem => exact hmem
    · exact Finmap.mem_insert.mpr (Or.inl rfl)
  | nack id task =>
    obtain ⟨t, hl, ht⟩ := hn id task rfl
    have hex : t.exhausted = task.exhausted := by
      rw [← InFlightTask.untimed_exhausted, ht, InFlightTask.untimed_exhausted]
    have hname : t.queueName = task.queueName := by
      rw [← InFlightTask.untimed_queueName, ht, InFlightTask.untimed_queueName]
    rw [Work.makes] at h
    split at h
    · next hexhausted =>
      cases h
      simp only [Work.op, effect, hl, requeue, hex, hexhausted, if_true, orSelf_ok, hname]
      exact Finmap.mem_insert.mpr (Or.inl rfl)
    · cases h
  | _ => cases h

theorem Valid.effects {r : InMemoryStorage α} (hr : r.Valid) (ops : List (WalOp α)) :
    (r.effects ops).Valid := by
  induction ops generalizing r with
  | nil => exact hr
  | cons op ops ih => exact ih (hr.effect _ op)

end Entry

end InMemoryStorage

end Oxideq
