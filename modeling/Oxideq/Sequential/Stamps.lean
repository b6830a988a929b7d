import Oxideq.Storage.Replay
import Oxideq.Storage.Call

/-!
# Clock stamps

The clock of a task in flight is read when the task is handed out, and again by every
`extend_visibility`. No other call touches it: what a call does to the in-flight table is to stamp
tasks under ids that it draws, or under the one it extends, and to take tasks away
(`InMemoryStorage.call_stamped`).
-/

namespace Oxideq

variable {α : Type}

/-- A task of `s'` was in `s` under the same id and with the same clock, or has been stamped: `P`
says under which ids, and with which clock readings, tasks are. -/
def Stamped (P : String → Int → Prop) (s s' : InMemoryStorage α) : Prop :=
  ∀ (id : String) (task : InFlightTask α), s'.inFlight.lookup id = some task →
    s.inFlight.lookup id = some task ∨ P id task.consumedAt

namespace Stamped

variable {P : String → Int → Prop} {s s' s'' : InMemoryStorage α}

theorem of_inFlight (h : s'.inFlight = s.inFlight) : Stamped P s s' := by
  intro id task hl
  rw [h] at hl
  exact Or.inl hl

theorem refl (s : InMemoryStorage α) : Stamped P s s := of_inFlight rfl

theorem trans (h : Stamped P s s') (h' : Stamped P s' s'') : Stamped P s s'' := by
  intro id task hl
  rcases h' id task hl with hl | hP
  · exact h id task hl
  · exact Or.inr hP

theorem dropTask (s : InMemoryStorage α) (id : String) : Stamped P s (s.dropTask id) := by
  intro id' task hl
  by_cases hid : id' = id
  · rw [hid, InMemoryStorage.dropTask, Finmap.lookup_erase] at hl
    cases hl
  · rw [InMemoryStorage.dropTask, Finmap.lookup_erase_ne hid] at hl
    exact Or.inl hl

theorem insert (s : InMemoryStorage α) (id : String) {task : InFlightTask α}
    (h : P id task.consumedAt) :
    Stamped P s { s with inFlight := s.inFlight.insert id task } := by
  intro id' task' hl
  by_cases hid : id' = id
  · rw [hid, Finmap.lookup_insert] at hl
    rw [hid, ← Option.some.inj hl]
    exact Or.inr h
  · rw [Finmap.lookup_insert_of_ne _ hid] at hl
    exact Or.inl hl

theorem dropTasks (s : InMemoryStorage α) (ids : List String) :
    Stamped P s (ids.foldl InMemoryStorage.dropTask s) := by
  induction ids generalizing s with
  | nil => exact refl s
  | cons id ids ih => exact (dropTask s id).trans (ih _)

theorem deliverAll (s : InMemoryStorage α) (name : String) {now : ℕ → Int}
    {ids : List String} (hP : ∀ id ∈ ids, ∀ i, P id (now i)) (items : List (QueueItem α)) :
    Stamped P s ((InMemoryStorage.deliverAll name now ids items).foldl
      InMemoryStorage.putTask s) := by
  have hzip : ∀ p ∈ ids.zip items, ∀ i, P p.1 (now i) := fun p hp =>
    hP p.1 (List.of_mem_zip hp).1
  clear hP
  unfold InMemoryStorage.deliverAll
  generalize ids.zip items = deliveries at hzip
  induction deliveries generalizing s now with
  | nil => exact refl s
  | cons p ps ih =>
    rw [List.forall_mem_cons] at hzip
    have hfirst : Stamped P s (s.putTask (.deliver p.1 name (now 0) p.2)) :=
      insert s p.1 (hzip.1 0)
    rw [List.mapIdx_cons, List.foldl_cons]
    exact hfirst.trans (ih _ fun p hp i => hzip.2 p hp (i + 1))

end Stamped

namespace InMemoryStorage

variable {P : String → Int → Prop} {env : Env}

theorem inFlight_pushBack {s s' : InMemoryStorage α} {name : String} {items : List α}
    (h : s.pushBack name items = .ok s') : s'.inFlight = s.inFlight := by
  unfold pushBack at h
  cases hq : s.queues.lookup name with
  | none => rw [hq] at h; cases h
  | some q => rw [hq] at h; cases h; rfl

/-! ### Calls

Three of them set clocks: `dequeue` and `dequeue_batch` for what they hand out, and
`extend_visibility`. -/

section Calls

variable (s : InMemoryStorage α)

theorem createQueue_stamped (name : String) : Stamped P s (s.createQueue env name).2 := by
  unfold createQueue
  split
  · exact .refl s
  · obtain h | ⟨e, h⟩ := s.logOp_cases env (.createQueue name)
    · rw [h]
      exact .of_inFlight rfl
    · rw [h]
      exact .refl s

theorem queue_stamped (name : String) (item : α) : Stamped P s (s.queue env name item).2 := by
  unfold queue
  split
  · exact .refl s
  · obtain h | ⟨e, h⟩ := s.logOp_cases env (.enqueue name item)
    · simp only [h]
      cases hp : (s.logged env (.enqueue name item)).pushBack name [item] with
      | error e => exact .of_inFlight rfl
      | ok s' =>
        exact .of_inFlight ((inFlight_pushBack hp).trans (logged_inFlight ..))
    · rw [h]
      exact .refl s

theorem queueBatch_stamped (name : String) (items : List α) :
    Stamped P s (s.queueBatch env name items).2 := by
  unfold queueBatch
  split
  · exact .refl s
  · obtain h | ⟨e, h⟩ := s.logOp_cases env (.enqueueBatch name items)
    · simp only [h]
      cases hp : (s.logged env (.enqueueBatch name items)).pushBack name items with
      | error e => exact .of_inFlight rfl
      | ok s' =>
        exact .of_inFlight ((inFlight_pushBack hp).trans (logged_inFlight ..))
    · rw [h]
      exact .refl s

theorem dequeue_stamped (hP : ∀ k i, P (env.uuid k) (env.now i)) (name : String) :
    Stamped P s (s.dequeue env name).2 := by
  unfold dequeue
  cases hq : s.queues.lookup name with
  | none => exact .refl s
  | some items =>
    cases items with
    | nil => exact .refl s
    | cons item rest =>
      simp only
      obtain h | ⟨e, h⟩ := (s.setQueue name rest).logOp_cases env (.dequeued name (env.uuid 0))
      · rw [h]
        have hpopped : Stamped P s
            ((s.setQueue name rest).logged env (.dequeued name (env.uuid 0))) := .of_inFlight rfl
        exact hpopped.trans (.insert _ _ (hP 0 1))
      · simp only [h]
        exact .of_inFlight rfl

theorem dequeueBatch_stamped (hP : ∀ k i, P (env.uuid k) (env.now i)) (name : String)
    (count : UInt64) : Stamped P s (s.dequeueBatch env name count).2 := by
  unfold dequeueBatch
  cases hq : s.queues.lookup name with
  | none => exact .refl s
  | some items =>
    simp only
    split
    · exact .refl s
    split
    · exact .refl s
    split
    · exact .of_inFlight rfl
    generalize hids : (List.range (items.take count.toNat).length).map env.uuid = ids
    have hdrawn : ∀ id ∈ ids, ∀ i, P id (env.now (i + 1)) := by
      intro id hid i
      rw [← hids] at hid
      obtain ⟨k, -, rfl⟩ := List.mem_map.mp hid
      exact hP k (i + 1)
    obtain h | ⟨e, h⟩ :=
      (s.setQueue name (items.drop count.toNat)).logOp_cases env (.dequeuedBatch name ids)
    · simp only [h]
      have hpopped : Stamped P s ((s.setQueue name (items.drop count.toNat)).logged env
          (.dequeuedBatch name ids)) := .of_inFlight rfl
      exact hpopped.trans (.deliverAll _ name hdrawn _)
    · simp only [h]
      exact .of_inFlight rfl

theorem ack_stamped (id : String) : Stamped P s (s.ack env id).2 := by
  unfold ack
  cases hl : s.inFlight.lookup id with
  | none => exact .refl s
  | some task =>
    simp only
    obtain h | ⟨e, h⟩ := (s.dropTask id).logOp_cases env (.ack id)
    · rw [h]
      exact (Stamped.dropTask s id).trans (.of_inFlight rfl)
    · rw [h]
      exact .dropTask s id

theorem ackBatch_stamped (ids : List String) : Stamped P s (s.ackBatch env ids).2 := by
  unfold ackBatch
  simp only
  split
  · exact .refl s
  · obtain h | ⟨e, h⟩ := s.logOp_cases env (.ackBatch ids)
    · rw [h]
      have hlogged : Stamped P s (s.logged env (.ackBatch ids)) := .of_inFlight rfl
      exact hlogged.trans (.dropTasks _ ids)
    · rw [h]
      exact .refl s

theorem nack_stamped (id : String) : Stamped P s (s.nack env id).2 := by
  unfold nack
  cases hl : s.inFlight.lookup id with
  | none => exact .refl s
  | some task =>
    simp only
    obtain h | ⟨e, h⟩ := (s.dropTask id).logOp_cases env (.nack id)
    · simp only [h]
      have hdropped : Stamped P s ((s.dropTask id).logged env (.nack id)) :=
        (Stamped.dropTask s id).trans (.of_inFlight rfl)
      cases hr : ((s.dropTask id).logged env (.nack id)).requeue task with
      | error e => exact hdropped
      | ok s' => exact hdropped.trans (.of_inFlight (requeue_inFlight hr))
    · -- the task goes back with the clock it had
      simp only [h]
      rw [insert_dropTask hl]
      exact .refl s

theorem extendVisibility_stamped {id : String} (hP : ∀ i, P id (env.now i)) (duration : UInt64) :
    Stamped P s (s.extendVisibility env id duration).2 := by
  unfold extendVisibility
  cases hl : s.inFlight.lookup id with
  | none => exact .refl s
  | some task =>
    simp only
    obtain h | ⟨e, h⟩ := s.logOp_cases env (.extendVisibility id duration)
    · rw [h]
      exact .insert s id (hP 1)
    · rw [h]
      exact .refl s

end Calls

theorem nackAll_stamped (envs : ℕ → Env) (s : InMemoryStorage α) (ids : List String)
    (count : ℕ) : Stamped P s (s.nackAll envs ids count).2 := by
  induction ids generalizing s envs count with
  | nil => exact .refl s
  | cons id ids ih =>
    have hn : Stamped P s (s.nack (envs 0) id).2 := s.nack_stamped id
    unfold nackAll
    split
    · next heq =>
      rw [heq] at hn
      exact hn.trans (ih _ _ _)
    · next heq =>
      rw [heq] at hn
      exact hn.trans (ih _ _ _)

/-- **What a call does to clocks**: it stamps under the ids it draws, and under the one it
extends. -/
theorem call_stamped {envs : ℕ → Env} {c : Call α}
    (hdraw : ∀ k i, P ((envs 0).uuid k) ((envs 0).now i))
    (hextend : ∀ id d, c = .extendVisibility id d → ∀ i, P id ((envs 0).now i))
    (s : InMemoryStorage α) : Stamped P s (s.call envs c).2 := by
  cases c with
  | createQueue name => exact s.createQueue_stamped name
  | queue name item => exact s.queue_stamped name item
  | queueBatch name items => exact s.queueBatch_stamped name items
  | dequeue name => exact s.dequeue_stamped hdraw name
  | dequeueBatch name count => exact s.dequeueBatch_stamped hdraw name count
  | ack taskId => exact s.ack_stamped taskId
  | ackBatch taskIds => exact s.ackBatch_stamped taskIds
  | nack taskId => exact s.nack_stamped taskId
  | extendVisibility taskId duration =>
    exact s.extendVisibility_stamped (hextend taskId duration rfl) duration
  | cleanupExpiredTasks timeoutSeconds =>
    change Stamped P s (s.cleanupExpiredTasks envs timeoutSeconds).2
    unfold cleanupExpiredTasks
    cases s.scanExpiredTasks (envs 0) timeoutSeconds with
    | ok expired => exact nackAll_stamped _ s expired 0
    | err e => exact .refl s
    | panic => exact .refl s

end InMemoryStorage

end Oxideq
