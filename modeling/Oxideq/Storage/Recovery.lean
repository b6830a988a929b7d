import Oxideq.Storage.Call
import Oxideq.Storage.Wal

/-!
# Recovery

A node is a store together with the file its log is kept in. While every append succeeds, each
call leaves the tables as the effects of the entries it wrote (`Logged`), so the file always
rebuilds the live state, over any number of calls and restarts (`Node.run_recovers`).
-/

namespace Oxideq

variable {α : Type}

/-! ### What a call writes -/

/-- From `s` to `s'` some entries were appended, and their effects are the change of the
tables. -/
def Logged (s s' : InMemoryStorage α) : Prop :=
  ∃ es : List (WalEntry α), s'.wal = s.wal.map (·.extend es) ∧
    SameState (s.effects (es.map WalEntry.op)) s'

namespace SameState

theorem effects {s r : InMemoryStorage α} (h : SameState s r) (ops : List (WalOp α)) :
    SameState (s.effects ops) (r.effects ops) := by
  induction ops generalizing s r with
  | nil => exact h
  | cons op ops ih => exact ih (h.effect _ _ op)

end SameState

namespace Logged

variable {s s' s'' : InMemoryStorage α}

theorem refl (s : InMemoryStorage α) : Logged s s := by
  refine ⟨[], ?_, SameState.refl s⟩
  cases s.wal <;> simp [WalManager.extend]

/-- A call that writes nothing changes nothing. -/
theorem of_sameState (hwal : s'.wal = s.wal) (h : SameState s s') : Logged s s' := by
  refine ⟨[], ?_, h⟩
  rw [hwal]
  cases s.wal <;> simp [WalManager.extend]

theorem trans (h : Logged s s') (h' : Logged s' s'') : Logged s s'' := by
  obtain ⟨es, hwal, hs⟩ := h
  obtain ⟨es', hwal', hs'⟩ := h'
  refine ⟨es ++ es', ?_, ?_⟩
  · rw [hwal', hwal, Option.map_map]
    congr 1
    funext m
    simp [WalManager.extend]
  · rw [List.map_append, InMemoryStorage.effects_append]
    exact (hs.effects _).trans hs'

end Logged

namespace InMemoryStorage

theorem sameState_logged (s : InMemoryStorage α) (env : Env) (op : WalOp α) :
    SameState s (s.logged env op) := SameState.of_tables rfl rfl

/-- A call that writes one entry and has its effect. -/
theorem logged_of_effect {s s' : InMemoryStorage α} (env : Env) (op : WalOp α) (now : ℕ → Int)
    (hwal : s'.wal = (s.logged env op).wal) (h : SameState ((s.logged env op).effect now op) s') :
    Logged s s' :=
  ⟨[⟨op, timestampMillis (env.now 0)⟩], hwal,
    ((s.sameState_logged env op).effect (fun _ => 0) now op).trans h⟩

/-- A batch is delivered from as many items as it has ids. -/
theorem deliverAll_take (name : String) (now : ℕ → Int) {ids : List String}
    {items : List (QueueItem α)} {n : ℕ} (h : ids.length = (items.take n).length) :
    deliverAll name now ids (items.take n) = deliverAll name now ids items := by
  have hzip : ids.zip items = ids.zip (items.take n) := calc
    ids.zip items = (ids ++ []).zip (items.take n ++ items.drop n) := by
      rw [List.append_nil, List.take_append_drop]
    _ = ids.zip (items.take n) ++ [].zip (items.drop n) := List.zip_append h
    _ = ids.zip (items.take n) := by rw [List.zip_nil_left, List.append_nil]
  unfold deliverAll
  rw [hzip]

theorem drop_length_take (items : List (QueueItem α)) (n : ℕ) :
    items.drop (items.take n).length = items.drop n := by
  rw [List.length_take]
  rcases le_total n items.length with hn | hn
  · rw [min_eq_left hn]
  · rw [min_eq_right hn, List.drop_length, List.drop_eq_nil_of_le hn]

/-! ### One lemma for each call -/

section Calls

variable (env : Env) (s : InMemoryStorage α)

theorem createQueue_logged (name : String) : Logged s (s.createQueue env name).2 := by
  unfold createQueue
  split
  · exact Logged.refl s
  · next hn =>
    obtain h | ⟨e, h⟩ := s.logOp_cases env (.createQueue name)
    · rw [h]
      refine logged_of_effect env (.createQueue name) (fun _ => 0) rfl ?_
      rw [effect, logged_queues, if_neg hn]
      exact SameState.refl _
    · rw [h]
      exact Logged.refl s

/-- Behind its entry, an enqueue pushes its items, or finds no queue to push them to. -/
theorem pushBack_logged (op : WalOp α) (name : String) (items : List α)
    (hop : ∀ r : InMemoryStorage α, r.effect (fun _ => 0) op = r.orSelf (r.pushBack name items)) :
    Logged s ((s.logged env op).orSelf ((s.logged env op).pushBack name items)) := by
  refine logged_of_effect env op (fun _ => 0) ?_ ?_
  · rw [← hop, effect_wal]
  · rw [hop]
    exact SameState.refl _

theorem queue_logged (name : String) (item : α) : Logged s (s.queue env name item).2 := by
  unfold queue
  split
  · exact Logged.refl s
  obtain h | ⟨e, h⟩ := s.logOp_cases env (.enqueue name item)
  · simp only [h]
    have hpush := pushBack_logged env s (.enqueue name item) name [item] fun _ => rfl
    cases hp : (s.logged env (.enqueue name item)).pushBack name [item] with
    | error e => rwa [hp] at hpush
    | ok s' => rwa [hp] at hpush
  · rw [h]
    exact Logged.refl s

theorem queueBatch_logged (name : String) (items : List α) :
    Logged s (s.queueBatch env name items).2 := by
  unfold queueBatch
  split
  · exact Logged.refl s
  obtain h | ⟨e, h⟩ := s.logOp_cases env (.enqueueBatch name items)
  · simp only [h]
    have hpush := pushBack_logged env s (.enqueueBatch name items) name items fun _ => rfl
    cases hp : (s.logged env (.enqueueBatch name items)).pushBack name items with
    | error e => rwa [hp] at hpush
    | ok s' => rwa [hp] at hpush
  · rw [h]
    exact Logged.refl s

theorem dequeue_logged (name : String) : Logged s (s.dequeue env name).2 := by
  unfold dequeue
  cases hq : s.queues.lookup name with
  | none => exact Logged.refl s
  | some items =>
    cases items with
    | nil => exact Logged.refl s
    | cons item rest =>
      simp only
      obtain h | ⟨e, h⟩ := (s.setQueue name rest).logOp_cases env (.dequeued name (env.uuid 0))
      · rw [h]
        refine logged_of_effect env (.dequeued name (env.uuid 0)) (fun _ => env.now 1) rfl ?_
        rw [effect, replayDeliveries, logged_queues, hq]
        exact SameState.refl _
      · -- the item goes back to the front
        simp only [h]
        rw [setQueue_setQueue, setQueue_self hq]
        exact Logged.refl s

theorem dequeueBatch_logged (name : String) (count : UInt64) :
    Logged s (s.dequeueBatch env name count).2 := by
  unfold dequeueBatch
  cases hq : s.queues.lookup name with
  | none => exact Logged.refl s
  | some items =>
    simp only
    split
    · exact Logged.refl s
    split
    · exact Logged.refl s
    split
    · next hempty =>
      -- a batch of size zero pops nothing and logs nothing
      have hdrop : items.drop count.toNat = items := by
        have hn : ¬ items.isEmpty := by assumption
        rw [List.isEmpty_iff, List.take_eq_nil_iff] at hempty
        rw [List.isEmpty_iff] at hn
        rw [hempty.resolve_right hn, List.drop_zero]
      refine Logged.of_sameState rfl ?_
      rw [hdrop, setQueue_self hq]
      exact SameState.refl s
    generalize hids : (List.range (items.take count.toNat).length).map env.uuid = ids
    have hlen : ids.length = (items.take count.toNat).length := by
      rw [← hids, List.length_map, List.length_range]
    obtain h | ⟨e, h⟩ :=
      (s.setQueue name (items.drop count.toNat)).logOp_cases env (.dequeuedBatch name ids)
    · rw [h]
      refine logged_of_effect env (.dequeuedBatch name ids) (fun i => env.now (i + 1)) ?_ ?_
      · rw [foldl_putTask_wal]
        rfl
      · rw [effect, replayDeliveries, logged_queues, hq]
        simp only [hlen]
        rw [drop_length_take, deliverAll_take _ _ hlen]
        exact SameState.refl _
    · simp only [h]
      -- the items go back to the front, the last one first
      rw [setQueue_setQueue, foldl_cons_reverse, List.take_append_drop, setQueue_self hq]
      exact Logged.refl s

/-- A failed append leaves the task of an `ack` removed, so this lemma alone needs the append to
succeed, or the call to return `Ok`. -/
theorem ack_logged (id : String)
    (hok : env.append = .ok () ∨ (s.ack env id).1 = .ok ()) : Logged s (s.ack env id).2 := by
  unfold ack at hok ⊢
  cases hl : s.inFlight.lookup id with
  | none => exact Logged.refl s
  | some task =>
    simp only [hl] at hok ⊢
    -- the entry of a failed append is not in the file, and the task is gone all the same
    obtain h | ⟨e, h⟩ := (s.dropTask id).logOp_cases env (.ack id)
    · rw [h]
      exact logged_of_effect env (.ack id) (fun _ => 0) rfl (SameState.refl _)
    · rw [h] at hok
      rcases hok with hok | hok
      · rw [logOp_ok hok] at h
        cases h
      · cases hok

theorem nack_logged (id : String) : Logged s (s.nack env id).2 := by
  unfold nack
  cases hl : s.inFlight.lookup id with
  | none => exact Logged.refl s
  | some task =>
    simp only
    obtain h | ⟨e, h⟩ := (s.dropTask id).logOp_cases env (.nack id)
    · simp only [h, logged_dropTask]
      cases hr : ((s.logged env (.nack id)).dropTask id).requeue task with
      | error e =>
        refine logged_of_effect env (.nack id) (fun _ => 0) rfl ?_
        simp only [effect, logged_inFlight, hl, hr]
        exact SameState.refl _
      | ok s' =>
        have hwal : s'.wal = ((s.logged env (.nack id)).dropTask id).wal := requeue_wal hr
        refine logged_of_effect env (.nack id) (fun _ => 0) hwal ?_
        simp only [effect, logged_inFlight, hl, hr]
        exact SameState.refl _
    · simp only [h]
      -- the task is put back under its id
      rw [insert_dropTask hl]
      exact Logged.refl s

theorem extendVisibility_logged (id : String) (duration : UInt64) :
    Logged s (s.extendVisibility env id duration).2 := by
  unfold extendVisibility
  cases hl : s.inFlight.lookup id with
  | none => exact Logged.refl s
  | some task =>
    simp only
    obtain h | ⟨e, h⟩ := s.logOp_cases env (.extendVisibility id duration)
    · rw [h]
      refine logged_of_effect env (.extendVisibility id duration) env.now rfl ?_
      simp only [effect, logged_inFlight, hl]
      exact SameState.refl _
    · rw [h]
      exact Logged.refl s

theorem ackBatch_logged (ids : List String) : Logged s (s.ackBatch env ids).2 := by
  unfold ackBatch
  simp only
  split
  · exact Logged.refl s
  · next hm =>
    have hall : ∀ id ∈ ids, id ∈ s.inFlight := by simpa using hm
    obtain h | ⟨e, h⟩ := s.logOp_cases env (.ackBatch ids)
    · rw [h]
      refine logged_of_effect env (.ackBatch ids) (fun _ => 0) (foldl_dropTask_wal ..) ?_
      rw [effect, logged_inFlight, if_pos hall]
      exact SameState.refl _
    · rw [h]
      exact Logged.refl s

end Calls

/-- `nack` takes its own task out of flight, or none. -/
theorem nack_inFlight (s : InMemoryStorage α) (env : Env) (id : String) :
    (s.nack env id).2.inFlight = s.inFlight ∨
      (s.nack env id).2.inFlight = s.inFlight.erase id := by
  unfold nack
  cases hl : s.inFlight.lookup id with
  | none => exact Or.inl rfl
  | some task =>
    simp only
    obtain h | ⟨e, h⟩ := (s.dropTask id).logOp_cases env (.nack id)
    · simp only [h]
      cases hr : ((s.dropTask id).logged env (.nack id)).requeue task with
      | error e => exact Or.inr rfl
      | ok s' => exact Or.inr (requeue_inFlight hr)
    · simp only [h]
      exact Or.inl (congrArg inFlight (insert_dropTask hl))

theorem nackAll_logged (envs : ℕ → Env) (s : InMemoryStorage α) (ids : List String)
    (count : ℕ) : Logged s (s.nackAll envs ids count).2 := by
  induction ids generalizing s envs count with
  | nil => exact Logged.refl s
  | cons id ids ih =>
    have hn := nack_logged (envs 0) s id
    unfold nackAll
    split
    · next heq =>
      rw [heq] at hn
      exact hn.trans (ih ..)
    · next heq =>
      rw [heq] at hn
      exact hn.trans (ih ..)

theorem cleanupExpiredTasks_logged (envs : ℕ → Env) (s : InMemoryStorage α)
    (timeoutSeconds : UInt64) : Logged s (s.cleanupExpiredTasks envs timeoutSeconds).2 := by
  unfold cleanupExpiredTasks
  cases s.scanExpiredTasks (envs 0) timeoutSeconds with
  | ok expired => exact nackAll_logged ..
  | err e => exact Logged.refl s
  | panic => exact Logged.refl s

/-- **Every call logs what it does**, when it returns `Ok` or no append of it fails. -/
theorem call_logged (envs : ℕ → Env) (s : InMemoryStorage α) (c : Call α)
    (h : (∀ k, (envs k).append = .ok ()) ∨ ∃ r, (s.call envs c).1 = .ok r) :
    Logged s (s.call envs c).2 := by
  cases c with
  | createQueue name => exact createQueue_logged ..
  | queue name item => exact queue_logged ..
  | queueBatch name items => exact queueBatch_logged ..
  | dequeue name => exact dequeue_logged ..
  | dequeueBatch name count => exact dequeueBatch_logged ..
  | ack taskId =>
    refine ack_logged _ _ _ (h.imp (fun h => h 0) fun ⟨r, hr⟩ => ?_)
    simp only [call, Prod.map] at hr
    cases ho : (s.ack (envs 0) taskId).1 with
    | ok u => rfl
    | err e => rw [ho] at hr; cases hr
    | panic => rw [ho] at hr; cases hr
  | ackBatch taskIds => exact ackBatch_logged ..
  | nack taskId => exact nack_logged ..
  | extendVisibility taskId duration => exact extendVisibility_logged ..
  | cleanupExpiredTasks timeoutSeconds => exact cleanupExpiredTasks_logged ..

end InMemoryStorage

/-! ### Nodes -/

/-- A persistent store and its log file, by the bytes the file had when it was opened. -/
structure Node where
  file : Bytes
  store : InMemoryStorage Bytes

namespace Node

/-- The bytes of the file now: what was there, and what was appended since. -/
def contents (n : Node) : Bytes := n.file ++ (n.store.wal.elim [] WalManager.bytes)

/-- A process that finds the given bytes in its log file. -/
def start (envs : ℕ → Env) (file : Bytes) : Node :=
  ⟨file, InMemoryStorage.newPersistent envs file⟩

/-- What happens to a node: a call, or a stop of the process and its next start. -/
inductive Event where
  | call (envs : ℕ → Env) (c : Call Bytes)
  | restart (envs : ℕ → Env)

def step (n : Node) : Event → Node
  | .call envs c => { n with store := (n.store.call envs c).2 }
  | .restart envs => start envs n.contents

def run (n : Node) (events : List Event) : Node := events.foldl step n

/-- No append of the event fails. -/
def Event.AppendsSucceed : Event → Prop
  | .call envs _ => ∀ k, (envs k).append = .ok ()
  | .restart _ => True

/-- The file is a list of complete lines, and the effects of their entries make the tables. -/
def Recovers (n : Node) : Prop :=
  n.store.wal.isSome ∧ ∃ es : List (WalEntry Bytes),
    n.contents = Json.unlines (es.map WalEntry.line) ∧
      SameState ((InMemoryStorage.new : InMemoryStorage Bytes).effects (es.map WalEntry.op)) n.store

theorem contents_start (envs : ℕ → Env) (file : Bytes) : (start envs file).contents = file := by
  show file ++ WalManager.bytes WalManager.new = file
  simp [WalManager.bytes, WalManager.new]

/-- What `new_persistent` makes of complete lines. -/
theorem newPersistent_unlines (envs : ℕ → Env) (es : List (WalEntry Bytes)) :
    InMemoryStorage.newPersistent envs (Json.unlines (es.map WalEntry.line))
      = InMemoryStorage.recover envs es := by
  rw [InMemoryStorage.newPersistent, WalManager.replay_written, Option.getD_some]

theorem recovers_start (envs : ℕ → Env) (es : List (WalEntry Bytes)) :
    Recovers (start envs (Json.unlines (es.map WalEntry.line))) := by
  refine ⟨rfl, es, contents_start _ _, ?_⟩
  rw [start, newPersistent_unlines]
  exact InMemoryStorage.recover_sameState envs es

/-- A call that logs what it does keeps file and tables in agreement. -/
theorem Recovers.of_logged {n : Node} (hn : Recovers n) {envs : ℕ → Env} {c : Call Bytes}
    (h : Logged n.store (n.store.call envs c).2) : Recovers (n.step (.call envs c)) := by
  obtain ⟨hopen, es, hfile, hs⟩ := hn
  obtain ⟨es', hwal, hs'⟩ := h
  obtain ⟨m, hm⟩ := Option.isSome_iff_exists.mp hopen
  rw [hm, Option.map_some] at hwal
  refine ⟨by rw [Node.step, hwal]; rfl, es ++ es', ?_, ?_⟩
  · rw [contents, hm] at hfile
    rw [List.map_append, Json.unlines_append, ← hfile, Node.step, contents, hwal]
    simp [WalManager.bytes, WalManager.extend, Json.unlines_append]
  -- what the file made so far, and what the call has added
  · rw [List.map_append, InMemoryStorage.effects_append]
    exact (hs.effects _).trans hs'

theorem Recovers.call {n : Node} (hn : Recovers n) {envs : ℕ → Env} {c : Call Bytes}
    (h : (∀ k, (envs k).append = .ok ()) ∨ ∃ r, (n.store.call envs c).1 = .ok r) :
    Recovers (n.step (.call envs c)) :=
  hn.of_logged (InMemoryStorage.call_logged envs n.store c h)

theorem Recovers.restart {n : Node} (hn : Recovers n) (envs : ℕ → Env) :
    Recovers (n.step (.restart envs)) := by
  obtain ⟨-, es, hfile, -⟩ := hn
  rw [Node.step, hfile]
  exact recovers_start envs es

theorem Recovers.step {n : Node} (hn : Recovers n) {ev : Event} (hev : ev.AppendsSucceed) :
    Recovers (n.step ev) := by
  cases ev with
  | call envs c => exact hn.call (Or.inl hev)
  | restart envs => exact hn.restart envs

theorem Recovers.run {n : Node} (hn : Recovers n) {events : List Event}
    (hev : ∀ ev ∈ events, ev.AppendsSucceed) : Recovers (n.run events) := by
  induction events generalizing n with
  | nil => exact hn
  | cons ev events ih =>
    exact ih (hn.step (hev ev List.mem_cons_self)) fun ev hm => hev ev (List.mem_cons_of_mem _ hm)

/-- The state a start makes of the file is the live state. -/
theorem Recovers.newPersistent {n : Node} (hn : Recovers n) (envs : ℕ → Env) :
    SameState (InMemoryStorage.newPersistent envs n.contents) n.store := by
  obtain ⟨-, es, hfile, hs⟩ := hn
  rw [hfile, newPersistent_unlines]
  exact (InMemoryStorage.recover_sameState envs es).symm.trans hs

/-- **Recovery equals the live state.** From an empty file, after any calls and restarts with
every append succeeding, `new_persistent` on the file rebuilds the live store, `consumed_at`
aside. -/
theorem newPersistent_run (envs₀ envs : ℕ → Env) (events : List Event)
    (hev : ∀ ev ∈ events, ev.AppendsSucceed) :
    SameState (InMemoryStorage.newPersistent envs ((start envs₀ []).run events).contents)
      ((start envs₀ []).run events).store :=
  ((recovers_start envs₀ []).run hev).newPersistent envs

/-- A message is delivered, the process restarts, and the message is returned, delivered again
and acknowledged. -/
def redelivery : List Event :=
  [.call (fun _ => Env.quiet []) (.createQueue "jobs"),
    .call (fun _ => Env.quiet []) (.queue "jobs" [0x68, 0x69]),
    .call (fun _ => Env.quiet ["5b0f6f4e-7f5c-4a39-9d3b-2f4f1c1f0b11"]) (.dequeue "jobs"),
    .restart (fun _ => Env.quiet []),
    .call (fun _ => Env.quiet []) (.nack "5b0f6f4e-7f5c-4a39-9d3b-2f4f1c1f0b11"),
    .call (fun _ => Env.quiet ["0c9a0c53-7a0e-4a0c-8a55-6d2b1f1d9e22"]) (.dequeue "jobs"),
    .call (fun _ => Env.quiet []) (.ack "0c9a0c53-7a0e-4a0c-8a55-6d2b1f1d9e22")]

theorem newPersistent_run_redelivery :
    SameState
      (InMemoryStorage.newPersistent (fun _ => Env.quiet [])
        ((start (fun _ => Env.quiet []) []).run redelivery).contents)
      ((start (fun _ => Env.quiet []) []).run redelivery).store :=
  newPersistent_run _ _ redelivery (by simp [redelivery, Event.AppendsSucceed, Env.quiet])

end Node

end Oxideq
