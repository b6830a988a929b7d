import Oxideq.Concurrent.Calls
import Oxideq.Lib.Table

/-!
# A call on its own

The two readings of a method side by side: the sequential one, `InMemoryStorage.call`, and the one
cut at every access, `Pc.step`. **A call that takes all its steps while nothing else runs ends with
the outcome and the store of the sequential reading** (`ends_call`); `cleanup_expired_tasks`, which
makes further calls, is left out.

All steps of such a call share one environment. The readings of its clock are numbered as the
sequential reading numbers them: the first is taken for the log entry, and every task that is
handed out takes one more. `Pc.readings` says how many there were before the next step.
-/

namespace Oxideq

variable {α : Type}

/-- The environment after `n` readings of the clock. -/
def Env.later (env : Env) (n : ℕ) : Env := { env with now := fun k => env.now (n + k) }

/-- How often the call has read the clock. -/
def Pc.readings : Pc α → ℕ
  | .apply _ => 1
  | .insertTasks _ _ tasks => tasks.length + 1
  | _ => 0

/-- One step of a call that runs alone. -/
def advance (env : Env) (x : InMemoryStorage α × Pc α) : InMemoryStorage α × Pc α :=
  let r := x.2.step x.1 (env.later x.2.readings)
  (r.1.run x.1 (env.later x.2.readings), r.2)

/-- The call comes to its end, with the outcome `r` and the store `s'`. -/
def Ends (env : Env) (x : InMemoryStorage α × Pc α) (s' : InMemoryStorage α)
    (r : Outcome (Reply α)) : Prop :=
  ∃ n, (advance env)^[n] x = (s', .done r)

namespace Ends

variable {env : Env} {s s' s'' : InMemoryStorage α} {x : InMemoryStorage α × Pc α}
  {r r' : Outcome (Reply α)}

theorem done : Ends env (s, .done r) s r := ⟨0, rfl⟩

theorem step (h : Ends env (advance env x) s' r) : Ends env x s' r := by
  obtain ⟨n, hn⟩ := h
  exact ⟨n + 1, hn⟩

/-- A call that has ended stays where it is. -/
theorem advance_done (n : ℕ) : (advance env)^[n] (s, .done r) = (s, .done r) :=
  Function.iterate_fixed rfl n

/-- **A call that runs alone has one end.** -/
theorem unique (h : Ends env x s' r) (h' : Ends env x s'' r') : s' = s'' ∧ r = r' := by
  obtain ⟨n, hn⟩ := h
  obtain ⟨m, hm⟩ := h'
  have hlater : (advance env)^[m] ((advance env)^[n] x)
      = (advance env)^[n] ((advance env)^[m] x) := by
    rw [← Function.iterate_add_apply, Nat.add_comm, Function.iterate_add_apply]
  rw [hn, hm, advance_done, advance_done, Prod.mk.injEq] at hlater
  exact ⟨hlater.1, Pc.done.inj hlater.2⟩

end Ends

/-! ### The log -/

section Steps

variable {env : Env} {s s' : InMemoryStorage α} {r : Outcome (Reply α)}

theorem later_zero (env : Env) : env.later 0 = env := by
  simp only [Env.later, Nat.zero_add]

/-- What follows the first access is decided by the append, which a store without a log passes. -/
theorem ends_toLog {w : Work α}
    (hok : ∀ s₁, s.logOp env w.op = .ok s₁ → Ends env (s₁, Pc.afterLog w) s' r)
    (herr : ∀ e, s.logOp env w.op = .error e → Ends env (s, Pc.failLog e w) s' r) :
    Ends env (s, Pc.toLog s w) s' r := by
  unfold Pc.toLog
  cases hwal : s.wal with
  | none =>
    refine hok s ?_
    unfold InMemoryStorage.logOp
    rw [hwal]
  | some m =>
    -- the mutex is acquired at once
    refine Ends.step (Ends.step ?_)
    change Ends env (advance env (s, .appendWal w)) s' r
    cases happ : env.append with
    | ok u =>
      have hlog : s.logOp env w.op = .ok (s.logged env w.op) :=
        InMemoryStorage.logOp_ok happ s w.op
      have hadv : advance env (s, .appendWal w) = (s.logged env w.op, Pc.afterLog w) := by
        simp only [advance, Pc.readings, later_zero, Pc.step, happ, Access.run]
      rw [hadv]
      exact hok _ hlog
    | error e =>
      have hlog : s.logOp env w.op = .error e := by
        simp only [InMemoryStorage.logOp, hwal, WalManager.append, happ]
      have hadv : advance env (s, .appendWal w) = (s, Pc.failLog e w) := by
        simp only [advance, Pc.readings, later_zero, Pc.step, happ, Access.run]
      rw [hadv]
      exact herr e hlog

/-- The first access of a call. -/
theorem ends_start {c : Call α} {a : Access α} {pc : Pc α} (h : Pc.begin s env c = (a, pc))
    (he : Ends env (a.run s env, pc) s' r) : Ends env (s, .start c) s' r := by
  refine Ends.step ?_
  have hadv : advance env (s, .start c) = (a.run s env, pc) := by
    simp only [advance, Pc.readings, later_zero, Pc.step, h]
  rwa [hadv]

/-- A call that is refused at once. -/
theorem ends_reject {c : Call α} (h : Pc.begin s env c = (.look, .done r)) :
    Ends env (s, .start c) s r := ends_start h .done

/-- The log entry leaves the tables alone. -/
theorem logOp_inFlight {s₁ : InMemoryStorage α} {op : WalOp α} (h : s.logOp env op = .ok s₁) :
    s₁.inFlight = s.inFlight := by
  rcases s.logOp_cases env op with hok | ⟨e, herr⟩
  · rw [hok] at h
    cases h
    rfl
  · rw [herr] at h
    cases h

/-! ### The loops -/

/-- The loop of `ack_batch` that looks for the tasks. -/
theorem ends_verify {taskIds todo missing : List String}
    (h : Ends env (s, .verify taskIds [] (missing ++ todo.filter (· ∉ s.inFlight))) s' r) :
    Ends env (s, .verify taskIds todo missing) s' r := by
  induction todo generalizing missing with
  | nil => rwa [List.filter_nil, List.append_nil] at h
  | cons id todo ih =>
    refine Ends.step ?_
    change Ends env (s, .verify taskIds todo (if id ∈ s.inFlight then missing
      else missing ++ [id])) s' r
    apply ih
    by_cases hid : id ∈ s.inFlight
    · rw [if_pos hid]
      rwa [List.filter_cons_of_neg (by simpa using hid)] at h
    · rw [if_neg hid, List.append_assoc]
      rwa [List.filter_cons_of_pos (by simpa using hid)] at h

/-- The loop of `ack_batch` that removes them. -/
theorem ends_removeTasks (todo : List String) :
    Ends env (s, .removeTasks todo) (todo.foldl InMemoryStorage.dropTask s) (.ok .done) := by
  induction todo generalizing s with
  | nil => exact Ends.step .done
  | cons id todo ih => exact Ends.step ih

/-- The tasks of a batch, each at its own reading of the clock, the first of them the `n`-th. -/
def handOut (env : Env) (name : String) (n : ℕ) (deliveries : List (String × QueueItem α)) :
    List (InFlightTask α) :=
  deliveries.mapIdx fun i p => InFlightTask.deliver p.1 name (env.now (i + n)) p.2

theorem handOut_cons (name : String) (n : ℕ) (p : String × QueueItem α)
    (deliveries : List (String × QueueItem α)) :
    handOut env name n (p :: deliveries)
      = InFlightTask.deliver p.1 name (env.now n) p.2 :: handOut env name (n + 1) deliveries := by
  simp only [handOut, List.mapIdx_cons, Nat.zero_add, Nat.add_assoc, Nat.add_comm 1]

/-- The loop of `dequeue_batch` that hands out the tasks. -/
theorem ends_insertTasks (name : String) (todo : List (String × QueueItem α))
    (tasks : List (InFlightTask α)) :
    Ends env (s, .insertTasks name todo tasks)
      ((handOut env name (tasks.length + 1) todo).foldl InMemoryStorage.putTask s)
      (.ok (.deliveredBatch (tasks ++ handOut env name (tasks.length + 1) todo))) := by
  induction todo generalizing s tasks with
  | nil =>
    change Ends env (s, .insertTasks name [] tasks) s (.ok (.deliveredBatch (tasks ++ [])))
    rw [List.append_nil]
    exact Ends.step .done
  | cons p todo ih =>
    refine Ends.step ?_
    let task := InFlightTask.deliver p.1 name (env.now (tasks.length + 1)) p.2
    have hnext := ih (s := s.putTask task) (tasks ++ [task])
    rw [List.length_append, List.length_singleton, List.append_assoc] at hnext
    rw [handOut_cons, List.foldl_cons]
    exact hnext

/-! ### The methods -/

theorem ends_createQueue (name : String) :
    Ends env (s, .start (.createQueue name)) (s.createQueue env name).2
      ((s.createQueue env name).1.map fun _ => .done) := by
  by_cases hn : name ∈ s.queues
  · rw [InMemoryStorage.createQueue, if_pos hn]
    exact ends_reject (if_pos hn)
  · rw [InMemoryStorage.createQueue, if_neg hn]
    refine ends_start (if_neg hn) (ends_toLog (fun s₁ hok => ?_) fun e herr => ?_)
    · rw [show s.logOp env (.createQueue name) = .ok s₁ from hok]
      exact Ends.step .done
    · rw [show s.logOp env (.createQueue name) = .error e from herr]
      exact .done

/-- The push behind the log entry looks for its queue once more. -/
theorem ends_pushBack {s₁ : InMemoryStorage α} {w : Work α} {name : String} {items : List α}
    (hw : ∀ env' : Env, Pc.commit s₁ env' w
      = if name ∈ s₁.queues then (.pushBack name (items.map fun d => ⟨d, 0⟩), .done (.ok .done))
        else (.look, .done (.err (queueNotFound name)))) :
    let pushed : Outcome Unit × InMemoryStorage α :=
      match s₁.pushBack name items with
      | .error e => (.err e, s₁)
      | .ok s₂ => (.ok (), s₂)
    Ends env (s₁, .apply w) pushed.2 (pushed.1.map fun _ => .done) := by
  refine Ends.step ?_
  cases hl : s₁.queues.lookup name with
  | none =>
    have hn : name ∉ s₁.queues := Finmap.lookup_eq_none.mp hl
    simp only [advance, Pc.step, hw, if_neg hn, InMemoryStorage.pushBack, hl]
    exact .done
  | some q =>
    have hn : name ∈ s₁.queues := Finmap.mem_of_lookup_eq_some hl
    simp only [advance, Pc.step, hw, if_pos hn, InMemoryStorage.pushBack, hl, Access.run,
      InMemoryStorage.items_of_lookup hl]
    exact .done

theorem ends_queue (name : String) (item : α) :
    Ends env (s, .start (.queue name item)) (s.queue env name item).2
      ((s.queue env name item).1.map fun _ => .done) := by
  by_cases hn : name ∉ s.queues
  · rw [InMemoryStorage.queue, if_pos hn]
    exact ends_reject (if_pos hn)
  · rw [InMemoryStorage.queue, if_neg hn]
    refine ends_start (if_neg hn) (ends_toLog (fun s₁ hok => ?_) fun e herr => ?_)
    · rw [show s.logOp env (.enqueue name item) = .ok s₁ from hok]
      exact ends_pushBack (w := .queue name item) fun _ => rfl
    · rw [show s.logOp env (.enqueue name item) = .error e from herr]
      exact .done

theorem ends_queueBatch (name : String) (items : List α) :
    Ends env (s, .start (.queueBatch name items)) (s.queueBatch env name items).2
      ((s.queueBatch env name items).1.map fun _ => .done) := by
  by_cases hn : name ∉ s.queues
  · rw [InMemoryStorage.queueBatch, if_pos hn]
    exact ends_reject (if_pos hn)
  · rw [InMemoryStorage.queueBatch, if_neg hn]
    refine ends_start (if_neg hn) (ends_toLog (fun s₁ hok => ?_) fun e herr => ?_)
    · rw [show s.logOp env (.enqueueBatch name items) = .ok s₁ from hok]
      exact ends_pushBack (w := .queueBatch name items) fun _ => rfl
    · rw [show s.logOp env (.enqueueBatch name items) = .error e from herr]
      exact .done

theorem ends_dequeue (name : String) :
    Ends env (s, .start (.dequeue name)) (s.dequeue env name).2
      ((s.dequeue env name).1.map .delivered) := by
  cases hl : s.queues.lookup name with
  | none =>
    simp only [InMemoryStorage.dequeue, hl]
    exact ends_reject (by simp only [Pc.begin, hl, Outcome.map])
  | some items =>
    cases items with
    | nil =>
      simp only [InMemoryStorage.dequeue, hl]
      exact ends_reject (by simp only [Pc.begin, hl, Outcome.map])
    | cons item rest =>
      let popped := s.setQueue name rest
      simp only [InMemoryStorage.dequeue, hl]
      have hbegin : Pc.begin s env (.dequeue name)
          = (.pop name 1, Pc.toLog popped (.dequeue name item (env.uuid 0))) := by
        simp only [Pc.begin, hl]
        rfl
      refine ends_start hbegin ?_
      have hrun : (Access.pop name 1).run s env = popped := by
        simp only [Access.run, InMemoryStorage.items_of_lookup hl, List.drop_one, List.tail_cons,
          popped]
      rw [hrun]
      refine ends_toLog (fun s₁ hok => ?_) fun e herr => ?_
      · rw [show popped.logOp env (.dequeued name (env.uuid 0)) = .ok s₁ from hok]
        exact Ends.step .done
      · rw [show popped.logOp env (.dequeued name (env.uuid 0)) = .error e from herr]
        -- the item goes back in front of what is left
        have hitems : popped.items name = rest :=
          InMemoryStorage.items_of_lookup (Finmap.lookup_insert _)
        refine Ends.step ?_
        change Ends env (popped.setQueue name ([item] ++ popped.items name), .done (.err e)) _ _
        rw [hitems]
        exact .done

/-- A queue that is written back as it was. -/
theorem setQueue_of_lookup {name : String} {items : List (QueueItem α)}
    (h : s.queues.lookup name = some items) : s.setQueue name items = s := by
  rw [InMemoryStorage.setQueue, ← Table.insert_erase_insert, Table.insert_erase h]

theorem ends_dequeueBatch (name : String) (count : UInt64) :
    Ends env (s, .start (.dequeueBatch name count)) (s.dequeueBatch env name count).2
      ((s.dequeueBatch env name count).1.map .deliveredBatch) := by
  cases hl : s.queues.lookup name with
  | none =>
    simp only [InMemoryStorage.dequeueBatch, hl]
    exact ends_reject (by simp only [Pc.begin, hl, Outcome.map])
  | some items =>
    by_cases hempty : items.isEmpty
    · simp only [InMemoryStorage.dequeueBatch, hl, if_pos hempty]
      exact ends_reject (by simp only [Pc.begin, hl, if_pos hempty, Outcome.map])
    by_cases hcap : capacityOverflow count
    · simp only [InMemoryStorage.dequeueBatch, hl, if_neg hempty, if_pos hcap]
      exact ends_reject (by simp only [Pc.begin, hl, if_neg hempty, if_pos hcap, Outcome.map])
    let poppedItems := items.take count.toNat
    let popped := s.setQueue name (items.drop count.toNat)
    by_cases hnone : poppedItems.isEmpty
    · -- a count of zero puts the same items back
      have hsame : s.setQueue name (items.drop count.toNat) = s := by
        have hdrop : items.drop count.toNat = items := by
          have happ := List.take_append_drop count.toNat items
          rwa [show items.take count.toNat = [] from List.isEmpty_iff.mp hnone,
            List.nil_append] at happ
        rw [hdrop, setQueue_of_lookup hl]
      simp only [InMemoryStorage.dequeueBatch, hl, if_neg hempty, if_neg hcap, hsame]
      rw [if_pos hnone]
      refine ends_reject ?_
      simp only [Pc.begin, hl, if_neg hempty, if_neg hcap]
      rw [if_pos hnone]
      rfl
    let taskIds := (List.range poppedItems.length).map env.uuid
    simp only [InMemoryStorage.dequeueBatch, hl, if_neg hempty, if_neg hcap]
    rw [if_neg hnone]
    have hbegin : Pc.begin s env (.dequeueBatch name count)
        = (.pop name count.toNat,
          Pc.toLog popped (.dequeueBatch name (taskIds.zip poppedItems))) := by
      simp only [Pc.begin, hl, if_neg hempty, if_neg hcap]
      rw [if_neg hnone]
      rfl
    have hlength : taskIds.length = poppedItems.length := by
      rw [List.length_map, List.length_range]
    have hrun : (Access.pop name count.toNat).run s env = popped := by
      simp only [Access.run, InMemoryStorage.items_of_lookup hl, popped]
    have hop : (Work.dequeueBatch name (taskIds.zip poppedItems)).op
        = .dequeuedBatch name taskIds := by
      rw [Work.op, List.map_fst_zip (le_of_eq hlength)]
    refine ends_start hbegin ?_
    rw [hrun]
    refine ends_toLog (fun s₁ hok => ?_) fun e herr => ?_
    · rw [hop] at hok
      rw [show popped.logOp env (.dequeuedBatch name taskIds) = .ok s₁ from hok]
      exact ends_insertTasks name (taskIds.zip poppedItems) []
    · rw [hop] at herr
      rw [show popped.logOp env (.dequeuedBatch name taskIds) = .error e from herr]
      -- the items go back in front of what is left, in their order
      have hitems : popped.items name = items.drop count.toNat :=
        InMemoryStorage.items_of_lookup (Finmap.lookup_insert _)
      have hsnd : (taskIds.zip poppedItems).map Prod.snd = poppedItems :=
        List.map_snd_zip (le_of_eq hlength.symm)
      refine Ends.step ?_
      change Ends env (popped.setQueue name ((taskIds.zip poppedItems).map Prod.snd
        ++ popped.items name), .done (.err e)) _ _
      rw [hitems, hsnd]
      simp only [InMemoryStorage.foldl_cons_reverse]
      exact .done

theorem ends_ack (id : String) :
    Ends env (s, .start (.ack id)) (s.ack env id).2 ((s.ack env id).1.map fun _ => .done) := by
  cases hl : s.inFlight.lookup id with
  | none =>
    simp only [InMemoryStorage.ack, hl]
    exact ends_reject (by simp only [Pc.begin, hl, Outcome.map])
  | some task =>
    simp only [InMemoryStorage.ack, hl]
    have hbegin : Pc.begin s env (.ack id)
        = (.dropTask id, Pc.toLog (s.dropTask id) (.ack id)) := by
      simp only [Pc.begin, hl]
      rfl
    refine ends_start hbegin (ends_toLog (fun s₁ hok => ?_) fun e herr => ?_)
    · rw [show (s.dropTask id).logOp env (.ack id) = .ok s₁ from hok]
      exact Ends.step .done
    · rw [show (s.dropTask id).logOp env (.ack id) = .error e from herr]
      exact .done

/-- The second half of `nack`. -/
theorem ends_requeue (s₁ : InMemoryStorage α) (id : String) (task : InFlightTask α) :
    let requeued : Outcome Unit × InMemoryStorage α :=
      match s₁.requeue task with
      | .error e => (.err e, s₁)
      | .ok s₂ => (.ok (), s₂)
    Ends env (s₁, .apply (.nack id task)) requeued.2 (requeued.1.map fun _ => .done) := by
  refine Ends.step ?_
  by_cases hex : task.exhausted
  · simp only [advance, Pc.step, Pc.commit, InMemoryStorage.requeue, if_pos hex]
    exact .done
  · cases hl : s₁.queues.lookup task.queueName with
    | none =>
      have hn : task.queueName ∉ s₁.queues := Finmap.lookup_eq_none.mp hl
      simp only [advance, Pc.step, Pc.commit, InMemoryStorage.requeue, if_neg hex, if_neg hn, hl]
      exact .done
    | some q =>
      have hn : task.queueName ∈ s₁.queues := Finmap.mem_of_lookup_eq_some hl
      simp only [advance, Pc.step, Pc.commit, InMemoryStorage.requeue, if_neg hex, if_pos hn, hl,
        Access.run, InMemoryStorage.items_of_lookup hl]
      exact .done

theorem ends_nack (id : String) :
    Ends env (s, .start (.nack id)) (s.nack env id).2 ((s.nack env id).1.map fun _ => .done) := by
  cases hl : s.inFlight.lookup id with
  | none =>
    simp only [InMemoryStorage.nack, hl]
    exact ends_reject (by simp only [Pc.begin, hl, Outcome.map])
  | some task =>
    simp only [InMemoryStorage.nack, hl]
    have hbegin : Pc.begin s env (.nack id)
        = (.dropTask id, Pc.toLog (s.dropTask id) (.nack id task)) := by
      simp only [Pc.begin, hl]
      rfl
    refine ends_start hbegin (ends_toLog (fun s₁ hok => ?_) fun e herr => ?_)
    · rw [show (s.dropTask id).logOp env (.nack id) = .ok s₁ from hok]
      exact ends_requeue s₁ id task
    · rw [show (s.dropTask id).logOp env (.nack id) = .error e from herr]
      exact Ends.step .done

theorem ends_extendVisibility (id : String) (duration : UInt64) :
    Ends env (s, .start (.extendVisibility id duration)) (s.extendVisibility env id duration).2
      ((s.extendVisibility env id duration).1.map fun _ => .done) := by
  cases hl : s.inFlight.lookup id with
  | none =>
    simp only [InMemoryStorage.extendVisibility, hl]
    exact ends_reject (by simp only [Pc.begin, hl, Outcome.map])
  | some task =>
    simp only [InMemoryStorage.extendVisibility, hl]
    have hbegin : Pc.begin s env (.extendVisibility id duration)
        = (.look, Pc.toLog s (.extendVisibility id duration)) := by
      simp only [Pc.begin, hl]
    refine ends_start hbegin (ends_toLog (fun s₁ hok => ?_) fun e herr => ?_)
    · have hl₁ : s₁.inFlight.lookup id = some task := by
        rw [show s₁.inFlight = s.inFlight from logOp_inFlight hok, hl]
      have hadv : advance env (s₁, .apply (.extendVisibility id duration))
          = (s₁.insertTask id { task with consumedAt := env.now 1 }, .done (.ok .done)) := by
        simp only [advance, Pc.step, Pc.commit, hl₁, Access.run]
        rfl
      rw [show s.logOp env (.extendVisibility id duration) = .ok s₁ from hok]
      refine Ends.step ?_
      rw [show Pc.afterLog (.extendVisibility id duration) = .apply (.extendVisibility id duration)
        from rfl, hadv]
      exact .done
    · rw [show s.logOp env (.extendVisibility id duration) = .error e from herr]
      exact .done

theorem ends_ackBatch (taskIds : List String) :
    Ends env (s, .start (.ackBatch taskIds)) (s.ackBatch env taskIds).2
      ((s.ackBatch env taskIds).1.map fun _ => .done) := by
  refine ends_start (a := .look) rfl (ends_verify (Ends.step ?_))
  rw [List.nil_append]
  let missingIds := taskIds.filter (· ∉ s.inFlight)
  change Ends env (advance env (s, .verify taskIds [] missingIds)) _ _
  by_cases hmissing : missingIds = []
  · have hadv : advance env (s, .verify taskIds [] missingIds)
        = (s, Pc.toLog s (.ackBatch taskIds)) := by
      rw [hmissing]
      rfl
    rw [hadv, InMemoryStorage.ackBatch, if_neg (not_not.mpr hmissing)]
    refine ends_toLog (fun s₁ hok => ?_) fun e herr => ?_
    · rw [show s.logOp env (.ackBatch taskIds) = .ok s₁ from hok]
      exact ends_removeTasks taskIds
    · rw [show s.logOp env (.ackBatch taskIds) = .error e from herr]
      exact .done
  · have hadv : advance env (s, .verify taskIds [] missingIds)
        = (s, .done (.err (tasksNotFound missingIds))) := by
      have hne : ¬ missingIds.isEmpty = true := fun h => hmissing (List.isEmpty_iff.mp h)
      simp only [advance, Pc.step, if_neg hne, Access.run]
    rw [hadv, InMemoryStorage.ackBatch, if_pos hmissing]
    exact .done

end Steps

/-- **A call that runs alone ends as its sequential reading does.** -/
theorem ends_call (env : Env) (s : InMemoryStorage α) {c : Call α}
    (hc : ∀ t, c ≠ .cleanupExpiredTasks t) :
    Ends env (s, .start c) (s.call (fun _ => env) c).2 (s.call (fun _ => env) c).1 := by
  cases c with
  | createQueue name => exact ends_createQueue name
  | queue name item => exact ends_queue name item
  | queueBatch name items => exact ends_queueBatch name items
  | dequeue name => exact ends_dequeue name
  | dequeueBatch name count => exact ends_dequeueBatch name count
  | ack taskId => exact ends_ack taskId
  | ackBatch taskIds => exact ends_ackBatch taskIds
  | nack taskId => exact ends_nack taskId
  | extendVisibility taskId duration => exact ends_extendVisibility taskId duration
  | cleanupExpiredTasks t => exact absurd rfl (hc t)

end Oxideq
