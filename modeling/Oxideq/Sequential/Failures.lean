import Oxideq.Concurrent.Effects
import Oxideq.Sequential.Changes

/-!
# Failed calls

A call that returns an error leaves the store as it found it, log and clock readings included
(`unchanged_of_err`). Three methods are ahead of their append and have to take something back when
it fails: `dequeue` pushes its item back to the front, `dequeue_batch` its items in reverse, `nack`
puts its task back under its id. `ack` is ahead of its append too and takes nothing back, which is
why only an `ack` of an unknown id is among the calls considered here.

`nack` has one more error, behind its append: the queue of the task is gone. No queue is ever
removed, so every task in flight has its queue (`Valid`), and this error is not met in any state a
process can reach (`Reached`): from a start on any log, by any calls, whatever became of their
appends.
-/

namespace Oxideq

variable {α : Type}

namespace InMemoryStorage

/-! ### Reachable stores -/

/-- The stores a process can come to: it starts on the entries of a log or without one, and calls
are made, of which some may fail. -/
inductive Reached : InMemoryStorage α → Prop
  | start (persistent : Bool) (envs : ℕ → Env) (entries : List (WalEntry α)) :
    Reached (boot persistent envs entries)
  | call {s : InMemoryStorage α} (h : Reached s) (envs : ℕ → Env) (c : Call α) :
    Reached (s.call envs c).2

/-- The elementary changes keep the tables valid. -/
theorem Valid.change {s s' : InMemoryStorage α} {t : Tally α} (h : s.Valid)
    (hc : Change s s' t) : s'.Valid := by
  cases hc with
  | create hn => exact h.setQueue ..
  | push items hq => exact h.setQueue ..
  | @hand name item rest id now hq =>
    refine (h.setQueue name rest).insertTask rfl ?_
    exact Finmap.mem_insert.mpr (Or.inl rfl)
  | drop id => exact h.dropTask id
  -- its own queue is there still, and a dead-letter queue is made on the way
  | @requeue id task _ hl hr =>
    have hrequeue := (h.dropTask id).requeue task
    rwa [hr, orSelf_ok] at hrequeue
  | forget => exact valid_new

theorem Valid.changes {s s' : InMemoryStorage α} {t : Tally α} (h : s.Valid)
    (hc : Changes s s' t) : s'.Valid := by
  induction hc with
  | same hs => exact hs.valid h
  | step hs hc _ ih => exact ih ((hs.valid h).change hc)

theorem Reached.valid {s : InMemoryStorage α} (h : Reached s) : s.Valid := by
  induction h with
  | start persistent envs entries => exact valid_boot ..
  | @call s _ envs c ih => exact ih.changes (call_changes envs s c)

/-! ### One lemma for each call -/

section Calls

variable {s : InMemoryStorage α} {env : Env} {e : String}

theorem createQueue_unchanged {name : String} (h : (s.createQueue env name).1 = .err e) :
    (s.createQueue env name).2 = s := by
  unfold createQueue at h ⊢
  split at h
  · next hn => rw [if_pos hn]
  · next hn =>
    rw [if_neg hn]
    obtain hlog | ⟨e', hlog⟩ := s.logOp_cases env (.createQueue name)
    · rw [hlog] at h
      cases h
    · rw [hlog]

/-- Behind the check for the queue only the append can fail. -/
theorem queue_unchanged {name : String} {item : α} (h : (s.queue env name item).1 = .err e) :
    (s.queue env name item).2 = s := by
  unfold queue at h ⊢
  split at h
  · next hn => rw [if_pos hn]
  · next hn =>
    rw [if_neg hn]
    obtain hlog | ⟨e', hlog⟩ := s.logOp_cases env (.enqueue name item)
    · obtain ⟨old, -, hpush⟩ :=
        (s.logged env (.enqueue name item)).pushBack_of_mem (not_not.mp hn) [item]
      -- behind the append the push finds its queue, so the call has returned `Ok`
      simp only [hlog, hpush] at h
      cases h
    · rw [hlog]

theorem queueBatch_unchanged {name : String} {items : List α}
    (h : (s.queueBatch env name items).1 = .err e) : (s.queueBatch env name items).2 = s := by
  unfold queueBatch at h ⊢
  split at h
  · next hn => rw [if_pos hn]
  · next hn =>
    rw [if_neg hn]
    obtain hlog | ⟨e', hlog⟩ := s.logOp_cases env (.enqueueBatch name items)
    · obtain ⟨old, -, hpush⟩ :=
        (s.logged env (.enqueueBatch name items)).pushBack_of_mem (not_not.mp hn) items
      simp only [hlog, hpush] at h
      cases h
    · rw [hlog]

theorem dequeue_unchanged {name : String} (h : (s.dequeue env name).1 = .err e) :
    (s.dequeue env name).2 = s := by
  unfold dequeue at h ⊢
  cases hq : s.queues.lookup name with
  | none => rfl
  | some items =>
    cases items with
    | nil => rfl
    | cons item rest =>
      simp only [hq] at h ⊢
      obtain hlog | ⟨e', hlog⟩ :=
        (s.setQueue name rest).logOp_cases env (.dequeued name (env.uuid 0))
      · rw [hlog] at h
        cases h
      · -- the item goes back to the front
        rw [hlog]
        simp only [setQueue_setQueue]
        exact setQueue_self hq

theorem dequeueBatch_unchanged {name : String} {count : UInt64}
    (h : (s.dequeueBatch env name count).1 = .err e) : (s.dequeueBatch env name count).2 = s := by
  unfold dequeueBatch at h ⊢
  cases hq : s.queues.lookup name with
  | none => rfl
  | some items =>
    simp only [hq] at h ⊢
    split at h
    -- The three exits in front of the append return `Ok`.
    · cases h
    next hempty =>
    split at h
    · cases h
    next hcap =>
    split at h
    · cases h
    next hnone =>
    rw [if_neg hempty, if_neg hcap, if_neg hnone]
    generalize (List.range (items.take count.toNat).length).map env.uuid = ids at h ⊢
    obtain hlog | ⟨e', hlog⟩ :=
      (s.setQueue name (items.drop count.toNat)).logOp_cases env (.dequeuedBatch name ids)
    · rw [hlog] at h
      cases h
    · -- the items go back in reverse, each to the front
      rw [hlog]
      simp only [setQueue_setQueue, foldl_cons_reverse, List.take_append_drop]
      exact setQueue_self hq

theorem ack_unchanged {id : String} (hid : id ∉ s.inFlight) : (s.ack env id).2 = s := by
  unfold ack
  rw [Finmap.lookup_eq_none.mpr hid]

/-- The error behind the append is not met: the queue of the task is there. -/
theorem nack_unchanged (hs : s.Valid) {id : String} (h : (s.nack env id).1 = .err e) :
    (s.nack env id).2 = s := by
  unfold nack at h ⊢
  cases hl : s.inFlight.lookup id with
  | none => rfl
  | some task =>
    simp only [hl] at h ⊢
    obtain hlog | ⟨e', hlog⟩ := (s.dropTask id).logOp_cases env (.nack id)
    · have hqueue : task.queueName ∈ (s.dropTask id).queues := hs.queue_mem hl
      obtain ⟨items, hitems⟩ := Finmap.mem_iff.mp hqueue
      -- with its queue in the table the task can always be returned
      have hrequeue : ∃ s', (s.dropTask id).requeue task = .ok s' := by
        unfold requeue
        split
        · exact ⟨_, rfl⟩
        · rw [hitems]
          exact ⟨_, rfl⟩
      obtain ⟨s', hs'⟩ := hrequeue
      simp only [hlog, requeue_logged, hs', Except.map] at h
      cases h
    · -- the task goes back under its id
      rw [hlog]
      exact insert_dropTask hl

theorem extendVisibility_unchanged {id : String} {duration : UInt64}
    (h : (s.extendVisibility env id duration).1 = .err e) :
    (s.extendVisibility env id duration).2 = s := by
  unfold extendVisibility at h ⊢
  cases hl : s.inFlight.lookup id with
  | none => rfl
  | some task =>
    simp only [hl] at h ⊢
    obtain hlog | ⟨e', hlog⟩ := s.logOp_cases env (.extendVisibility id duration)
    · rw [hlog] at h
      cases h
    · rw [hlog]

theorem ackBatch_unchanged {ids : List String} (h : (s.ackBatch env ids).1 = .err e) :
    (s.ackBatch env ids).2 = s := by
  unfold ackBatch at h ⊢
  simp only at h ⊢
  split at h
  · next hmissing => rw [if_pos hmissing]
  · next hmissing =>
    rw [if_neg hmissing]
    obtain hlog | ⟨e', hlog⟩ := s.logOp_cases env (.ackBatch ids)
    · rw [hlog] at h
      cases h
    · rw [hlog]

end Calls

/-- The error of a call is the error of its method. -/
theorem err_of_map {β γ : Type} {f : β → γ} {r : Outcome β} {e : String}
    (h : r.map f = .err e) : r = .err e := by
  cases r with
  | ok v => cases h
  | err e' =>
    cases h
    rfl
  | panic => cases h

/-- **A call that fails changes nothing**, in every reachable store, for every outcome of its
append; an `ack` as long as its task is unknown. -/
theorem unchanged_of_err {s : InMemoryStorage α} (hs : Reached s) {envs : ℕ → Env} {c : Call α}
    {e : String} (hack : ∀ id, c = .ack id → id ∉ s.inFlight)
    (herr : (s.call envs c).1 = .err e) : (s.call envs c).2 = s := by
  cases c with
  | createQueue name => exact createQueue_unchanged (err_of_map herr)
  | queue name item => exact queue_unchanged (err_of_map herr)
  | queueBatch name items => exact queueBatch_unchanged (err_of_map herr)
  | dequeue name => exact dequeue_unchanged (err_of_map herr)
  | dequeueBatch name count => exact dequeueBatch_unchanged (err_of_map herr)
  | ack taskId => exact ack_unchanged (hack taskId rfl)
  | ackBatch taskIds => exact ackBatch_unchanged (err_of_map herr)
  | nack taskId => exact nack_unchanged hs.valid (err_of_map herr)
  | extendVisibility taskId duration => exact extendVisibility_unchanged (err_of_map herr)
  | cleanupExpiredTasks timeoutSeconds =>
    -- a cleanup swallows the errors of its calls
    have hclean := err_of_map herr
    unfold cleanupExpiredTasks scanExpiredTasks at hclean
    split at hclean
    · cases hclean
    · next hscan => split at hscan <;> cases hscan
    · cases hclean

/-- A batch of two is popped from a queue of three and put back when the disk is full. -/
theorem unchanged_of_err_dequeueBatch :
    let env : Env := { Env.quiet ["a", "b"] with append := .error "No space left on device" }
    let s : InMemoryStorage Bytes := boot true (fun _ => Env.quiet [])
      [⟨.createQueue "jobs", 0⟩, ⟨.enqueueBatch "jobs" [[0x31], [0x32], [0x33]], 0⟩]
    (s.call (fun _ => env) (.dequeueBatch "jobs" 2)).1 = .err "No space left on device" ∧
      (s.call (fun _ => env) (.dequeueBatch "jobs" 2)).2 = s := by
  intro env s
  have herr : (s.call (fun _ => env) (.dequeueBatch "jobs" 2)).1
      = .err "No space left on device" := by decide +kernel
  exact ⟨herr, unchanged_of_err (.start ..) (fun id h => nomatch h) herr⟩

end InMemoryStorage

end Oxideq
