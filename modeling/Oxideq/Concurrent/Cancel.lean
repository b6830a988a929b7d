import Oxideq.Concurrent.Start

/-!
# Dropped calls

A call whose future is dropped at an await leaves the store as it is and takes its local values
with it. The calls that have taken messages out of a table before their first await lose them:
`dequeue` and `dequeue_batch` when there is something to deliver, `nack` when the task is in
flight. No other call loses a message, at any await (`cancelSafe_iff`).
-/

namespace Oxideq

variable {α : Type}

/-- A thread on its own. -/
def solo (α : Type) : System (InMemoryStorage α × Thread α) Env where
  step s env :=
    let r := s.2.pc.step s.1 env
    some (r.1.run s.1 env, Thread.resume s.2.loop r.2)

namespace Pc

/-- The call is suspended: it waits for the mutex of the log, or for its append. -/
def Awaits : Pc α → Prop
  | .waitWal _ => True
  | .appendWal _ => True
  | _ => False

/-- The call is past its append, or never came to one. -/
def Past : Pc α → Prop
  | .restore _ _ => True
  | .apply _ => True
  | .insertTasks _ _ _ => True
  | .removeTasks _ => True
  | .done _ => True
  | _ => False

end Pc

/-- The ids an `ack` or `ack_batch` names. -/
def Call.acks : Call α → List String
  | .ack taskId => [taskId]
  | .ackBatch taskIds => taskIds
  | _ => []

/-- The messages the call is asked to remove. -/
def Call.named (c : Call α) (s : InMemoryStorage α) : Multiset α :=
  Table.total (fun id task => if id ∈ c.acks then {task.data} else 0) s.inFlight

/-- Wherever the call is dropped, the messages it was not asked to remove are still pending or in
flight. -/
def CancelSafe (s : InMemoryStorage α) (c : Call α) : Prop :=
  ∀ s' t, (solo α).Reach (fun _ _ => True) (s, Thread.call c) (s', t) → t.pc.Awaits →
    s.messages ≤ s'.messages + c.named s

/-- The call takes messages out of the tables of `s` before it comes to the log. -/
def Call.Takes (s : InMemoryStorage α) : Call α → Prop
  | .dequeue name => s.items name ≠ []
  | .dequeueBatch name count =>
    s.items name ≠ [] ∧ capacityOverflow count = false ∧ count.toNat ≠ 0
  | .nack taskId => taskId ∈ s.inFlight
  | _ => False

namespace Pc

/-- How far a call has come that has made no step behind its append. -/
inductive Reached (s : InMemoryStorage α) (c : Call α) : InMemoryStorage α → Pc α → Prop
  | start : Reached s c s (.start c)
  | verify {taskIds todo missing : List String} (hc : c = .ackBatch taskIds) :
    Reached s c s (.verify taskIds todo missing)
  | verified {taskIds : List String} {pc : Pc α} (hc : c = .ackBatch taskIds)
    (hpc : pc = .waitWal (.ackBatch taskIds) ∨ pc = .appendWal (.ackBatch taskIds)) :
    Reached s c s pc
  | entered {env : Env} {a : Access α} {w : Work α} {pc : Pc α}
    (hm : Move s env (.start c) a (.waitWal w)) (hpc : pc = .waitWal w ∨ pc = .appendWal w) :
    Reached s c (a.run s env) pc
  | past {s' : InMemoryStorage α} {pc : Pc α} (hpc : pc.Past) : Reached s c s' pc

theorem past_afterLog (w : Work α) : (afterLog w).Past := by
  cases w <;> trivial

theorem past_failLog (e : String) (w : Work α) : (failLog e w).Past := by
  cases w <;> trivial

theorem toLog_of_persistent {s : InMemoryStorage α} (h : s.wal.isSome) (w : Work α) :
    toLog s w = .waitWal w := if_pos h

/-- Behind its append a call does not come to another await. -/
theorem Past.step {s : InMemoryStorage α} {env : Env} {pc pc' : Pc α} {a : Access α}
    (hm : Move s env pc a pc') (h : pc.Past) : pc'.Past := by
  -- no constructor of `Move` leads from behind the append to the mutex
  cases hm <;> trivial

/-- The first step ends the call, begins to verify, or goes on to the log. -/
theorem Move.first {s : InMemoryStorage α} {c : Call α} {pc' : Pc α} {env : Env} {a : Access α}
    (hs : s.wal.isSome) (hc : ∀ t, c ≠ .cleanupExpiredTasks t)
    (hm : Move s env (.start c) a pc') :
    pc'.Past ∨ (∃ taskIds, c = .ackBatch taskIds ∧ a = .look ∧ pc' = .verify taskIds taskIds []) ∨
      ∃ w, pc' = .waitWal w := by
  cases hm with
  | reject hr hack => exact Or.inl trivial
  | scan => exact absurd rfl (hc _)
  | ackBatch => exact Or.inr (Or.inl ⟨_, rfl, rfl, rfl⟩)
  | _ => exact Or.inr (Or.inr ⟨_, toLog_of_persistent hs _⟩)

theorem Reached.step {s s' : InMemoryStorage α} {c : Call α} {pc pc' : Pc α} {env : Env}
    {a : Access α} (hs : s.wal.isSome) (hc : ∀ t, c ≠ .cleanupExpiredTasks t)
    (h : Reached s c s' pc) (hm : Move s' env pc a pc') : Reached s c (a.run s' env) pc' := by
  cases h with
  | start =>
    -- ended, verifying, or at the log with its work in hand
    obtain hpast | ⟨taskIds, hc, rfl, rfl⟩ | ⟨w, rfl⟩ := hm.first hs hc
    · exact .past hpast
    · exact .verify hc
    · exact .entered hm (Or.inl rfl)
  | verify hc =>
    cases hm with
    | verify => exact .verify hc
    | verified => exact .verified hc (Or.inl (toLog_of_persistent hs _))
    | unverified => exact .past trivial
  | verified hc hpc =>
    rcases hpc with rfl | rfl
    · cases hm
      exact .verified hc (Or.inr rfl)
    · cases hm with
      | append happ => exact .past (past_afterLog _)
      | appendFails happ => exact .past (past_failLog _ _)
  | entered hfirst hpc =>
    rcases hpc with rfl | rfl
    · cases hm
      exact .entered hfirst (Or.inr rfl)
    · cases hm with
      | append happ => exact .past (past_afterLog _)
      | appendFails happ => exact .past (past_failLog _ _)
  | past hpc => exact .past (Past.step hm hpc)

theorem Reached.resume {s s' : InMemoryStorage α} {c : Call α} {pc : Pc α}
    (h : Reached s c s' pc) : Thread.resume none pc = ⟨pc, none⟩ := by
  cases h with
  | verified hc hpc => rcases hpc with rfl | rfl <;> rfl
  | entered hm hpc => rcases hpc with rfl | rfl <;> rfl
  | past hpast =>
    cases pc with
    | done r => cases r <;> rfl
    | scanned taskIds => exact hpast.elim
    | _ => rfl
  | _ => rfl

end Pc

/-- All that a call on its own can come to. -/
theorem reached_of_reach {s : InMemoryStorage α} {c : Call α} (hs : s.wal.isSome)
    (hc : ∀ t, c ≠ .cleanupExpiredTasks t) {p : InMemoryStorage α × Thread α}
    (h : (solo α).Reach (fun _ _ => True) (s, Thread.call c) p) :
    Pc.Reached s c p.1 p.2.pc ∧ p.2.loop = none := by
  refine h.invariant (fun p => Pc.Reached s c p.1 p.2.pc ∧ p.2.loop = none) ⟨.start, rfl⟩ ?_
  rintro p env p' ⟨hp, hloop⟩ - hstep
  simp only [solo, Option.some_inj] at hstep
  have hnext := hp.step hs hc (Pc.move_step p.1 env p.2.pc)
  rw [← hstep, hloop, hnext.resume]
  exact ⟨hnext, rfl⟩

section Calls

variable {s : InMemoryStorage α}

theorem InMemoryStorage.messages_pop (s : InMemoryStorage α) (env : Env) (name : String) (n : ℕ) :
    ((Access.pop name n).run s env).messages
      + (((s.items name).take n).map QueueItem.data : Multiset α) = s.messages := by
  rw [messages, messages, add_right_comm, ← s.pendingData_pop name n]
  rfl

theorem named_of_acks_nil {c : Call α} (h : c.acks = []) : c.named s = 0 := by
  unfold Call.named Table.total
  simp [h]

/-- A call that is not to take messages has not taken any when it comes to the log. -/
theorem Pc.Move.messages_le {env : Env} {c : Call α} {a : Access α} {w : Work α}
    (hm : Pc.Move s env (.start c) a (.waitWal w)) (hc : ¬ c.Takes s) :
    s.messages ≤ (a.run s env).messages + c.named s := by
  have hle : s.messages ≤ s.messages + c.named s := Multiset.le_add_right _ _
  -- the moves that lead to the log; three of them have taken messages by then
  generalize hpc' : (Pc.waitWal w : Pc α) = pc' at hm
  cases hm with
  | dequeue h =>
    refine absurd ?_ hc
    simp [Call.Takes, InMemoryStorage.items_of_lookup h]
  | @dequeueBatch name count items deliveries h hcap hitems hne =>
    have htake : items.take count.toNat ≠ [] := by
      rw [← hitems]
      simpa using hne
    refine absurd ⟨?_, hcap, ?_⟩ hc
    · rw [InMemoryStorage.items_of_lookup h]
      exact fun hnil => htake (by rw [hnil, List.take_nil])
    · exact fun hzero => htake (by rw [hzero, List.take_zero])
  | nack h => exact absurd (Finmap.mem_iff.mpr ⟨_, h⟩) hc
  | @ack id task h =>
    -- what an `ack` has taken out, it was asked to remove
    have hnamed : {task.data} ≤ (Call.ack id : Call α).named s := by
      refine le_trans (le_of_eq ?_) (Table.le_total _ h)
      exact (if_pos (List.mem_singleton_self id)).symm
    calc s.messages = {task.data} + (s.dropTask id).messages := (s.messages_dropTask_add h).symm
      _ ≤ (s.dropTask id).messages + (Call.ack id).named s := by
        rw [add_comm]
        exact add_le_add_right hnamed _
  | _ => exact hle

/-- A call that is to take messages has taken some when it comes to the log. -/
theorem Call.Takes.first {c : Call α} (h : c.Takes s) (hs : s.wal.isSome) (env : Env) :
    ∃ w, (Pc.begin s env c).2 = .waitWal w ∧ ∃ taken : Multiset α, taken ≠ 0 ∧
      ((Pc.begin s env c).1.run s env).messages + taken = s.messages ∧ c.named s = 0 := by
  cases c with
  | dequeue name =>
    obtain ⟨item, rest, hitems⟩ := List.exists_cons_of_ne_nil h
    have hl := InMemoryStorage.lookup_of_items hitems (List.cons_ne_nil _ _)
    have hpop := s.messages_pop env name 1
    rw [hitems] at hpop
    simp only [Pc.begin, hl, Pc.toLog_of_persistent hs]
    refine ⟨_, rfl, _, ?_, hpop, named_of_acks_nil rfl⟩
    exact Multiset.cons_ne_zero (a := item.data) (m := 0)
  | dequeueBatch name count =>
    obtain ⟨hne, hcap, hcount⟩ := h
    have hl := InMemoryStorage.lookup_of_items rfl hne
    have htake : (s.items name).take count.toNat ≠ [] := by
      rw [ne_eq, List.take_eq_nil_iff, not_or]
      exact ⟨hcount, hne⟩
    simp only [Pc.begin, hl, List.isEmpty_iff, hne, hcap, htake, Pc.toLog_of_persistent hs,
      if_false, Bool.false_eq_true]
    refine ⟨_, rfl, _, ?_, s.messages_pop env name count.toNat, named_of_acks_nil rfl⟩
    rwa [ne_eq, Multiset.coe_eq_zero, List.map_eq_nil_iff]
  | nack id =>
    obtain ⟨task, hl⟩ := Finmap.mem_iff.mp h
    simp only [Pc.begin, hl, Pc.toLog_of_persistent hs]
    refine ⟨_, rfl, {task.data}, Multiset.singleton_ne_zero _, ?_, named_of_acks_nil rfl⟩
    rw [add_comm]
    exact s.messages_dropTask_add hl
  | _ => exact h.elim

end Calls

/-- A call that takes messages is not safe to drop. -/
theorem not_cancelSafe_of_takes {s : InMemoryStorage α} {c : Call α} (hs : s.wal.isSome)
    (h : c.Takes s) : ¬ CancelSafe s c := by
  intro hsafe
  -- dropped right behind its first step, with `taken` in its hands
  obtain ⟨w, hpc, taken, hne, hmessages, hnamed⟩ := h.first hs (Env.quiet [])
  have hreach : (solo α).Reach (fun _ _ => True) (s, Thread.call c)
      ((Pc.begin s (Env.quiet []) c).1.run s (Env.quiet []),
        Thread.resume none (Pc.begin s (Env.quiet []) c).2) :=
    System.Reach.start.step (l := Env.quiet []) trivial rfl
  have hle := hsafe _ _ hreach (by rw [hpc]; trivial)
  rw [hnamed, add_zero, ← hmessages] at hle
  exact hne (Multiset.le_zero.mp (le_of_add_le_add_left (hle.trans_eq (add_zero _).symm)))

/-- **Which calls are safe to drop.** On a persistent store, a call may be dropped at any of its
awaits without losing a message if and only if it takes none out of the tables before it logs:
it is no `dequeue` of a queue with items, no `dequeue_batch` that pops some, and no `nack` of a
task in flight. -/
theorem cancelSafe_iff {s : InMemoryStorage α} {c : Call α} (hs : s.wal.isSome)
    (hc : ∀ t, c ≠ .cleanupExpiredTasks t) : CancelSafe s c ↔ ¬ c.Takes s := by
  constructor
  · exact fun hsafe htakes => not_cancelSafe_of_takes hs htakes hsafe
  · intro hn s' t hreach hawait
    have hle : s.messages ≤ s.messages + c.named s := Multiset.le_add_right _ _
    have hreached := (reached_of_reach hs hc hreach).1
    generalize t.pc = pc at hreached hawait
    cases hreached with
    | start => exact hle
    | verify hc => exact hle
    | verified hc hpc => exact hle
    | entered hm hpc => exact hm.messages_le hn
    | past hpast => cases pc <;> first | exact hpast.elim | exact hawait.elim

/-- On a queue with one message. -/
theorem cancelSafe_iff_dequeue :
    let entries : List (WalEntry Bytes) := [⟨.createQueue "jobs", 0⟩, ⟨.enqueue "jobs" [0x68], 0⟩]
    let s := InMemoryStorage.recover (fun _ => Env.quiet []) entries
    CancelSafe s (.dequeue "jobs") ↔ ¬ (Call.dequeue "jobs").Takes s :=
  cancelSafe_iff rfl (by simp)

/-- The message of the queue is gone when the `dequeue` that popped it is dropped. -/
theorem not_cancelSafe_dequeue :
    ¬ ∀ (s : InMemoryStorage Bytes) (c : Call Bytes), s.wal.isSome →
      (∀ t, c ≠ .cleanupExpiredTasks t) → CancelSafe s c := by
  intro h
  let entries : List (WalEntry Bytes) := [⟨.createQueue "jobs", 0⟩, ⟨.enqueue "jobs" [0x68], 0⟩]
  let s := InMemoryStorage.recover (fun _ => Env.quiet []) entries
  have htakes : (Call.dequeue "jobs" : Call Bytes).Takes s := by
    show s.items "jobs" ≠ []
    decide
  exact not_cancelSafe_of_takes rfl htakes (h s _ rfl (by simp))

end Oxideq
