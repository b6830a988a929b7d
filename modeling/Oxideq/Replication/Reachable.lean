import Oxideq.Concurrent.Cancel
import Oxideq.Concurrent.Executor
import Oxideq.Concurrent.Threads
import Oxideq.Replication.RaftStorage

/-!
# The states of a node

Every state a node can come to, whichever way it is run: started without a log or by
`new_persistent`, its calls interleaved step by step, and, where it is a replica, overwritten by
snapshots. `Reachable` collects them. A thread makes one call after the other, so the number of
calls of a run is open; a call may also be dropped at an await, and a restart is a start on
whatever the replay then reads.

A snapshot is built and installed by openraft, which hands the state machine to one callback at a
time: no command is being applied in the state that is copied, nor in the state the copy is
written over. The two states may be those of different nodes.

The two tables of a store are linked: a task in flight is filed under its own id and comes from a
queue that exists. All of the ways above keep this (`Reachable.consistent`). Queues are never
removed, so a `nack` that has taken its task out of the table still finds the queue when it comes
to put it back; and as every task is counted under its queue, and under no other, the counts of
`get_stats` add up.
-/

namespace Oxideq

variable {ι α : Type}

/-! ### `get_stats` -/

/-- `get_stats`, while nothing else runs. The queues are listed in the order of iteration. -/
def InMemoryStorage.getStats (s : InMemoryStorage α) (env : Env) : Stats where
  totalInFlight := s.inFlight.entries.card
  queues := (env.iter.list s.queues.keys.val).map fun name =>
    { name := name
      pending := (s.items name).length
      inFlight := (s.inFlight.entries.filter fun e => e.2.queueName = name).card }

/-- **Every task in flight is counted once**, under its own queue. -/
theorem InMemoryStorage.Valid.sum_getStats {s : InMemoryStorage α} (h : s.Valid) (env : Env) :
    ((s.getStats env).queues.map QueueStats.inFlight).sum = (s.getStats env).totalInFlight := by
  have hkeys : ∀ name ∈ s.inFlight.entries.map fun e => e.2.queueName, name ∈ s.queues.keys := by
    intro name hname
    obtain ⟨e, he, rfl⟩ := Multiset.mem_map.mp hname
    exact Finmap.mem_keys.mpr (h.queue_mem (Finmap.lookup_eq_some_iff.mpr he))
  have hsum := Multiset.sum_count_eq_card hkeys
  rw [Multiset.card_map] at hsum
  rw [InMemoryStorage.getStats, List.map_map, ← Multiset.sum_coe, ← Multiset.map_coe,
    env.iter.coe_list, ← hsum]
  refine congrArg Multiset.sum (Multiset.map_congr rfl fun name _ => ?_)
  rw [Multiset.count_map]
  exact congrArg Multiset.card (Multiset.filter_congr fun e _ => eq_comm)

/-! ### The nodes -/

namespace Config

/-- The store with its tables overwritten by a snapshot. -/
def restored (σ : Config ι Bytes) (t : Tables) : Config ι Bytes :=
  { σ with store := σ.store.restoreFromSnapshot t }

variable [Fintype ι] [DecidableEq ι]

/-- **The states a node can come to.**

* `start`: the start of a process, without a log or on a log whose replay reads `entries`.
  Without a log of its own, this is also the store inside the replay, between two entries.
* `step`: a step of a running call.
* `call`: a call is made on a thread whose last call has ended, or was dropped at an await.
* `restore`: a snapshot of a node, taken while no call was running, replaces the tables. -/
inductive Reachable : Config ι Bytes → Prop
  | start (persistent : Bool) (envs : ℕ → Env) (entries : List (WalEntry Bytes))
    (calls : ι → Call Bytes) :
    Reachable (Config.start (InMemoryStorage.boot persistent envs entries) calls)
  | step {σ σ' : Config ι Bytes} {l : ι × Env} (h : Reachable σ)
    (hs : (machine ι Bytes).step σ l = some σ') : Reachable σ'
  | call {σ : Config ι Bytes} {i : ι} (h : Reachable σ)
    (hi : (σ.threads i).idle = true ∨ (σ.pc i).Awaits) (c : Call Bytes) : Reachable (σ.callAt i c)
  | restore {σ τ : Config ι Bytes} (h : Reachable σ) (hσ : σ.Quiet) (h' : Reachable τ)
    (hτ : τ.Quiet) : Reachable (σ.restored τ.store.getSnapshotData)

/-! ### The invariant -/

/-- The tables of the store are linked, and what a call has in hand fits them. -/
structure Consistent (σ : Config ι α) : Prop where
  store : σ.store.Valid
  phases : ∀ i, (σ.phases i).Valid σ.store

omit [Fintype ι] in
theorem StepOf.consistent {σ σ' : Config ι α} {i : ι} {env : Env} {a : Access α} {pc' : Pc α}
    (h : StepOf σ i env σ' a pc') (hc : σ.Consistent) : σ'.Consistent := by
  obtain ⟨hvalid, hphase⟩ := h.move.valid hc.store (hc.phases i)
  constructor
  · rw [h.store]
    exact hvalid
  · intro j
    rw [h.phases, h.store]
    by_cases hj : j = i
    · rw [hj, Function.update_self]
      exact hphase
    · rw [Function.update_of_ne hj]
      exact (hc.phases j).run env a

omit [DecidableEq ι] [Fintype ι] in
/-- Calls that have not begun have nothing in hand. -/
theorem Consistent.of_quiet {σ : Config ι α} (hs : σ.store.Valid) (hq : σ.Quiet) :
    σ.Consistent := by
  refine ⟨hs, fun i => ?_⟩
  have hidle : σ.phases i = .idle := Thread.phase_of_idle (hq i)
  rw [hidle]
  trivial

/-- **The tables stay linked.** -/
theorem Reachable.consistent {σ : Config ι Bytes} (h : Reachable σ) : σ.Consistent := by
  induction h with
  | start persistent envs entries calls =>
    exact .of_quiet (InMemoryStorage.valid_boot persistent envs entries) fun _ => rfl
  | @step σ σ' l h hs ih =>
    obtain ⟨i, env⟩ := l
    obtain ⟨-, a, pc', hstep⟩ := machine_step hs
    exact hstep.consistent ih
  | @call σ i h hi c ih =>
    refine ⟨ih.store, fun j => ?_⟩
    rw [phases_callAt]
    by_cases hj : j = i
    · rw [hj, Function.update_self]
      trivial
    · rw [Function.update_of_ne hj]
      exact ih.phases j
  -- both tables are those of the other node, where they are linked
  | restore h hσ h' hτ ih ih' => exact .of_quiet (ih'.store.of_tables rfl rfl) hσ

end Config

/-! ### `nack` finds the queue -/

namespace InMemoryStorage

/-- A task whose queue exists can be put back. -/
theorem exists_requeue {s : InMemoryStorage α} {task : InFlightTask α}
    (hq : task.queueName ∈ s.queues) : ∃ s', s.requeue task = .ok s' := by
  obtain ⟨q, hl⟩ := Finmap.mem_iff.mp hq
  unfold InMemoryStorage.requeue
  split
  · exact ⟨_, rfl⟩
  · rw [hl]
    exact ⟨_, rfl⟩

/-- `nack` returns `Ok` or one of its other two errors. -/
theorem Valid.nack_outcome {s : InMemoryStorage α} (h : s.Valid) (env : Env) (id : String) :
    (s.nack env id).1 = .ok () ∨ (s.nack env id).1 = .err taskNotFound ∨
      ∃ e, (s.nack env id).1 = .err (walWriteFailed e) := by
  unfold InMemoryStorage.nack
  cases hl : s.inFlight.lookup id with
  | none => exact Or.inr (Or.inl rfl)
  | some task =>
    obtain hlog | ⟨e, hlog⟩ := logOp_cases (s.dropTask id) env (.nack id)
    · simp only [hlog]
      -- neither the removal nor the append touches the queues
      obtain ⟨s', hs'⟩ := exists_requeue (s := (s.dropTask id).logged env (.nack id))
        (h.queue_mem hl)
      rw [hs']
      exact Or.inl rfl
    · simp only [hlog]
      exact Or.inr (Or.inr ⟨e, rfl⟩)

theorem originalQueueNotFound_ne (name : String) :
    originalQueueNotFound name ≠ taskNotFound ∧
      ∀ e, originalQueueNotFound name ≠ walWriteFailed e := by
  -- the three texts differ in their first character
  have hne : ∀ {s t : String} {c d : Char}, s.toList.head? = some c → t.toList.head? = some d →
      c ≠ d → s ≠ t := by
    rintro s _ c d hs ht hcd rfl
    exact hcd (Option.some.inj (hs.symm.trans ht))
  have hqueue : (originalQueueNotFound name).toList.head? = some 'O' := by
    unfold originalQueueNotFound
    rw [String.toList_append, String.toList_append]
    rfl
  have htask : taskNotFound.toList.head? = some 'T' := rfl
  have hwal : ∀ e, (walWriteFailed e).toList.head? = some 'W' := by
    intro e
    unfold walWriteFailed
    rw [String.toList_append]
    rfl
  exact ⟨hne hqueue htask (by decide), fun e => hne hqueue (hwal e) (by decide)⟩

/-- So it never comes to the exit that would lose the task. -/
theorem Valid.nack_ne {s : InMemoryStorage α} (h : s.Valid) (env : Env) (id name : String) :
    (s.nack env id).1 ≠ .err (originalQueueNotFound name) := by
  intro heq
  have hne := originalQueueNotFound_ne name
  obtain hok | hnone | ⟨e, hwal⟩ := h.nack_outcome env id
  · rw [hok] at heq
    cases heq
  · rw [hnone] at heq
    exact hne.1 (Outcome.err.inj heq).symm
  · rw [hwal] at heq
    exact hne.2 e (Outcome.err.inj heq).symm

end InMemoryStorage

namespace Config

/-- Behind its append `nack` puts the task back and returns `Ok`. -/
theorem Consistent.nack_done {σ : Config ι α} (h : σ.Consistent) {i : ι} {id : String}
    {task : InFlightTask α} (hpc : σ.pc i = .apply (.nack id task)) (env : Env) :
    ((σ.pc i).step σ.store env).2 = .done (.ok .done) := by
  have hphase := h.phases i
  rw [Config.phases, hpc] at hphase
  have hq : task.queueName ∈ σ.store.queues := Work.Valid.target_mem hphase rfl
  rw [hpc]
  simp only [Pc.step, Pc.commit, if_pos hq]
  split <;> rfl

variable [Fintype ι] [DecidableEq ι]

/-- **The tables of a node fit together in every state it can come to.** A task in flight is filed
under its own id and comes from an existing queue; so a `nack` that holds its task returns `Ok`,
and one that runs alone never fails for want of the queue; and the tasks `get_stats` counts queue
by queue are all there are. -/
theorem Reachable.tables_consistent {σ : Config ι Bytes} (h : Reachable σ) :
    (∀ id task, σ.store.inFlight.lookup id = some task →
        task.id = id ∧ task.queueName ∈ σ.store.queues) ∧
      (∀ i id task env, σ.pc i = .apply (.nack id task) →
        ((σ.pc i).step σ.store env).2 = .done (.ok .done)) ∧
      (∀ env id name, (σ.store.nack env id).1 ≠ .err (originalQueueNotFound name)) ∧
      ∀ env, ((σ.store.getStats env).queues.map QueueStats.inFlight).sum
        = (σ.store.getStats env).totalInFlight := by
  have hc := h.consistent
  refine ⟨fun id task hl => ⟨hc.store.id_eq hl, hc.store.queue_mem hl⟩, ?_, ?_, ?_⟩
  · intro i id task env hpc
    exact hc.nack_done hpc env
  · exact hc.store.nack_ne
  · exact hc.store.sum_getStats

/-- A node that was sent the snapshot of another one, with a delivered message. -/
theorem Reachable.tables_consistent_restored :
    let log : List (WalEntry Bytes) :=
      [⟨.createQueue "q", 0⟩, ⟨.enqueue "q" [1], 0⟩, ⟨.dequeued "q" "a", 0⟩]
    let other : Config (Fin 1) Bytes := Config.start
      (InMemoryStorage.boot true (fun _ => Env.quiet []) log) fun _ => .nack "a"
    let node : Config (Fin 1) Bytes := Config.start
      (InMemoryStorage.boot false (fun _ => Env.quiet []) []) fun _ => .dequeue "q"
    let restored := node.restored other.store.getSnapshotData
    (restored.store.nack (Env.quiet []) "a").1 ≠ .err (originalQueueNotFound "q") ∧
      ((restored.store.getStats (Env.quiet [])).queues.map QueueStats.inFlight).sum = 1 := by
  intro log other node restored
  have hreach : Reachable restored :=
    .restore (.start false _ _ _) (fun _ => rfl) (.start true _ _ _) (fun _ => rfl)
  obtain ⟨-, -, hnack, hstats⟩ := Reachable.tables_consistent hreach
  refine ⟨hnack (Env.quiet []) "a" "q", ?_⟩
  rw [hstats (Env.quiet [])]
  rfl

end Config

end Oxideq
