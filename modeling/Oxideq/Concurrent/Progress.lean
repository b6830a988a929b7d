import Mathlib.Data.Prod.Lex
import Oxideq.Lib.WaitsFor
import Oxideq.Concurrent.Executor
import Oxideq.Concurrent.Moves

/-!
# Progress of the executor

Whether the calls on an executor can come to a stop before they are finished. They can, in two
ways, and in no other.

* **The threads run out.** A call that stops at a lock keeps its thread, while the holder of the
  lock, suspended in an append with its guard in hand, needs a thread to go on. Once every thread
  is stopped at a lock that is held, none will move again: with one thread, two `dequeue`s of one
  queue are enough (`not_live_dequeue`).
* **The error branch of `nack`.** It puts its task back while it still holds the mutex of the log.
  `extend_visibility` keeps its task locked while it waits for that mutex. Where the two tasks share
  a shard, each waits for the other, on any number of threads (`not_live_nack`).

`Careful` excludes exactly the steps that bring this about. A call stops at a lock only while some
other thread is free or can go on. A call is **urgent** when a `nack` in its error branch is that
call or waits for it, directly or through others, and **stalled** when it waits for the mutex, or
for one that does: an urgent call does not come to wait for a stalled one, neither by stopping at a
lock nor because `extend_visibility` takes the lock it is stopped at.

Under this condition something can always happen (`live_run`). The waits of everybody else cannot
close a circle, since the locks are taken in one order (`Job.rank_lt`): shards of queues by number,
then shards of tasks by number, then the mutex. So from any call that is stopped, a chain of waits
ends in one that can go on or is suspended; and who is suspended with a guard in hand waits for its
write or for the mutex, whose holder is found in the same way.
-/

namespace Oxideq

variable {α : Type}

/-! ### The order of the locks -/

/-- The queues before the tasks, and the shards of a table by number. -/
def Lock.rank : Lock → ℕ ×ₗ ℕ
  | .queues shard => toLex (0, shard)
  | .inFlight shard => toLex (1, shard)

/-- The lock is one of the in-flight table. -/
def Lock.ofTasks : Lock → Bool
  | .inFlight _ => true
  | .queues _ => false

theorem Lock.queues_lt_inFlight (k l : ℕ) : (queues k).rank < (inFlight l).rank :=
  Prod.Lex.toLex_lt_toLex.mpr (Or.inl Nat.zero_lt_one)

theorem Lock.queues_lt_succ (k : ℕ) : (queues k).rank < (queues (k + 1)).rank :=
  Prod.Lex.toLex_lt_toLex.mpr (Or.inr ⟨rfl, Nat.lt_succ_self k⟩)

theorem Lock.inFlight_lt_succ (k : ℕ) : (inFlight k).rank < (inFlight (k + 1)).rank :=
  Prod.Lex.toLex_lt_toLex.mpr (Or.inr ⟨rfl, Nat.lt_succ_self k⟩)

/-- Above a lock of the in-flight table there are only such locks. -/
theorem Lock.ofTasks_of_lt {a b : Lock} (ha : a.ofTasks = true) (h : a.rank < b.rank) :
    b.ofTasks = true := by
  cases a with
  | queues k => cases ha
  | inFlight k =>
    cases b with
    | queues l => exact absurd h (lt_asymm (queues_lt_inFlight l k))
    | inFlight l => rfl

namespace Job

theorem mem_behind {lock : ℕ → Lock} {shard : ℕ} {g : Lock × Mode} (hg : g ∈ behind lock shard) :
    ∃ k, shard = k + 1 ∧ g.1 = lock k := by
  cases shard with
  | zero => cases hg
  | succ k =>
    rw [List.mem_singleton.mp hg]
    exact ⟨k, rfl, rfl⟩

theorem mem_ahead {h : Sharding} {lock : ℕ → Lock} {shard : ℕ} {w : Lock × Mode}
    (hw : w ∈ ahead h lock shard) : w.1 = lock shard := by
  unfold ahead at hw
  split at hw
  · cases hw
    rfl
  · cases hw

end Job

theorem Pc.rank_lt {h : Sharding} {pc : Pc α} {g w : Lock × Mode} (hg : g ∈ pc.held h)
    (hw : w ∈ pc.wanted h) : g.1.rank < w.1.rank := by
  -- the calls that hold a guard and reach for another lock deliver from a queue
  have hdeliver : ∀ name taskId, g.1 = h.queueLock name → w.1 = h.taskLock taskId →
      g.1.rank < w.1.rank := by
    intro name taskId hg hw
    rw [hg, hw]
    exact Lock.queues_lt_inFlight _ _
  cases pc with
  | apply work =>
    cases work with
    | dequeue name item taskId =>
      exact hdeliver name taskId (by rw [List.mem_singleton.mp hg]) (by cases hw; rfl)
    | extendVisibility taskId duration => cases hw
    | dequeueBatch name deliveries => cases hw
    | _ => cases hg
  | insertTasks name todo tasks =>
    cases todo with
    | nil => cases hw
    | cons p todo =>
      exact hdeliver name p.1 (by rw [List.mem_singleton.mp hg]) (by cases hw; rfl)
  | restore work e =>
    cases work with
    | nack taskId task => cases hg
    | _ => cases hw
  | waitWal work => cases hw
  | appendWal work => cases hw
  | _ => cases hg

namespace Job

variable {h : Sharding} {j : Job α} {g w : Lock × Mode}

/-- **Locks are taken in their order.** -/
theorem rank_lt (hg : g ∈ j.held h) (hw : w ∈ j.wanted h) : g.1.rank < w.1.rank := by
  cases j with
  | call t => exact Pc.rank_lt hg hw
  | scan now timeout shard taskIds =>
    obtain ⟨k, rfl, hk⟩ := mem_behind hg
    rw [hk, mem_ahead hw]
    exact Lock.inFlight_lt_succ k
  | queues shard todo acc =>
    cases todo with
    | nil =>
      obtain ⟨k, rfl, hk⟩ := mem_behind hg
      rw [hk, mem_ahead hw]
      exact Lock.queues_lt_succ k
    | cons p todo => cases hw
  | count shard name pending todo acc taskShard found =>
    rw [mem_ahead hw]
    rcases List.mem_append.mp hg with hg | hg
    · obtain ⟨k, -, hk⟩ := mem_behind hg
      rw [hk]
      exact Lock.queues_lt_inFlight _ _
    · obtain ⟨k, rfl, hk⟩ := mem_behind hg
      rw [hk]
      exact Lock.inFlight_lt_succ k
  | _ => cases hg

/-- The error branch of `nack` reaches for its task. -/
theorem ofTasks_of_undoesNack (hj : j.undoesNack = true) (hw : w ∈ j.wanted h) :
    w.1.ofTasks = true := by
  unfold undoesNack at hj
  split at hj
  · cases hw
    rfl
  · cases hj

theorem undoesNack_of_holdsWal (hj : j.holdsWal = true) (hw : w ∈ j.wanted h) :
    j.undoesNack = true := by
  cases j with
  | call t =>
    obtain ⟨pc, loop⟩ := t
    cases pc with
    | restore work e =>
      cases work with
      | nack taskId task => rfl
      | _ => cases hw
    | appendWal work => cases hw
    | _ => cases hj
  | _ => cases hj

theorem wanted_of_waitsWal (hj : j.waitsWal = true) : j.wanted h = none := by
  cases j with
  | call t =>
    obtain ⟨pc, loop⟩ := t
    cases pc with
    | waitWal work => rfl
    | _ => cases hj
  | _ => cases hj

theorem wanted_of_appends (hj : j.appends = true) : j.wanted h = none := by
  unfold appends at hj
  split at hj
  · rfl
  · cases hj

theorem not_finished_of_waitsWal (hj : j.waitsWal = true) : j.finished = false := by
  cases j with
  | call t =>
    obtain ⟨pc, loop⟩ := t
    cases pc with
    | waitWal work => rfl
    | _ => cases hj
  | _ => cases hj

theorem not_holdsWal_of_waitsWal (hj : j.waitsWal = true) : j.holdsWal = false := by
  cases j with
  | call t =>
    obtain ⟨pc, loop⟩ := t
    cases pc with
    | waitWal work => rfl
    | _ => cases hj
  | _ => cases hj

theorem not_finished_of_appends (hj : j.appends = true) : j.finished = false := by
  unfold appends at hj
  split at hj
  · rfl
  · cases hj

theorem not_waitsWal_of_appends (hj : j.appends = true) : j.waitsWal = false := by
  unfold appends at hj
  split at hj
  · rfl
  · cases hj

theorem not_holdsWal_of_finished (hj : j.finished = true) : j.holdsWal = false := by
  cases j with
  | call t =>
    obtain ⟨pc, loop⟩ := t
    cases pc with
    | done r => rfl
    | _ => cases hj
  | stats acc => rfl
  | _ => cases hj

theorem held_of_finished (hj : j.finished = true) : j.held h = [] := by
  cases j with
  | call t =>
    obtain ⟨pc, loop⟩ := t
    cases pc with
    | done r => rfl
    | _ => cases hj
  | stats acc => rfl
  | _ => cases hj

theorem not_waitsWal_of_undoesNack (hj : j.undoesNack = true) : j.waitsWal = false := by
  unfold undoesNack at hj
  split at hj
  · rfl
  · cases hj

end Job

/-! ### Who keeps a task locked over the wait for the mutex -/

namespace Pc

variable {s : InMemoryStorage α} {env : Env} {pc pc' : Pc α} {a : Access α} {w w' : Work α}

theorem eq_of_toLog (h : toLog s w = .waitWal w') : w = w' := by
  unfold toLog at h
  split at h
  · exact waitWal.inj h
  · have hphase : (afterLog w).phase = .unlogged w' := by rw [h, phase_waitWal]
    rw [phase_afterLog] at hphase
    cases hphase

/-- A call that waits for the mutex with its task locked is an `extend_visibility` that has just
found the task. -/
theorem Move.extended {taskId : String} {duration : UInt64} (hm : Move s env pc a pc')
    (hp : pc' = .waitWal (.extendVisibility taskId duration)) :
    pc = .start (.extendVisibility taskId duration) ∧ taskId ∈ s.inFlight := by
  have hlog : ∀ w : Work α, toLog s w = .waitWal (.extendVisibility taskId duration) →
      w = .extendVisibility taskId duration := fun w h => eq_of_toLog h
  cases hm with
  | extendVisibility hl =>
    cases hlog _ hp
    exact ⟨rfl, Finmap.mem_of_lookup_eq_some hl⟩
  | createQueue _ => cases hlog _ hp
  | queue _ => cases hlog _ hp
  | queueBatch _ => cases hlog _ hp
  | dequeue _ => cases hlog _ hp
  | dequeueBatch _ _ _ _ => cases hlog _ hp
  | ack _ => cases hlog _ hp
  | nack _ => cases hlog _ hp
  | verified => cases hlog _ hp
  | append _ =>
    have hphase := congrArg phase hp
    rw [phase_afterLog] at hphase
    cases hphase
  | @appendFails work e _ =>
    rcases failLog_cases e work with hfail | ⟨-, e', hfail⟩ <;> rw [hfail] at hp <;> cases hp
  | _ => cases hp

end Pc

/-- A thread that waits for the mutex came there in this step of its call. -/
theorem Thread.resume_acquires {loop : Option (List String × ℕ)} {pc : Pc α}
    (h : (Thread.resume loop pc).pc.acquires = true) : (Thread.resume loop pc).pc = pc := by
  have hnext : ∀ count ids, (Thread.next count ids : Thread α).pc.acquires = false := by
    intro count ids
    cases ids <;> rfl
  unfold Thread.resume at h ⊢
  split
  · exact absurd h (by simp only [hnext, Bool.false_eq_true, not_false_eq_true])
  · exact absurd h (by simp only [hnext, Bool.false_eq_true, not_false_eq_true])
  · exact absurd h (by simp only [hnext, Bool.false_eq_true, not_false_eq_true])
  · rfl

namespace Job

variable {h : Sharding} {s : InMemoryStorage α} {env : Env} {j : Job α} {g : Lock × Mode}

/-- Besides the calls, no request comes to the log. -/
theorem step_waitsWal (hw : (j.step h s env).2.waitsWal = true) :
    ∃ t, j = .call t ∧ ∃ work, (j.step h s env).2.held h = (Pc.waitWal work).held h ∧
      (t.pc.step s env).2 = .waitWal work := by
  cases j with
  | call t =>
    change (Thread.resume t.loop (t.pc.step s env).2).pc.acquires = true at hw
    have hpc := Thread.resume_acquires hw
    refine ⟨t, rfl, ?_⟩
    change ∃ work, (Thread.resume t.loop (t.pc.step s env).2).pc.held h = _ ∧ _
    rw [hpc] at hw ⊢
    cases hstep : (t.pc.step s env).2 with
    | waitWal work => exact ⟨work, rfl, rfl⟩
    | _ =>
      rw [hstep] at hw
      cases hw
  | fresh req =>
    change (begin env req).waitsWal = true at hw
    cases req with
    | getStats => cases hw
    | call c =>
      cases c with
      | cleanupExpiredTasks t =>
        rw [begin] at hw
        split at hw <;> cases hw
      | _ => cases hw
  | scan now timeout shard taskIds =>
    rw [step] at hw
    split at hw
    · cases hw
    · cases taskIds <;> cases hw
  | measure shard total =>
    rw [step] at hw
    split at hw <;> cases hw
  | queues shard todo acc =>
    cases todo with
    | nil =>
      rw [step] at hw
      split at hw <;> cases hw
    | cons p todo => cases hw
  | count shard name pending todo acc taskShard found =>
    rw [step] at hw
    split at hw <;> cases hw
  | stats acc => cases hw

theorem extended_of_step (hw : (j.step h s env).2.waitsWal = true)
    (hg : g ∈ (j.step h s env).2.held h) (ht : g.1.ofTasks = true) :
    ∃ taskId ∈ j.extended, taskId ∈ s.inFlight ∧ g.1 = h.taskLock taskId := by
  obtain ⟨⟨pc, loop⟩, rfl, work, hheld, hstep⟩ := step_waitsWal hw
  rw [hheld] at hg
  cases work with
  | extendVisibility taskId duration =>
    -- the other work that locks something over the wait locks a queue
    obtain ⟨hpc, hmem⟩ := (Pc.move_step s env pc).extended hstep
    change pc = _ at hpc
    subst hpc
    rw [List.mem_singleton.mp hg]
    exact ⟨taskId, rfl, hmem, rfl⟩
  | dequeue name item taskId =>
    rw [List.mem_singleton.mp hg] at ht
    cases ht
  | dequeueBatch name deliveries =>
    rw [List.mem_singleton.mp hg] at ht
    cases ht
  | _ => cases hg

end Job

/-! ### The order of the steps -/

namespace Executor

open Relation

variable {ι : Type}

/-- `i` is stopped at a lock that `j` holds. -/
def WaitsFor (h : Sharding) (σ : Executor ι α) (i j : ι) : Prop :=
  σ.place i = .waiting ∧ σ.Blocks h j i

/-- A `nack` in its error branch is `i`, or waits for it. -/
def Urgent (h : Sharding) (σ : Executor ι α) (i : ι) : Prop :=
  ∃ x, (σ.job x).undoesNack = true ∧ ReflTransGen (σ.WaitsFor h) x i

/-- `i` waits for the mutex, or for a request that does. -/
def Stalled (h : Sharding) (σ : Executor ι α) (i : ι) : Prop :=
  ∃ y, (σ.job y).waitsWal = true ∧ ReflTransGen (σ.WaitsFor h) i y

/-- `i` is on a thread and can go on. -/
def Moves (h : Sharding) (σ : Executor ι α) (i : ι) : Prop :=
  σ.place i = .running ∨ σ.place i = .waiting ∧ σ.Available h i

variable [Fintype ι] [DecidableEq ι]

/-- **The steps that keep the executor going.** A request stops at a lock only while another thread
is free or can go on, and an urgent request only where no stalled one holds the lock;
`extend_visibility` does not lock a task whose shard an urgent request is stopped at. -/
def Careful (h : Sharding) (W : ℕ) (σ : Executor ι α) (l : ι × Action) : Prop :=
  match l.2 with
  | .wait =>
    (σ.busy.card < W ∨ ∃ j, j ≠ l.1 ∧ σ.Moves h j) ∧
      (σ.Urgent h l.1 → ∀ j, σ.Blocks h j l.1 → ¬ σ.Stalled h j)
  | .run _ =>
    ∀ taskId ∈ (σ.job l.1).extended, taskId ∈ σ.store.inFlight →
      ∀ i, σ.Urgent h i → σ.place i = .waiting →
        ∀ w ∈ (σ.job i).wanted h, w.1 ≠ h.taskLock taskId
  | _ => True

/-- What holds in every careful run. -/
structure Sound (h : Sharding) (W : ℕ) (σ : Executor ι α) : Prop where
  /-- There are no more requests on threads than threads. -/
  threads : σ.busy.card ≤ W
  /-- Whoever holds a lock off the threads is at an await. -/
  parked : ∀ i, σ.place i = .parked → (σ.job i).held h = [] ∧ (σ.job i).holdsWal = false ∨
    (σ.job i).waitsWal = true ∨ (σ.job i).appends = true
  /-- Who is stopped, is stopped at a lock. -/
  waiting : ∀ i, σ.place i = .waiting → (σ.job i).wanted h ≠ none
  /-- Not every thread is stopped at a lock that is held. -/
  threadLeft : σ.busy.card < W ∨ ∃ i, σ.Moves h i
  /-- No error branch of a `nack` waits for the mutex that it holds. -/
  noCircle : ∀ x y, (σ.job x).undoesNack = true → (σ.job y).waitsWal = true →
    ¬ ReflTransGen (σ.WaitsFor h) x y

/-! ### Something can happen -/

section Live

variable {h : Sharding} {W : ℕ} {σ : Executor ι α} {i j : ι}

omit [Fintype ι] [DecidableEq ι] in
/-- Who is waited for holds a lock. -/
theorem WaitsFor.held (hw : σ.WaitsFor h i j) : (σ.job j).held h ≠ [] := by
  obtain ⟨-, -, w, -, g, hg, -⟩ := hw
  exact List.ne_nil_of_mem hg

/-- The lock a request needs next, by its place in the order. -/
def need (h : Sharding) (σ : Executor ι α) (i : ι) : WithBot (ℕ ×ₗ ℕ) :=
  ((σ.job i).wanted h).map fun w => w.1.rank

omit [Fintype ι] [DecidableEq ι] in
theorem WaitsFor.need_lt {k : ι} (hij : σ.WaitsFor h i j) (hjk : σ.WaitsFor h j k) :
    σ.need h i < σ.need h j := by
  obtain ⟨-, -, w, hw, g, hg, hgw, -⟩ := hij
  obtain ⟨-, -, w', hw', -⟩ := hjk
  have hi : σ.need h i = (w.1.rank : WithBot (ℕ ×ₗ ℕ)) := by
    rw [need, Option.mem_def.mp hw]
    rfl
  have hj : σ.need h j = (w'.1.rank : WithBot (ℕ ×ₗ ℕ)) := by
    rw [need, Option.mem_def.mp hw']
    rfl
  rw [hi, hj, WithBot.coe_lt_coe, ← hgw]
  exact Job.rank_lt hg hw'

omit [DecidableEq ι] in
/-- **Waits do not close a circle**: a chain of them ends. -/
theorem exists_end (h : Sharding) (σ : Executor ι α) (i : ι) :
    ∃ j, ReflTransGen (σ.WaitsFor h) i j ∧ ∀ k, ¬ σ.WaitsFor h j k :=
  WaitChain.exists_end (σ.need h) (fun _ _ _ hij hjk => hij.need_lt hjk) i

theorem enabled_of_moves (hs : σ.Sound h W) (hm : σ.Moves h i) : ∃ a, σ.Enabled h W i a := by
  rcases hm with hrun | ⟨hwait, havail⟩
  · by_cases havail : σ.Available h i
    · by_cases hready : σ.Ready i
      · exact ⟨.run (Env.quiet []), by rw [hrun]; nofun, havail, hready⟩
      · -- not ready: it waits for the mutex, or for its write
        refine ⟨.park, hrun, ?_⟩
        rw [Ready, not_and_or] at hready
        rcases hready with hwal | hwrite
        · exact Or.inl (Classical.not_imp.mp hwal).1
        · obtain ⟨happ, hnone⟩ := Classical.not_imp.mp hwrite
          exact Or.inr ⟨happ, not_not.mp hnone⟩
    · exact ⟨.wait, hrun, havail⟩
  · have hwanted := hs.waiting i hwait
    refine ⟨.run (Env.quiet []), by rw [hwait]; nofun, havail, ?_, ?_⟩
    · exact fun hwal => absurd (Job.wanted_of_waitsWal hwal) hwanted
    · exact fun happ => absurd (Job.wanted_of_appends happ) hwanted

/-- A request that appends can go on, when a thread is left. -/
theorem enabled_of_appends (hs : σ.Sound h W) (happ : (σ.job i).appends = true) :
    ∃ j a, σ.Enabled h W j a := by
  have hunfinished : (σ.job i).finished = false := Job.not_finished_of_appends happ
  have hwal : (σ.job i).waitsWal = false := Job.not_waitsWal_of_appends happ
  by_cases hnone : σ.write i = none
  · exact ⟨i, .complete (.ok ()), happ, hnone⟩
  · cases hplace : σ.place i with
    | running =>
      obtain ⟨a, ha⟩ := enabled_of_moves hs (Or.inl hplace)
      exact ⟨i, a, ha⟩
    | waiting => exact absurd (Job.wanted_of_appends happ) (hs.waiting i hplace)
    | parked =>
      rcases hs.threadLeft with hfree | ⟨j, hj⟩
      · refine ⟨i, .resume, hplace, hunfinished, hfree, ?_, fun _ => hnone⟩
        rw [hwal]
        nofun
      · obtain ⟨a, ha⟩ := enabled_of_moves hs hj
        exact ⟨j, a, ha⟩

section Stopped

/-- Nobody can go on and nobody appends; a thread is left. -/
structure Stopped (h : Sharding) (W : ℕ) (σ : Executor ι α) : Prop where
  noMoves : ∀ i, ¬ σ.Moves h i
  noAppends : ∀ i, (σ.job i).appends = false
  free : σ.busy.card < W

variable (hs : σ.Sound h W) (ht : σ.Stopped h W)

omit [DecidableEq ι] in
include ht in
/-- Then a chain of waits ends in a request that is suspended. -/
theorem Stopped.exists_parked (i : ι) :
    ∃ j, ReflTransGen (σ.WaitsFor h) i j ∧ σ.place j = .parked := by
  obtain ⟨j, hchain, hend⟩ := exists_end h σ i
  refine ⟨j, hchain, ?_⟩
  cases hplace : σ.place j with
  | parked => rfl
  | running => exact absurd (Or.inl hplace) (ht.noMoves j)
  | waiting => exact absurd (Or.inr ⟨hplace, fun k hk => hend k ⟨hplace, hk⟩⟩) (ht.noMoves j)

omit [DecidableEq ι] in
include hs ht in
/-- Somebody on a chain of waits of a request that is not suspended waits for the mutex. -/
theorem Stopped.exists_waitsWal (hi : σ.place i ≠ .parked) :
    ∃ j, ReflTransGen (σ.WaitsFor h) i j ∧ σ.place j = .parked ∧ (σ.job j).waitsWal = true := by
  obtain ⟨j, hchain, hplace⟩ := ht.exists_parked i
  refine ⟨j, hchain, hplace, ?_⟩
  -- the end of the chain is waited for, so it is suspended with a lock in hand
  rcases hchain.cases_tail with hij | ⟨k, -, hkj⟩
  · rw [hij] at hplace
    exact absurd hplace hi
  · rcases hs.parked j hplace with ⟨hheld, -⟩ | hwal | happ
    · exact absurd hheld hkj.held
    · exact hwal
    · rw [ht.noAppends j] at happ
      cases happ

omit [DecidableEq ι] in
include hs ht in
/-- The mutex is free, for its holder could only be an error branch of `nack` that waits for it. -/
theorem Stopped.walFree : σ.WalFree := by
  intro x
  by_contra hx
  rw [Bool.not_eq_false] at hx
  have hplace : σ.place x ≠ .parked := by
    intro hplace
    rcases hs.parked x hplace with ⟨-, hfree⟩ | hwal | happ
    · rw [hx] at hfree
      cases hfree
    · rw [Job.not_holdsWal_of_waitsWal hwal] at hx
      cases hx
    · rw [ht.noAppends x] at happ
      cases happ
  -- its holder is not suspended, so it is stopped at a lock of its own
  have hwaiting : σ.place x = .waiting := by
    cases hp : σ.place x with
    | parked => exact absurd hp hplace
    | running => exact absurd (Or.inl hp) (ht.noMoves x)
    | waiting => rfl
  obtain ⟨w, hw⟩ := Option.ne_none_iff_exists'.mp (hs.waiting x hwaiting)
  have hundoes : (σ.job x).undoesNack = true := Job.undoesNack_of_holdsWal hx (h := h) hw
  obtain ⟨y, hchain, -, hwal⟩ := ht.exists_waitsWal hs hplace
  exact hs.noCircle x y hundoes hwal hchain

omit [DecidableEq ι] in
include hs ht in
theorem Stopped.enabled (hi : (σ.job i).finished = false) : ∃ j a, σ.Enabled h W j a := by
  have hresume : ∀ j, σ.place j = .parked → (σ.job j).finished = false →
      ∃ j a, σ.Enabled h W j a := by
    intro j hplace hj
    refine ⟨j, .resume, hplace, hj, ht.free, fun _ => ht.walFree hs, ?_⟩
    rw [ht.noAppends j]
    nofun
  by_cases hplace : σ.place i = .parked
  · exact hresume i hplace hi
  · obtain ⟨j, -, hj, hwal⟩ := ht.exists_waitsWal hs hplace
    exact hresume j hj (Job.not_finished_of_waitsWal hwal)

end Stopped

/-- **A sound executor is live.** -/
theorem Sound.live (hs : σ.Sound h W) : σ.Live h W := by
  rintro ⟨i, hi⟩
  have henabled : ∃ j a, σ.Enabled h W j a := by
    -- Somebody can go on, or appends, or everybody is stopped or suspended.
    by_cases hmoves : ∃ j, σ.Moves h j
    · obtain ⟨j, hj⟩ := hmoves
      obtain ⟨a, ha⟩ := enabled_of_moves hs hj
      exact ⟨j, a, ha⟩
    by_cases happ : ∃ j, (σ.job j).appends = true
    · obtain ⟨j, hj⟩ := happ
      exact enabled_of_appends hs hj
    have ht : σ.Stopped h W :=
      { noMoves := fun j hj => hmoves ⟨j, hj⟩
        noAppends := fun j => Bool.eq_false_iff.mpr fun hj => happ ⟨j, hj⟩
        free := hs.threadLeft.resolve_right hmoves }
    exact ht.enabled hs hi
  obtain ⟨j, a, ha⟩ := henabled
  refine ⟨(j, a), ?_⟩
  change (if σ.Enabled h W j a then some _ else none).isSome
  rw [if_pos ha]
  rfl

end Live

/-! ### Every careful step -/

section Step

variable {h : Sharding} {W : ℕ} {σ σ' : Executor ι α} {i : ι}

omit [DecidableEq ι] in
theorem mem_busy : i ∈ σ.busy ↔ σ.place i ≠ .parked :=
  Finset.mem_filter.trans (and_iff_right (Finset.mem_univ i))

/-- Only the place of `i` changed. -/
structure SamePlaces (σ σ' : Executor ι α) (i : ι) : Prop where
  place : ∀ j, j ≠ i → σ'.place j = σ.place j

theorem SamePlaces.busy_enter (hp : SamePlaces σ σ' i) (h : σ.place i = .parked)
    (h' : σ'.place i ≠ .parked) : σ'.busy.card = σ.busy.card + 1 := by
  have hbusy : σ'.busy = insert i σ.busy := by
    ext j
    by_cases hj : j = i
    · subst hj
      exact iff_of_true (mem_busy.mpr h') (Finset.mem_insert_self _ _)
    · rw [Finset.mem_insert, mem_busy, mem_busy, hp.place j hj]
      exact (or_iff_right hj).symm
  rw [hbusy, Finset.card_insert_of_notMem fun hi => mem_busy.mp hi h]

theorem SamePlaces.busy_leave (hp : SamePlaces σ σ' i) (h : σ.place i ≠ .parked)
    (h' : σ'.place i = .parked) : σ'.busy.card < σ.busy.card := by
  have hbusy : σ'.busy = σ.busy.erase i := by
    ext j
    by_cases hj : j = i
    · subst hj
      exact iff_of_false (fun hm => mem_busy.mp hm h') (Finset.notMem_erase _ _)
    · rw [Finset.mem_erase, mem_busy, mem_busy, hp.place j hj]
      exact (and_iff_right hj).symm
  rw [hbusy]
  exact Finset.card_erase_lt_of_mem (mem_busy.mpr h)

theorem SamePlaces.busy_stay (hp : SamePlaces σ σ' i) (h : σ.place i ≠ .parked)
    (h' : σ'.place i ≠ .parked) : σ'.busy = σ.busy := by
  ext j
  by_cases hj : j = i
  · subst hj
    exact iff_of_true (mem_busy.mpr h') (mem_busy.mpr h)
  · rw [mem_busy, mem_busy, hp.place j hj]

omit [Fintype ι] in
theorem fibers_setPlace_self (p : Standing) :
    (σ.setPlace i p).fibers i = { σ.fibers i with place := p } := Function.update_self ..

omit [Fintype ι] in
theorem fibers_setPlace_of_ne (p : Standing) {j : ι} (hj : j ≠ i) :
    (σ.setPlace i p).fibers j = σ.fibers j := Function.update_of_ne hj ..

omit [Fintype ι] in
theorem job_setPlace (p : Standing) (j : ι) : (σ.setPlace i p).job j = σ.job j := by
  by_cases hj : j = i
  · subst hj
    rw [job, fibers_setPlace_self]
    rfl
  · rw [job, fibers_setPlace_of_ne p hj]
    rfl

omit [Fintype ι] in
theorem place_setPlace_self (p : Standing) : (σ.setPlace i p).place i = p := by
  rw [place, fibers_setPlace_self]

omit [Fintype ι] in
theorem samePlaces_setPlace (p : Standing) : SamePlaces σ (σ.setPlace i p) i where
  place j hj := by rw [place, fibers_setPlace_of_ne p hj, place]

/-- No request went on: the jobs are what they were. -/
structure SameJobs (σ σ' : Executor ι α) : Prop where
  job : ∀ j, σ'.job j = σ.job j

omit [Fintype ι] in
theorem sameJobs_setPlace (p : Standing) : SameJobs σ (σ.setPlace i p) := ⟨job_setPlace p⟩

omit [Fintype ι] [DecidableEq ι] in
theorem SameJobs.blocks (hj : SameJobs σ σ') (j k : ι) : σ'.Blocks h j k ↔ σ.Blocks h j k := by
  rw [Blocks, Blocks, hj.job, hj.job]

omit [Fintype ι] [DecidableEq ι] in
theorem SameJobs.available (hj : SameJobs σ σ') (k : ι) :
    σ'.Available h k ↔ σ.Available h k :=
  forall_congr' fun j => not_congr (hj.blocks j k)

omit [Fintype ι] [DecidableEq ι] in
/-- Requests that are stopped where they were wait as before. -/
theorem SameJobs.noCircle (hj : SameJobs σ σ')
    (hplace : ∀ j, σ'.place j = .waiting → σ.place j = .waiting)
    (hs : ∀ x y, (σ.job x).undoesNack = true → (σ.job y).waitsWal = true →
      ¬ ReflTransGen (σ.WaitsFor h) x y) :
    ∀ x y, (σ'.job x).undoesNack = true → (σ'.job y).waitsWal = true →
      ¬ ReflTransGen (σ'.WaitsFor h) x y := by
  intro x y hx hy hchain
  rw [hj.job] at hx hy
  refine hs x y hx hy (ReflTransGen.mono ?_ x y hchain)
  rintro a b ⟨hwait, hblocks⟩
  exact ⟨hplace a hwait, (hj.blocks b a).mp hblocks⟩

theorem Sound.resume (hs : σ.Sound h W) (he : σ.Enabled h W i .resume) :
    (σ.setPlace i .running).Sound h W := by
  obtain ⟨hparked, -, hfree, -⟩ := he
  have hp : SamePlaces σ (σ.setPlace i .running) i := samePlaces_setPlace _
  have hj : SameJobs σ (σ.setPlace i .running) := sameJobs_setPlace _
  have hrunning : (σ.setPlace i .running).place i = .running := place_setPlace_self _
  have hother : ∀ {j q}, (σ.setPlace i .running).place j = q → q ≠ .running →
      σ.place j = q := by
    rintro j q rfl hq
    by_cases hji : j = i
    · subst hji
      exact absurd hrunning hq
    · exact (hp.place j hji).symm
  refine ⟨?_, ?_, ?_, Or.inr ⟨i, Or.inl hrunning⟩, hj.noCircle ?_ hs.noCircle⟩
  · rw [hp.busy_enter hparked (by rw [hrunning]; nofun)]
    exact hfree
  · intro j hplace
    rw [hj.job]
    exact hs.parked j (hother hplace nofun)
  · intro j hplace
    rw [hj.job]
    exact hs.waiting j (hother hplace nofun)
  · exact fun j hplace => hother hplace nofun

theorem Sound.park (hs : σ.Sound h W) (he : σ.Enabled h W i .park) :
    (σ.setPlace i .parked).Sound h W := by
  obtain ⟨hrunning, hawait⟩ := he
  have hp : SamePlaces σ (σ.setPlace i .parked) i := samePlaces_setPlace _
  have hj : SameJobs σ (σ.setPlace i .parked) := sameJobs_setPlace _
  have hparked : (σ.setPlace i .parked).place i = .parked := place_setPlace_self _
  have hother : ∀ {j}, (σ.setPlace i .parked).place j = .waiting → σ.place j = .waiting := by
    intro j hplace
    by_cases hji : j = i
    · subst hji
      rw [hparked] at hplace
      cases hplace
    · rwa [hp.place j hji] at hplace
  have hcard : (σ.setPlace i .parked).busy.card < W :=
    lt_of_lt_of_le (hp.busy_leave (by rw [hrunning]; nofun) hparked) hs.threads
  refine ⟨hcard.le, ?_, ?_, Or.inl hcard, hj.noCircle (fun _ => hother) hs.noCircle⟩
  · intro j hplace
    rw [hj.job]
    by_cases hji : j = i
    · subst hji
      exact Or.inr (hawait.imp_right And.left)
    · rw [hp.place j hji] at hplace
      exact hs.parked j hplace
  · intro j hplace
    rw [hj.job]
    exact hs.waiting j (hother hplace)

/-- A request that stops at a lock: what it newly waits for is not stalled, if it is urgent. -/
theorem Sound.wait (hs : σ.Sound h W) (he : σ.Enabled h W i .wait)
    (hok : σ.Careful h W (i, .wait)) : (σ.setPlace i .waiting).Sound h W := by
  obtain ⟨hrunning, hblocked⟩ := he
  obtain ⟨hleft, hstalled⟩ := hok
  have hp : SamePlaces σ (σ.setPlace i .waiting) i := samePlaces_setPlace _
  have hj : SameJobs σ (σ.setPlace i .waiting) := sameJobs_setPlace _
  have hwaiting : (σ.setPlace i .waiting).place i = .waiting := place_setPlace_self _
  have hbusy : (σ.setPlace i .waiting).busy = σ.busy :=
    hp.busy_stay (by rw [hrunning]; nofun) (by rw [hwaiting]; nofun)
  refine ⟨?_, ?_, ?_, ?_, ?_⟩
  · rw [hbusy]
    exact hs.threads
  · intro j hplace
    rw [hj.job]
    by_cases hji : j = i
    · subst hji
      rw [hwaiting] at hplace
      cases hplace
    · rw [hp.place j hji] at hplace
      exact hs.parked j hplace
  · intro j hplace
    rw [hj.job]
    by_cases hji : j = i
    · subst hji
      rw [Available, not_forall] at hblocked
      obtain ⟨k, hk⟩ := hblocked
      obtain ⟨-, w, hw, -⟩ := not_not.mp hk
      rw [Option.mem_def.mp hw]
      nofun
    · rw [hp.place j hji] at hplace
      exact hs.waiting j hplace
  -- who can go on instead can still do so: only the place of `i` has changed
  · rw [hbusy]
    refine hleft.imp_right ?_
    rintro ⟨j, hji, hmoves⟩
    refine ⟨j, ?_⟩
    rw [Moves, hp.place j hji, hj.available]
    exact hmoves
  · intro x y hx hy hchain
    rw [hj.job] at hx hy
    -- the only new waits are those of `i`
    have hadd : ∀ a b, (σ.setPlace i .waiting).WaitsFor h a b →
        σ.WaitsFor h a b ∨ a = i ∧ σ.Blocks h b i := by
      rintro a b ⟨hwait, hblocks⟩
      rw [hj.blocks] at hblocks
      by_cases ha : a = i
      · subst ha
        exact Or.inr ⟨rfl, hblocks⟩
      · rw [hp.place a ha] at hwait
        exact Or.inl ⟨hwait, hblocks⟩
    rcases WaitChain.chain_of_add hadd hchain with hold | ⟨hxi, b, hb, hby⟩
    · exact hs.noCircle x y hx hy hold
    · exact hstalled ⟨x, hx, hxi⟩ b hb ⟨y, hy, hby⟩

theorem Sound.complete (hs : σ.Sound h W) (r : Except String Unit) :
    (σ.after h i (.complete r)).Sound h W := by
  have hfiber : ∀ j, (σ.after h i (.complete r)).job j = σ.job j ∧
      (σ.after h i (.complete r)).place j = σ.place j := by
    intro j
    by_cases hji : j = i
    · subst hji
      have hself : (σ.after h j (.complete r)).fibers j = { σ.fibers j with write := some r } :=
        Function.update_self ..
      rw [job, place, hself]
      exact ⟨rfl, rfl⟩
    · have hne : (σ.after h i (.complete r)).fibers j = σ.fibers j := Function.update_of_ne hji ..
      rw [job, place, hne]
      exact ⟨rfl, rfl⟩
  have hj : SameJobs σ (σ.after h i (.complete r)) := ⟨fun j => (hfiber j).1⟩
  have hplace : ∀ j, (σ.after h i (.complete r)).place j = σ.place j := fun j => (hfiber j).2
  have hbusy : (σ.after h i (.complete r)).busy = σ.busy := by
    ext j
    rw [mem_busy, mem_busy, hplace]
  refine ⟨?_, ?_, ?_, ?_, hj.noCircle (fun j hw => (hplace j).symm.trans hw) hs.noCircle⟩
  · rw [hbusy]
    exact hs.threads
  · intro j hparked
    rw [hplace] at hparked
    rw [hj.job]
    exact hs.parked j hparked
  · intro j hwaiting
    rw [hplace] at hwaiting
    rw [hj.job]
    exact hs.waiting j hwaiting
  · rw [hbusy]
    refine hs.threadLeft.imp_right ?_
    rintro ⟨j, hmoves⟩
    refine ⟨j, ?_⟩
    rw [Moves, hplace, hj.available]
    exact hmoves

omit [Fintype ι] [DecidableEq ι] in
/-- A request that an error branch of `nack` waits for is stopped at a lock of a task, if it is
stopped. -/
theorem Urgent.ofTasks {k : ι} (hu : σ.Urgent h k) {w : Lock × Mode}
    (hw : w ∈ (σ.job k).wanted h) : w.1.ofTasks = true := by
  obtain ⟨x, hx, hchain⟩ := hu
  -- Along the chain the locks only get higher, and it starts at one of a task.
  induction hchain generalizing w with
  | refl => exact Job.ofTasks_of_undoesNack hx hw
  | @tail a b _ hab ih =>
    obtain ⟨-, -, w', hw', g, hg, hgw, -⟩ := hab
    have hg' : g.1.ofTasks = true := by
      rw [hgw]
      exact ih hw'
    exact Lock.ofTasks_of_lt hg' (Job.rank_lt hg hw)

/-! A step of `i`. -/

/-- The job of `i` behind its next step. -/
def next (h : Sharding) (σ : Executor ι α) (i : ι) (env : Env) : Job α :=
  ((σ.job i).step h σ.store { env with append := (σ.write i).getD env.append }).2

section Run

variable {env : Env}

omit [Fintype ι] in
theorem fibers_runAt_self : (σ.runAt h i env).fibers i
    = ⟨σ.next h i env, if (σ.next h i env).finished then .parked else .running, none⟩ :=
  Function.update_self ..

omit [Fintype ι] in
theorem fibers_runAt_of_ne {j : ι} (hj : j ≠ i) : (σ.runAt h i env).fibers j = σ.fibers j :=
  Function.update_of_ne hj ..

omit [Fintype ι] in
theorem job_runAt_self : (σ.runAt h i env).job i = σ.next h i env := by
  rw [job, fibers_runAt_self]

omit [Fintype ι] in
theorem job_runAt_of_ne {j : ι} (hj : j ≠ i) : (σ.runAt h i env).job j = σ.job j := by
  rw [job, fibers_runAt_of_ne hj, job]

omit [Fintype ι] in
theorem place_runAt_self : (σ.runAt h i env).place i
    = if (σ.next h i env).finished then .parked else .running := by
  rw [place, fibers_runAt_self]

omit [Fintype ι] in
theorem samePlaces_runAt : SamePlaces σ (σ.runAt h i env) i where
  place j hj := by rw [place, fibers_runAt_of_ne hj, place]

omit [Fintype ι] in
/-- Who has just gone on is not stopped at a lock, -/
theorem place_runAt_ne_waiting : (σ.runAt h i env).place i ≠ .waiting := by
  rw [place_runAt_self]
  split <;> nofun

omit [Fintype ι] in
/-- and so waits for nobody. -/
theorem not_waitsFor_runAt (b : ι) : ¬ (σ.runAt h i env).WaitsFor h i b :=
  fun hb => place_runAt_ne_waiting hb.1

omit [Fintype ι] in
/-- The others wait for each other as before. -/
theorem waitsFor_of_runAt {a b : ι} (hb : b ≠ i) (hw : (σ.runAt h i env).WaitsFor h a b) :
    σ.WaitsFor h a b := by
  obtain ⟨hwait, hblocks⟩ := hw
  have ha : a ≠ i := by
    rintro rfl
    exact place_runAt_ne_waiting hwait
  rw [samePlaces_runAt.place a ha] at hwait
  rw [Blocks, job_runAt_of_ne ha, job_runAt_of_ne hb] at hblocks
  exact ⟨hwait, hblocks⟩

/-- What `i` may come to hold over the wait for the mutex, no urgent request is stopped at. -/
theorem Sound.noCircle_run (hs : σ.Sound h W) (hok : σ.Careful h W (i, .run env)) {x y : ι}
    (hx : ((σ.runAt h i env).job x).undoesNack = true)
    (hy : ((σ.runAt h i env).job y).waitsWal = true) :
    ¬ ReflTransGen ((σ.runAt h i env).WaitsFor h) x y := by
  intro hchain
  obtain ⟨hother, hend⟩ :=
    WaitChain.chain_of_idle not_waitsFor_runAt (fun _ _ => waitsFor_of_runAt) hchain
  have hxi : x ≠ i := by
    rintro rfl
    -- the chain cannot leave `i`, which does not wait for the mutex
    rcases hchain.cases_head with hxy | ⟨b, hb, -⟩
    · rw [← hxy, Job.not_waitsWal_of_undoesNack hx] at hy
      cases hy
    · exact not_waitsFor_runAt b hb
  rw [job_runAt_of_ne hxi] at hx
  by_cases hyi : y = i
  · subst hyi
    -- `y` has just come to the mutex, and holds what an urgent request is stopped at
    rcases hend rfl with hxy | ⟨k, hxk, hwait, hky, w, hw, g, hg, hgw, -⟩
    · exact hxi hxy
    have hk : k ≠ y := fun hk => place_runAt_ne_waiting (hk ▸ hwait)
    rw [samePlaces_runAt.place k hk] at hwait
    rw [job_runAt_of_ne hk] at hw
    rw [job_runAt_self] at hy hg
    have hurgent : σ.Urgent h k := ⟨x, hx, hxk⟩
    have htask : g.1.ofTasks = true := by
      rw [hgw]
      exact hurgent.ofTasks hw
    obtain ⟨taskId, hid, hmem, hlock⟩ := Job.extended_of_step hy hg htask
    exact hok taskId hid hmem k hurgent hwait w hw (hgw.symm.trans hlock)
  · rw [job_runAt_of_ne hyi] at hy
    exact hs.noCircle x y hx hy (hother hyi)

/-- A request that goes on is on its thread afterwards, or is finished and has left it. -/
theorem Sound.run (hs : σ.Sound h W) (he : σ.Enabled h W i (.run env))
    (hok : σ.Careful h W (i, .run env)) : (σ.runAt h i env).Sound h W := by
  obtain ⟨hbusy, -, -⟩ := he
  have hp : SamePlaces σ (σ.runAt h i env) i := samePlaces_runAt
  have hplace : (σ.runAt h i env).place i
      = if (σ.next h i env).finished then .parked else .running := place_runAt_self
  refine ⟨?_, ?_, ?_, ?_, fun x y hx hy => hs.noCircle_run hok hx hy⟩
  · by_cases hfin : (σ.next h i env).finished = true
    · rw [if_pos hfin] at hplace
      exact (hp.busy_leave hbusy hplace).le.trans hs.threads
    · rw [if_neg hfin] at hplace
      rw [hp.busy_stay hbusy (by rw [hplace]; nofun)]
      exact hs.threads
  · intro j hparked
    by_cases hji : j = i
    · subst hji
      rw [hplace] at hparked
      split at hparked
      · next hfin =>
        rw [job_runAt_self]
        exact Or.inl ⟨Job.held_of_finished hfin, Job.not_holdsWal_of_finished hfin⟩
      · cases hparked
    · rw [hp.place j hji] at hparked
      rw [job_runAt_of_ne hji]
      exact hs.parked j hparked
  · intro j hwaiting
    by_cases hji : j = i
    · subst hji
      exact absurd hwaiting place_runAt_ne_waiting
    · rw [hp.place j hji] at hwaiting
      rw [job_runAt_of_ne hji]
      exact hs.waiting j hwaiting
  · by_cases hfin : (σ.next h i env).finished = true
    · rw [if_pos hfin] at hplace
      exact Or.inl ((hp.busy_leave hbusy hplace).trans_le hs.threads)
    · rw [if_neg hfin] at hplace
      exact Or.inr ⟨i, Or.inl hplace⟩

end Run

theorem Sound.step (hs : σ.Sound h W) {l : ι × Action} (hok : σ.Careful h W l)
    (hl : (machine ι α h W).step σ l = some σ') : σ'.Sound h W := by
  obtain ⟨i, a⟩ := l
  obtain ⟨he, hσ⟩ := Option.ite_none_right_eq_some.mp hl
  cases hσ
  cases a with
  | resume => exact hs.resume he
  | park => exact hs.park he
  | wait => exact hs.wait he hok
  | complete r => exact hs.complete r
  | run env => exact hs.run he hok

omit [DecidableEq ι] in
theorem sound_start (h : Sharding) (hW : 0 < W) (s : InMemoryStorage α)
    (requests : ι → Request α) : (start s requests).Sound h W := by
  have hplace : ∀ i, (start s requests).place i = .parked := fun _ => rfl
  have hbusy : (start s requests).busy.card = 0 := by
    rw [Finset.card_eq_zero]
    ext i
    rw [mem_busy, hplace]
    exact iff_of_false (not_not.mpr rfl) (Finset.notMem_empty i)
  refine ⟨?_, ?_, ?_, ?_, ?_⟩
  · rw [hbusy]
    exact Nat.zero_le W
  · exact fun i _ => Or.inl ⟨rfl, rfl⟩
  · intro i hwaiting
    rw [hplace] at hwaiting
    cases hwaiting
  · rw [hbusy]
    exact Or.inl hW
  · rintro x y hx -
    cases hx

end Step

/-- **In every careful run something can happen until all requests are finished.** -/
theorem live_run {h : Sharding} {W : ℕ} (hW : 0 < W) {s : InMemoryStorage α}
    {requests : ι → Request α} {σ : Executor ι α}
    (hr : (machine ι α h W).Reach (Careful h W) (start s requests) σ) : σ.Live h W := by
  have hsound : σ.Sound h W := by
    refine hr.invariant (Sound h W) (sound_start h hW s requests) ?_
    rintro σ l σ' hs hok hl
    exact hs.step hok hl
  exact hsound.live

/-! ### Stopped runs -/

section Decidable

variable {h : Sharding} {W : ℕ} {σ : Executor ι α}

/-- What can happen does not depend on the values it brings. -/
theorem live_iff : σ.Live h W ↔ (∃ i, (σ.job i).finished = false) →
    ∃ i, ∃ a ∈ [.resume, .park, .wait, .complete (.ok ()), .run (Env.quiet [])],
      σ.Enabled h W i a := by
  refine imp_congr_right fun _ => ?_
  have hstep : ∀ l, ((machine ι α h W).step σ l).isSome ↔ σ.Enabled h W l.1 l.2 := by
    rintro ⟨i, a⟩
    change (if σ.Enabled h W i a then some (σ.after h i a) else none).isSome ↔ _
    by_cases he : σ.Enabled h W i a
    · rw [if_pos he]
      exact iff_of_true rfl he
    · rw [if_neg he]
      exact iff_of_false nofun he
  constructor
  · rintro ⟨⟨i, a⟩, hl⟩
    have he := (hstep _).mp hl
    refine ⟨i, ?_⟩
    cases a with
    | resume => exact ⟨.resume, by simp, he⟩
    | park => exact ⟨.park, by simp, he⟩
    | wait => exact ⟨.wait, by simp, he⟩
    | complete r => exact ⟨.complete (.ok ()), by simp, he⟩
    | run env => exact ⟨.run (Env.quiet []), by simp, he⟩
  · rintro ⟨i, a, -, he⟩
    exact ⟨(i, a), (hstep _).mpr he⟩

instance : Decidable (σ.Live h W) := decidable_of_iff _ live_iff.symm

end Decidable

/-- A queue with two messages, on a persistent store. -/
def jobs : InMemoryStorage Bytes where
  queues := (∅ : DashMap _).insert "jobs" [⟨[0x68], 0⟩, ⟨[0x69], 0⟩]
  inFlight := ∅
  wal := some .new

/-- The store on which one task of that queue is in flight. -/
def jobTaken : InMemoryStorage Bytes where
  queues := (∅ : DashMap _).insert "jobs" [⟨[0x69], 0⟩]
  inFlight := (∅ : DashMap _).insert "t" ⟨"t", [0x68], 0, "jobs", 1⟩
  wal := some .new

/-- All keys in one shard. -/
def oneLock : Sharding := ⟨1, fun _ => 0, fun _ => 0⟩

/-- One thread is enough for a `dequeue`. -/
theorem live_run_dequeue :
    ∃ σ, (machine (Fin 1) Bytes oneLock 1).Reach (Careful oneLock 1)
        (start jobs fun _ => .call (.dequeue "jobs")) σ ∧
      (σ.job 0).appends = true ∧ σ.Live oneLock 1 := by
  let quiet : Env := Env.quiet ["t"]
  have hrun := System.Reach.exists_of_run (machine (Fin 1) Bytes oneLock 1)
    (fun σ l => (∀ i, (σ.job i).extended = none) ∧ l.2.waits = false)
    (start jobs fun _ => .call (.dequeue "jobs")) (fun σ => (σ.job 0).appends = true)
    [(0, .resume), (0, .run quiet), (0, .run quiet), (0, .run quiet), (0, .park)]
    (by decide +kernel)
  obtain ⟨σ, hreach, happ⟩ := hrun
  -- no request stops at a lock and none extends a task, so that the run is careful
  have hcareful : (machine (Fin 1) Bytes oneLock 1).Reach (Careful oneLock 1)
      (start jobs fun _ => .call (.dequeue "jobs")) σ := by
    refine hreach.weaken (fun {s} _ => (trivial : (fun _ => True) s)) ?_
    rintro σ ⟨i, a⟩ - ⟨hext, hwait⟩
    cases a with
    | wait => cases hwait
    | run env =>
      intro taskId hid
      rw [hext] at hid
      cases hid
    | _ => trivial
  exact ⟨σ, hcareful, happ, live_run Nat.zero_lt_one hcareful⟩

/-- One thread and two `dequeue`s of one queue. The first is suspended in its append and holds the
queue; the second stops at the queue and keeps the thread. -/
theorem not_live_dequeue :
    ¬ ∀ (n W : ℕ) (h : Sharding) (s : InMemoryStorage Bytes) (requests : Fin n → Request Bytes)
      (σ : Executor (Fin n) Bytes), 0 < W → s.wal.isSome →
      (machine (Fin n) Bytes h W).Reach (fun _ _ => True) (start s requests) σ → σ.Live h W := by
  intro hall
  let quiet : Env := Env.quiet ["t"]
  obtain ⟨σ, hreach, hnot⟩ := System.Reach.exists_of_run (machine (Fin 2) Bytes oneLock 1)
    (fun _ _ => True) (start jobs fun _ => .call (.dequeue "jobs"))
    (fun σ => ¬ σ.Live oneLock 1)
    [(0, .resume), (0, .run quiet), (0, .run quiet), (0, .run quiet), (0, .park), (1, .resume),
      (1, .run quiet), (1, .wait), (0, .complete (.ok ()))] (by decide +kernel)
  exact hnot (hall 2 1 oneLock jobs _ σ Nat.zero_lt_one rfl hreach)

/-- A `nack` and an `extend_visibility` in one shard, with a thread for each. The append of the
`nack` fails, and it puts its task back while it holds the mutex; `extend_visibility` has locked
the shard and waits for the mutex. -/
theorem not_live_nack :
    ∃ σ, (machine (Fin 2) Bytes oneLock 2).Reach (fun _ _ => True)
        (start { jobTaken with inFlight := jobTaken.inFlight.insert "u" ⟨"u", [], 0, "jobs", 1⟩ }
          fun i => .call (if i = 0 then .nack "t" else .extendVisibility "u" 60)) σ ∧
      ¬ σ.Live oneLock 2 := by
  let quiet : Env := Env.quiet []
  exact System.Reach.exists_of_run (machine (Fin 2) Bytes oneLock 2) (fun _ _ => True) _
    (fun σ => ¬ σ.Live oneLock 2)
    [(0, .resume), (1, .resume), (0, .run quiet), (1, .run quiet), (0, .run quiet),
      (0, .run quiet), (1, .run quiet), (0, .complete (.error "disk full")), (0, .run quiet),
      (0, .wait), (1, .park)] (by decide +kernel)

end Executor

end Oxideq
