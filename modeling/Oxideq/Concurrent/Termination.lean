import Mathlib.Data.Fin.VecNotation
import Oxideq.Concurrent.Progress
import Oxideq.Lib.Descent

/-!
# Requests come to an end

Whatever the order in which an executor takes the steps of its requests, they are finitely many: no
loop of the store goes on for as long as others feed it. `Pc.bound` counts the steps a call has
left. It is known when the call begins, also for `dequeue_batch`, which pops no more items than it
is asked for. The two iterations over the tables are another matter: how many tasks
`cleanup_expired_tasks` finds, and how many queues `get_stats` visits, is decided by the shards as
they are read, one after the other. So the shards that are left to be read are counted first
(`Job.reads`), and the steps that are known only among jobs with as many of these.

A request that waits for the mutex can be suspended and resumed for ever, if it is suspended
although the mutex is free. `Prompt` excludes this and nothing else.
-/

namespace Oxideq

variable {α : Type}

/-! ### The steps of a call -/

/-- How often the loop behind the log goes round. -/
def Work.rounds : Work α → ℕ
  | .dequeueBatch _ deliveries => deliveries.length
  | .ackBatch taskIds => taskIds.length
  | _ => 0

namespace Pc

/-- No more steps than these are left of the call, but for the scan of `cleanup_expired_tasks`. -/
def bound : Pc α → ℕ
  | .start (.dequeueBatch _ count) => count.toNat + 5
  | .start (.ackBatch taskIds) => taskIds.length + taskIds.length + 6
  | .start _ => 5
  | .verify taskIds todo _ => todo.length + taskIds.length + 5
  | .waitWal w => w.rounds + 4
  | .appendWal w => w.rounds + 3
  | .apply w => w.rounds + 2
  | .restore _ _ => 1
  | .insertTasks _ todo _ => todo.length + 1
  | .removeTasks todo => todo.length + 1
  -- one round of the loop for each id, as in `Thread.bound`
  | .scanned taskIds => 7 * taskIds.length + 1
  | .done _ => 0

theorem bound_afterLog (w : Work α) : (afterLog w).bound ≤ w.rounds + 2 := by
  cases w <;> simp [afterLog, bound, Work.rounds]

theorem bound_toLog (s : InMemoryStorage α) (w : Work α) :
    (toLog s w).bound ≤ w.rounds + 4 := by
  unfold toLog
  split
  · exact le_rfl
  · exact (bound_afterLog w).trans (by omega)

theorem bound_failLog (e : String) (w : Work α) : (failLog e w).bound ≤ 1 := by
  cases w <;> simp [failLog, bound]

variable {s : InMemoryStorage α} {env : Env} {pc pc' : Pc α} {a : Access α}

/-- A move leaves fewer steps. -/
theorem Move.bound_lt (hm : Move s env pc a pc') (hfin : pc.finished = false)
    (hscan : pc.scans = false) (hscanned : ∀ taskIds, pc ≠ .scanned taskIds) :
    pc'.bound < pc.bound := by
  have hlog : ∀ {w : Work α} {n : ℕ}, w.rounds + 4 < n → (toLog s w).bound < n :=
    fun h => (bound_toLog s _).trans_lt h
  cases hm with
  | @reject c r hr hack => cases c <;> exact Nat.succ_pos _
  | scan => cases hscan
  | createQueue h | queue h | queueBatch h | dequeue h | ack h | nack h | extendVisibility h =>
    exact hlog (by simp [Work.rounds, bound])
  | @dequeueBatch name count items deliveries h hcap hitems hne =>
    -- as many items as were popped, which are no more than were asked for
    have hlen : deliveries.length ≤ count.toNat := by
      rw [← List.length_map (f := Prod.snd), hitems]
      exact List.length_take_le _ _
    refine hlog ?_
    simp only [Work.rounds, bound]
    omega
  | ackBatch => simp [bound]
  | verify =>
    simp only [bound, List.length_cons]
    omega
  | verified =>
    refine hlog ?_
    simp only [Work.rounds, bound, List.length_nil]
    omega
  | unverified => exact Nat.succ_pos _
  | acquire => simp [bound]
  | append h => exact (bound_afterLog _).trans_lt (by simp [bound])
  | appendFails h => exact (bound_failLog _ _).trans_lt (by simp only [bound]; omega)
  | undoDequeue | undoDequeueBatch | undoNack | undoNothing => exact Nat.one_pos
  | beginInsert | beginRemove => simp [bound, Work.rounds]
  | insertTasks | removeTasks => simp [bound]
  | insertedTasks | removedTasks => exact Nat.one_pos
  | scanned => exact absurd rfl (hscanned _)
  | done => cases hfin
  | _ => exact Nat.succ_pos _

end Pc

namespace Thread

/-- The steps left of a thread: those of its call, and seven for each further round of
`cleanup_expired_tasks`. -/
def bound (t : Thread α) : ℕ :=
  t.pc.bound + t.loop.elim 0 fun l => 7 * l.1.length + 1

theorem bound_next (count : ℕ) (taskIds : List String) :
    (next count taskIds : Thread α).bound ≤ 7 * taskIds.length := by
  cases taskIds with
  | nil => exact le_rfl
  | cons id taskIds =>
    simp only [next, bound, Pc.bound, Option.elim, List.length_cons]
    omega

theorem bound_resume (loop : Option (List String × ℕ)) (pc : Pc α) :
    (resume loop pc).bound ≤ (⟨pc, loop⟩ : Thread α).bound := by
  unfold resume
  split
  · refine (bound_next 0 _).trans ?_
    simp only [bound, Pc.bound]
    omega
  · refine (bound_next _ _).trans ?_
    simp only [bound, Pc.bound, Option.elim]
    omega
  · refine (bound_next _ _).trans ?_
    simp only [bound, Pc.bound, Option.elim]
    omega
  · exact le_rfl

/-- A step of a thread leaves fewer steps. -/
theorem bound_step {t : Thread α} (s : InMemoryStorage α) (env : Env)
    (hfin : t.pc.finished = false) (hscan : t.pc.scans = false) :
    (resume t.loop (t.pc.step s env).2).bound < t.bound := by
  by_cases hscanned : ∃ taskIds, t.pc = .scanned taskIds
  · obtain ⟨taskIds, hpc⟩ := hscanned
    have hnext : resume t.loop (t.pc.step s env).2 = next 0 taskIds := by
      rw [hpc]
      rfl
    rw [hnext]
    refine (bound_next 0 taskIds).trans_lt ?_
    simp only [bound, hpc, Pc.bound]
    omega
  · push Not at hscanned
    have hlt := (Pc.move_step s env t.pc).bound_lt hfin hscan hscanned
    exact (bound_resume _ _).trans_lt (Nat.add_lt_add_right hlt _)

end Thread

/-! ### The steps of a request -/

namespace Job

/-- The shards whose entries are still to be read, by `cleanup_expired_tasks` or `get_stats`. -/
def reads (h : Sharding) : Job α → ℕ
  | .fresh (.call (.cleanupExpiredTasks _)) => h.count + 1
  | .fresh (.call _) => 0
  | .fresh .getStats => h.count
  | .call t => if t.pc.scans then 1 else 0
  | .scan _ _ shard _ => h.count - shard
  | .measure _ _ => h.count
  | .queues shard _ _ => h.count - shard
  | .count shard _ _ _ _ _ _ => h.count - shard
  | .stats _ => 0

/-- The steps that are left, as long as no further shard is read. -/
def bound (h : Sharding) : Job α → ℕ
  | .fresh (.call c) => (Pc.start c).bound + 1
  | .fresh .getStats => h.count + 3
  | .call t => t.bound
  | .scan _ _ _ taskIds => 7 * taskIds.length + 1
  | .measure shard _ => h.count - shard + 2
  | .queues _ todo _ => todo.length * (h.count + 3) + 1
  | .count _ _ _ todo _ taskShard _ => h.count - taskShard + 1 + (todo.length * (h.count + 3) + 1)
  | .stats _ => 0

theorem reads_resume (h : Sharding) (loop : Option (List String × ℕ)) {pc : Pc α}
    (hscan : pc.scans = false) : (Job.call (Thread.resume loop pc)).reads h = 0 := by
  have hnext : ∀ (count : ℕ) (taskIds : List String),
      (Job.call (Thread.next count taskIds) : Job α).reads h = 0 := by
    intro count taskIds
    cases taskIds <;> rfl
  unfold Thread.resume
  split
  · exact hnext _ _
  · exact hnext _ _
  · exact hnext _ _
  · simp only [reads, hscan, Bool.false_eq_true, if_false]

theorem scans_step (pc : Pc α) (s : InMemoryStorage α) (env : Env) :
    (pc.step s env).2.scans = false := by
  have hlog : ∀ w : Work α, (Pc.toLog s w).scans = false := by
    intro w
    unfold Pc.toLog
    split
    · rfl
    · cases w <;> rfl
  have hmove := Pc.move_step s env pc
  generalize pc.step s env = x at hmove
  obtain ⟨a, pc'⟩ := x
  cases hmove with
  | append h => rename_i w; cases w <;> rfl
  | appendFails h => rename_i w e; cases w <;> rfl
  | _ => first | rfl | exact hlog _

/-- **A step of a request reads one shard less, or leaves fewer steps.** -/
theorem step_lt (h : Sharding) (s : InMemoryStorage α) (env : Env) {j : Job α}
    (hfin : j.finished = false) :
    (j.step h s env).2.reads h < j.reads h ∨
      (j.step h s env).2.reads h = j.reads h ∧ (j.step h s env).2.bound h < j.bound h := by
  cases j with
  | fresh req =>
    cases req with
    | getStats => exact Or.inr ⟨rfl, by simp [step, begin, bound]⟩
    | call c =>
      cases c with
      | cleanupExpiredTasks timeout =>
        left
        simp only [step, begin]
        split
        · simp [reads, Pc.scans]
        · simp [reads]
      | _ => exact Or.inr ⟨rfl, by simp [step, begin, bound, Thread.call, Thread.bound]⟩
  | call t =>
    have hreads : (Job.call (Thread.resume t.loop (t.pc.step s env).2)).reads h = 0 :=
      reads_resume h _ (scans_step ..)
    cases hscan : t.pc.scans with
    | true =>
      left
      simp only [step, hreads]
      simp [reads, hscan]
    | false =>
      right
      refine ⟨?_, Thread.bound_step s env hfin hscan⟩
      simp only [step, hreads]
      simp [reads, hscan]
  | scan now timeout shard taskIds =>
    simp only [step]
    split
    · left
      simp only [reads]
      omega
    · right
      have hnext := Thread.bound_next (α := α) 0 taskIds
      refine ⟨?_, by simp only [bound]; omega⟩
      have hzero : (Job.call (Thread.next 0 taskIds) : Job α).reads h = 0 := by
        cases taskIds <;> rfl
      rw [hzero]
      simp only [reads]
      omega
  | measure shard total =>
    right
    simp only [step]
    split
    · refine ⟨rfl, ?_⟩
      simp only [bound]
      omega
    · refine ⟨?_, ?_⟩
      · simp [reads]
      · simp [bound]
  | queues shard todo acc =>
    cases todo with
    | nil =>
      simp only [step]
      split
      · left
        simp only [reads]
        omega
      · right
        refine ⟨?_, by simp [bound]⟩
        simp only [reads]
        omega
    | cons p todo =>
      obtain ⟨name, pending⟩ := p
      right
      refine ⟨rfl, ?_⟩
      simp only [step, bound, List.length_cons, Nat.succ_mul]
      omega
  | count shard name pending todo acc taskShard found =>
    right
    simp only [step]
    split
    · refine ⟨rfl, ?_⟩
      simp only [bound]
      omega
    · refine ⟨rfl, ?_⟩
      simp only [bound]
      omega
  | stats acc => cases hfin

end Job

/-- A step of a finished request changes nothing, or is the next round of a loop. -/
theorem Job.step_finished (h : Sharding) (s : InMemoryStorage α) (env : Env) {j : Job α}
    (hfin : j.finished = true) :
    (j.step h s env).2 = j ∨
      (j.step h s env).2.reads h = j.reads h ∧ (j.step h s env).2.bound h < j.bound h := by
  cases j with
  | call t =>
    obtain ⟨pc, loop⟩ := t
    cases pc with
    | done r =>
      have hreads : (Job.call (Thread.resume loop (.done r : Pc α))).reads h = 0 :=
        Job.reads_resume h _ rfl
      have hnext : ∀ (count : ℕ) (taskIds : List String),
          (Thread.next count taskIds : Thread α).bound < 7 * taskIds.length + 1 :=
        fun count taskIds => Nat.lt_succ_of_le (Thread.bound_next count taskIds)
      cases loop with
      | none =>
        left
        cases r <;> rfl
      | some l =>
        obtain ⟨taskIds, count⟩ := l
        cases r with
        | panic => exact Or.inl rfl
        | ok r =>
          refine Or.inr ⟨hreads, ?_⟩
          simpa [Job.step, Pc.step, Thread.resume, Job.bound, Thread.bound, Pc.bound]
            using hnext (count + 1) taskIds
        | err e =>
          refine Or.inr ⟨hreads, ?_⟩
          simpa [Job.step, Pc.step, Thread.resume, Job.bound, Thread.bound, Pc.bound]
            using hnext count taskIds
    | _ => cases hfin
  | stats acc => exact Or.inl rfl
  | _ => cases hfin

/-! ### The steps of the executor -/

/-- A step takes two from the bound; a write that completes takes one. -/
def Fiber.weight (h : Sharding) (f : Fiber α) : ℕ :=
  2 * f.job.bound h + if f.job.appends = true ∧ f.write = none then 1 else 0

namespace Executor

variable {ι : Type} [Fintype ι]

/-- How far a request is from its next step: suspended, on a thread, or stopped at a lock. Who is
suspended and cannot be resumed does not count. -/
def distance (σ : Executor ι α) (i : ι) : ℕ :=
  match σ.place i with
  | .parked => if (σ.job i).finished = false ∧ σ.Ready i then 3 else 0
  | .running => 2
  | .waiting => 1

/-- What is left to be done: shards to be read, steps to be taken, and moves on and off the
threads. -/
def work (h : Sharding) (σ : Executor ι α) : ℕ ×ₗ ℕ ×ₗ ℕ :=
  toLex (∑ i, (σ.fibers i).job.reads h, toLex (∑ i, (σ.fibers i).weight h, ∑ i, σ.distance i))

/-- A request that can go on is not suspended. -/
def Prompt (σ : Executor ι α) (l : ι × Action) : Prop := l.2 = .park → ¬ σ.Ready l.1

variable [DecidableEq ι] {h : Sharding} {W : ℕ} {σ : Executor ι α} {i : ι}

/-- A request that goes on leaves less to be done. -/
theorem work_lt_of_fiber {σ' : Executor ι α} {f : Fiber α}
    (hf : σ'.fibers = Function.update σ.fibers i f)
    (hlt : f.job.reads h < (σ.job i).reads h ∨
      f.job.reads h = (σ.job i).reads h ∧ f.weight h < (σ.fibers i).weight h) :
    σ'.work h < σ.work h := by
  have hsum := System.sum_update_lt (fun f : Fiber α => f.job.reads h) (Fiber.weight h) σ.fibers i
    f hlt
  unfold work
  rw [hf]
  refine Prod.Lex.toLex_lt_toLex.mpr (hsum.imp id fun hw => ⟨hw.1, ?_⟩)
  exact Prod.Lex.toLex_lt_toLex.mpr (Or.inl hw.2)

section Place

variable {σ' : Executor ι α} {f : Fiber α} (hf : σ'.fibers = Function.update σ.fibers i f)
  (hjob : f.job = σ.job i) (hwrite : (σ.job i).appends = true → f.write = σ.write i)

omit [Fintype ι] in
include hf hjob in
theorem job_of_place (j : ι) : σ'.job j = σ.job j := by
  rw [job, hf]
  by_cases hj : j = i
  · rw [hj, Function.update_self, hjob]
  · rw [Function.update_of_ne hj]
    rfl

omit [Fintype ι] in
include hf hjob hwrite in
theorem ready_of_place (j : ι) : σ'.Ready j ↔ σ.Ready j := by
  have hall : σ'.WalFree ↔ σ.WalFree := by simp only [WalFree, job_of_place hf hjob]
  rw [Ready, Ready, job_of_place hf hjob, hall]
  refine and_congr_right fun _ => forall_congr' fun happ => ?_
  rw [write, hf]
  by_cases hj : j = i
  · subst hj
    rw [Function.update_self, hwrite happ]
  · rw [Function.update_of_ne hj]
    rfl

include hf hjob hwrite in
/-- A request that only changes its place leaves less to be done when it comes nearer. -/
theorem work_lt_of_place (hlt : σ'.distance i < σ.distance i) : σ'.work h < σ.work h := by
  have hother : ∀ j, j ≠ i → σ'.distance j = σ.distance j := by
    intro j hj
    have hplace : σ'.place j = σ.place j := by
      rw [place, hf, Function.update_of_ne hj]
      rfl
    simp only [distance, job_of_place hf hjob, ready_of_place hf hjob hwrite, hplace]
  have hreads : ∀ j, (σ'.fibers j).job.reads h = (σ.fibers j).job.reads h :=
    fun j => congrArg (Job.reads h) (job_of_place hf hjob j)
  have hweight : ∀ j, (σ'.fibers j).weight h = (σ.fibers j).weight h := by
    intro j
    rw [hf]
    by_cases hj : j = i
    · subst hj
      rw [Function.update_self]
      have hjob' : f.job = (σ.fibers j).job := hjob
      rw [Fiber.weight, Fiber.weight, hjob']
      cases happ : (σ.fibers j).job.appends with
      | false => rfl
      | true => rw [hwrite happ, write]
    · rw [Function.update_of_ne hj]
  unfold work
  simp only [hreads, hweight]
  refine Prod.Lex.toLex_lt_toLex.mpr (Or.inr ⟨rfl, Prod.Lex.toLex_lt_toLex.mpr
    (Or.inr ⟨rfl, Finset.sum_lt_sum (fun j _ => ?_) ⟨i, Finset.mem_univ i, hlt⟩⟩)⟩)
  by_cases hj : j = i
  · rw [hj]
    exact hlt.le
  · exact (hother j hj).le

include hf in
omit [Fintype ι] in
theorem place_of_update : σ'.place i = f.place := by
  rw [place, hf, Function.update_self]

end Place

/-- **Every prompt step leaves less to be done.** -/
theorem work_step {σ' : Executor ι α} {l : ι × Action} (hp : σ.Prompt l)
    (hs : (machine ι α h W).step σ l = some σ') : σ'.work h < σ.work h := by
  obtain ⟨i, a⟩ := l
  obtain ⟨he, hσ⟩ := Option.ite_none_right_eq_some.mp hs
  cases hσ
  have hset : ∀ p, (σ.setPlace i p).distance i < σ.distance i →
      (σ.setPlace i p).work h < σ.work h :=
    fun p => work_lt_of_place rfl rfl fun _ => rfl
  cases a with
  | resume =>
    obtain ⟨hplace, hfin, -, hr⟩ := he
    refine hset .running ?_
    rw [distance, distance, place_setPlace_self, hplace]
    simp only [hfin, hr, and_self, if_true]
    omega
  | park =>
    obtain ⟨hplace, -⟩ := he
    have hr : ¬ (σ.setPlace i .parked).Ready i := by
      have hf : (σ.setPlace i .parked).fibers
          = Function.update σ.fibers i { σ.fibers i with place := .parked } := rfl
      rw [ready_of_place hf rfl fun _ => rfl]
      exact hp rfl
    refine hset .parked ?_
    rw [distance, distance, place_setPlace_self, hplace]
    simp only [hr, and_false, if_false]
    omega
  | wait =>
    obtain ⟨hplace, -⟩ := he
    refine hset .waiting ?_
    rw [distance, distance, place_setPlace_self, hplace]
    simp only
    omega
  | complete r =>
    obtain ⟨happ, hwrite⟩ := he
    refine work_lt_of_fiber (f := { σ.fibers i with write := some r }) rfl (Or.inr ⟨rfl, ?_⟩)
    have hnone : (σ.fibers i).write = none := hwrite
    have happ' : (σ.fibers i).job.appends = true := happ
    simp only [Fiber.weight, hnone, happ', and_self, if_true, reduceCtorEq, and_false, if_false]
    omega
  | run env =>
    obtain ⟨hplace, -, -⟩ := he
    have hfiber : (σ.runAt h i env).fibers = Function.update σ.fibers i
        ⟨σ.next h i env, if (σ.next h i env).finished then .parked else .running, none⟩ := rfl
    have hless : (σ.next h i env).reads h < (σ.job i).reads h ∨
        (σ.next h i env).reads h = (σ.job i).reads h ∧
          (σ.next h i env).bound h < (σ.job i).bound h →
        (σ.runAt h i env).work h < σ.work h := by
      intro hlt
      refine work_lt_of_fiber hfiber (hlt.imp id fun hb => ⟨hb.1, ?_⟩)
      have hbound : (σ.next h i env).bound h < (σ.fibers i).job.bound h := hb.2
      simp only [Fiber.weight]
      split <;> split <;> omega
    cases hfin : (σ.job i).finished with
    | false => exact hless (Job.step_lt h _ _ hfin)
    | true =>
      rcases Job.step_finished h σ.store { env with append := (σ.write i).getD env.append } hfin
        with hsame | hlt
      · -- a finished request leaves its thread
        have hjob : σ.next h i env = σ.job i := hsame
        have happ : (σ.job i).appends = false := by
          cases happ : (σ.job i).appends with
          | false => rfl
          | true =>
            rw [Job.not_finished_of_appends happ] at hfin
            cases hfin
        refine work_lt_of_place hfiber hjob (fun h' => by rw [happ] at h'; cases h') ?_
        change (σ.runAt h i env).distance i < σ.distance i
        rw [distance, place_of_update hfiber, job_of_place hfiber hjob]
        simp only [hjob, hfin, if_true, Bool.true_eq_false, false_and, if_false]
        rw [distance]
        cases hp : σ.place i with
        | parked => exact absurd hp hplace
        | running => exact Nat.succ_pos _
        | waiting => exact Nat.succ_pos _
      · exact hless (Or.inr hlt)

/-- Where something can happen, something can happen promptly. -/
theorem exists_prompt (hs : ∃ l, ((machine ι α h W).step σ l).isSome) :
    ∃ l, σ.Prompt l ∧ ((machine ι α h W).step σ l).isSome := by
  obtain ⟨⟨i, a⟩, hl⟩ := hs
  by_cases hp : σ.Prompt (i, a)
  · exact ⟨(i, a), hp, hl⟩
  -- a request that is suspended too early takes its step instead
  obtain ⟨hpark, hready⟩ := Classical.not_imp.mp hp
  obtain rfl : a = .park := hpark
  have hr : σ.Ready i := not_not.mp hready
  obtain ⟨σ', hσ'⟩ := Option.isSome_iff_exists.mp hl
  obtain ⟨⟨hplace, hawait⟩, -⟩ := Option.ite_none_right_eq_some.mp hσ'
  have hwal : (σ.job i).waitsWal = true := by
    rcases hawait with hwal | ⟨happ, hwrite⟩
    · exact hwal
    · exact absurd hwrite (hr.2 happ)
  have he : σ.Enabled h W i (.run (Env.quiet [])) := by
    refine ⟨by rw [hplace]; nofun, ?_, hr⟩
    rintro j ⟨-, w, hw, -⟩
    rw [Job.wanted_of_waitsWal hwal] at hw
    cases hw
  refine ⟨(i, .run (Env.quiet [])), nofun, ?_⟩
  change (if σ.Enabled h W i (.run (Env.quiet [])) then some _ else none).isSome
  rw [if_pos he]
  rfl

/-- **Requests come to an end.** On any number of threads and in any order, the prompt steps of an
executor are finitely many; and where a careful run has come to a state in which none is left, all
requests are finished. -/
theorem requests_end (h : Sharding) (hW : 0 < W) (s : InMemoryStorage α)
    (requests : ι → Request α) :
    (machine ι α h W).Ends Prompt ∧
      ∀ σ, (machine ι α h W).Reach (fun σ l => Careful h W σ l ∧ σ.Prompt l)
          (start s requests) σ →
        (∀ l, σ.Prompt l → (machine ι α h W).step σ l = none) →
        ∀ i, (σ.job i).finished = true := by
  refine ⟨System.Ends.of_measure (work h) fun σ l σ' hp hs => work_step hp hs,
    fun σ hr hrest i => ?_⟩
  by_contra hi
  have hlive := live_run hW (hr.mono fun _ _ hok => hok.1)
  obtain ⟨l, hp, hl⟩ := exists_prompt (hlive ⟨i, Bool.eq_false_iff.mpr hi⟩)
  rw [hrest l hp] at hl
  cases hl

/-- Two deliveries from one queue and a `get_stats`, on two threads. -/
theorem requests_end_deliveries :
    let requests : Fin 3 → Request Bytes :=
      ![.call (.dequeue "jobs"), .call (.dequeueBatch "jobs" 2), .getStats]
    (machine (Fin 3) Bytes oneLock 2).Ends Prompt ∧
      ∀ σ, (machine (Fin 3) Bytes oneLock 2).Reach (fun σ l => Careful oneLock 2 σ l ∧ σ.Prompt l)
          (start jobs requests) σ →
        (∀ l, σ.Prompt l → (machine (Fin 3) Bytes oneLock 2).step σ l = none) →
        ∀ i, (σ.job i).finished = true :=
  requests_end oneLock Nat.two_pos jobs _

end Executor

end Oxideq
