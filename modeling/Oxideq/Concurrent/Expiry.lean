import Oxideq.Concurrent.Turns
import Oxideq.Sequential.Heartbeat

/-!
# What a cleanup returns

`cleanup_expired_tasks` scans the in-flight table once, and then returns one task after the other.
Between the scan and the return of a task other calls go on, and a heartbeat may be answered: the
task is not expired any more, and is returned all the same.

Here the interleaved store is watched by a clock (`Config.timed`), which shows the reading of the
last step. A step that takes a task away for a cleanup should find it expired
(`Config.TakesExpired`). It does as long as no heartbeat is applied to a task that a cleanup has
reported and not reached (`Config.takesExpired`).

The invariant is about two places where a reported task can be (`Config.Watching`): the in-flight
table, and the hands of a `nack` whose append is not over and may fail. In both its clock is older
than the timeout. It gets there by the scan, moves between the two, and new tasks come under other
ids.
-/

namespace Oxideq

variable {ι α : Type}

/-! ### Ids in the steps of a call -/

/-- A cleanup of expired tasks. -/
def Call.isCleanup : Call α → Bool
  | .cleanupExpiredTasks _ => true
  | _ => false

/-- The timeout of a cleanup, as its scan reads it. -/
def Call.timeout : Call α → Option Int
  | .cleanupExpiredTasks timeoutSeconds => InMemoryStorage.expiryTimeout timeoutSeconds
  | _ => none

namespace Pc

/-- The task that the next step takes out of flight to return it. -/
def takes : Pc α → Option String
  | .start (.nack taskId) => some taskId
  | _ => none

/-- The id under which the next step files a task that is handed out. -/
def files : Pc α → Option String
  | .apply (.dequeue _ _ taskId) => some taskId
  | .insertTasks _ ((taskId, _) :: _) _ => some taskId
  | _ => none

/-- The id of the task to which the next step applies a heartbeat. -/
def renews : Pc α → Option String
  | .apply (.extendVisibility taskId _) => some taskId
  | _ => none

/-- The id of a task that was taken out of the table and may be put back. -/
def withdraws (pc : Pc α) : Option String :=
  match pc.phase with
  | .unlogged (.nack taskId _) => some taskId
  | _ => none

theorem withdraws_eq {pc : Pc α} {id : String} {task : InFlightTask α}
    (h : pc.phase = .unlogged (.nack id task)) : pc.withdraws = some id := by
  rw [withdraws, h]

end Pc

/-- The ids that the loop of a cleanup has not reached. -/
def Thread.reported (t : Thread α) : List String :=
  t.pc.takes.toList ++ (t.loop.map Prod.fst).getD []

/-- A task is in the table because it was there, or was filed by this access. -/
theorem Access.lookup_run {s : InMemoryStorage α} {env : Env} {a : Access α} {id : String}
    {task : InFlightTask α} (h : (a.run s env).inFlight.lookup id = some task) :
    s.inFlight.lookup id = some task ∨ a = .insertTask id task := by
  cases a with
  | insertTask id' task' =>
    change (s.inFlight.insert id' task').lookup id = some task at h
    by_cases hid : id = id'
    · rw [hid, Finmap.lookup_insert] at h
      rw [hid, Option.some.inj h]
      exact Or.inr rfl
    · rw [Finmap.lookup_insert_of_ne _ hid] at h
      exact Or.inl h
  | dropTask id' =>
    change (s.inFlight.erase id').lookup id = some task at h
    by_cases hid : id = id'
    · rw [hid, Finmap.lookup_erase] at h
      cases h
    · rw [Finmap.lookup_erase_ne hid] at h
      exact Or.inl h
  | look => exact Or.inl h
  | log op => exact Or.inl h
  | insertQueue name => exact Or.inl h
  | pushBack name items => exact Or.inl h
  | pushFront name items => exact Or.inl h
  | pop name count => exact Or.inl h

namespace Pc

variable {s : InMemoryStorage α} {env : Env} {pc pc' : Pc α} {a : Access α} {id : String}
  {task : InFlightTask α}

/-- Who files a task: a `nack` that puts it back, a delivery, or a heartbeat. -/
theorem Move.insertTask_cases (hm : Move s env pc (.insertTask id task) pc') :
    (pc.phase = .unlogged (.nack id task) ∧ pc'.phase = .idle) ∨ pc.files = some id ∨
      (pc.renews = some id ∧ id ∈ s.inFlight) := by
  cases hm with
  | undoNack => exact Or.inl ⟨rfl, rfl⟩
  | insertTask => exact Or.inr (Or.inl rfl)
  | insertTasks => exact Or.inr (Or.inl rfl)
  | touch h => exact Or.inr (Or.inr ⟨rfl, Finmap.mem_iff.mpr ⟨_, h⟩⟩)

/-- A `nack` has a task in hand because it had it before, or because this step takes it. -/
theorem Move.withdrawn_cases (hm : Move s env pc a pc')
    (h : pc'.phase = .unlogged (.nack id task)) :
    pc.phase = .unlogged (.nack id task) ∨
      (pc = .start (.nack id) ∧ s.inFlight.lookup id = some task ∧ a = .dropTask id) := by
  -- the work a call begins with is its own
  have hbegin : ∀ {w : Work α}, (toLog s w).phase = .unlogged (.nack id task) →
      w = .nack id task := by
    intro w hw
    rw [phase_toLog] at hw
    split at hw
    · injection hw
    · cases hw
  cases hm with
  | nack hl =>
    have hw := hbegin h
    cases hw
    exact Or.inr ⟨rfl, hl, rfl⟩
  | createQueue hq => cases hbegin h
  | queue hq => cases hbegin h
  | queueBatch hq => cases hbegin h
  | dequeue hq => cases hbegin h
  | dequeueBatch hq hcap hitems hne => cases hbegin h
  | ack hl => cases hbegin h
  | extendVisibility hl => cases hbegin h
  | verified => cases hbegin h
  | acquire => exact Or.inl h
  | append happ =>
    rw [phase_afterLog] at h
    cases h
  | @appendFails w e happ =>
    obtain hf | ⟨-, e', hf⟩ := failLog_cases e w
    · rw [hf] at h
      exact Or.inl h
    · rw [hf] at h
      cases h
  | _ => cases h

/-- Where a move leaves a call without work. -/
theorem Move.idle_cases (hm : Move s env pc a pc') (h : pc'.phase = .idle) :
    (∃ r, pc' = .done r) ∨ (∃ taskIds todo missing, pc' = .verify taskIds todo missing) ∨
      ∃ taskIds, pc' = .scanned taskIds ∧
        ((∃ t, pc = .start (.cleanupExpiredTasks t)) ∨ pc = .scanned taskIds) := by
  have hbegin : ∀ {w : Work α}, (toLog s w).phase ≠ .idle := by
    intro w hw
    rw [phase_toLog] at hw
    split at hw <;> cases hw
  cases hm with
  | createQueue hq => exact absurd h hbegin
  | queue hq => exact absurd h hbegin
  | queueBatch hq => exact absurd h hbegin
  | dequeue hq => exact absurd h hbegin
  | dequeueBatch hq hcap hitems hne => exact absurd h hbegin
  | ack hl => exact absurd h hbegin
  | nack hl => exact absurd h hbegin
  | extendVisibility hl => exact absurd h hbegin
  | verified => exact absurd h hbegin
  | scan => exact Or.inr (Or.inr ⟨_, rfl, Or.inl ⟨_, rfl⟩⟩)
  | scanned => exact Or.inr (Or.inr ⟨_, rfl, Or.inr rfl⟩)
  | ackBatch => exact Or.inr (Or.inl ⟨_, _, _, rfl⟩)
  | verify => exact Or.inr (Or.inl ⟨_, _, _, rfl⟩)
  | append happ =>
    rw [phase_afterLog] at h
    cases h
  | @appendFails w e happ =>
    obtain hf | ⟨-, e', hf⟩ := failLog_cases e w
    · rw [hf] at h
      cases h
    · rw [hf]
      exact Or.inl ⟨_, rfl⟩
  | acquire => cases h
  | beginInsert => cases h
  | beginRemove => cases h
  | insertTasks => cases h
  | removeTasks => cases h
  | _ => exact Or.inl ⟨_, rfl⟩

/-- A move does not end where a call begins. -/
theorem Move.ne_start (hm : Move s env pc a pc') (c : Call α) : pc' ≠ .start c := by
  rintro rfl
  rcases hm.idle_cases rfl with ⟨r, hr⟩ | ⟨_, _, _, hv⟩ | ⟨ids, hs, -⟩
  · cases hr
  · cases hv
  · cases hs

/-- Behind a scan. -/
theorem Move.of_scanned {taskIds : List String} (hm : Move s env pc a (.scanned taskIds)) :
    (∃ t, pc = .start (.cleanupExpiredTasks t)) ∨ pc = .scanned taskIds := by
  rcases hm.idle_cases rfl with ⟨r, hr⟩ | ⟨_, _, _, hv⟩ | ⟨ids, hs, hpc⟩
  · cases hr
  · cases hv
  · cases hs
    exact hpc

end Pc

/-! ### The ids a cleanup has left -/

namespace Thread

variable {loop : Option (List String × ℕ)} {pc : Pc α} {id : String}

theorem reported_next (count : ℕ) (ids : List String) :
    (next count ids : Thread α).reported = ids := by
  cases ids <;> rfl

/-- The ids that are left behind the head of the loop. -/
theorem mem_reported_of_loop {t : Thread α} {ids : List String} {count : ℕ}
    (hl : t.loop = some (ids, count)) (hid : id ∈ ids) : id ∈ t.reported := by
  rw [reported, hl]
  exact List.mem_append_right _ hid

/-- Where a thread goes on it has left what a scan has just found, or what it had left before. -/
theorem mem_reported_resume (hpc : ∀ c, pc ≠ .start c) (h : id ∈ (resume loop pc).reported) :
    (∃ ids, pc = .scanned ids ∧ id ∈ ids) ∨ ∃ ids count, loop = some (ids, count) ∧ id ∈ ids := by
  unfold resume at h
  split at h
  · rw [reported_next] at h
    exact Or.inl ⟨_, rfl, h⟩
  · rw [reported_next] at h
    exact Or.inr ⟨_, _, rfl, h⟩
  · rw [reported_next] at h
    exact Or.inr ⟨_, _, rfl, h⟩
  · have htakes : pc.takes = none := by
      unfold Pc.takes
      split
      · exact absurd rfl (hpc _)
      · rfl
    change id ∈ pc.takes.toList ++ (loop.map Prod.fst).getD [] at h
    rw [htakes] at h
    cases loop with
    | none => exact absurd h List.not_mem_nil
    | some l => exact Or.inr ⟨l.1, l.2, rfl, h⟩

/-- No thread rests behind its scan. -/
theorem resume_ne_scanned (ids : List String) : (resume loop pc).pc ≠ .scanned ids := by
  have hnext : ∀ (count : ℕ) (left : List String),
      (next count left : Thread α).pc ≠ .scanned ids := by
    intro count left
    cases left <;> simp [next]
  unfold resume
  split
  · exact hnext _ _
  · exact hnext _ _
  · exact hnext _ _
  · next hne _ _ => exact hne ids

end Thread

namespace Config

variable [Fintype ι] [DecidableEq ι]

/-- The interleaved store with a clock, which shows the reading of the last step. -/
def timed (ι α : Type) [Fintype ι] [DecidableEq ι] : System (Config ι α × Int) (ι × Env) :=
  (machine ι α).recording fun _ l _ => l.2.now 0

/-- A cleanup has reported the task and not reached it. -/
def Reported (calls : ι → Call α) (σ : Config ι α) (id : String) : Prop :=
  ∃ i, (calls i).isCleanup = true ∧ id ∈ (σ.threads i).reported

instance (calls : ι → Call α) (σ : Config ι α) (id : String) : Decidable (Reported calls σ id) :=
  inferInstanceAs (Decidable (∃ _, _))

/-- The clock does not go back, and no task is handed out under an id that a cleanup has left, or
that a `nack` may still put back. -/
def Regular (calls : ι → Call α) (s : Config ι α × Int) (l : ι × Env) : Prop :=
  s.2 ≤ l.2.now 0 ∧
    ∀ id ∈ (s.1.pc l.1).files, ¬ Reported calls s.1 id ∧ ∀ i, (s.1.pc i).withdraws ≠ some id

instance (calls : ι → Call α) (s : Config ι α × Int) (l : ι × Env) :
    Decidable (Regular calls s l) :=
  inferInstanceAs (Decidable (_ ∧ ∀ _ ∈ (s.1.pc l.1).files, _))

/-- No heartbeat is applied to a task that a cleanup has reported and not reached. -/
def NoLateHeartbeat (calls : ι → Call α) (s : Config ι α × Int) (l : ι × Env) : Prop :=
  ∀ id ∈ (s.1.pc l.1).renews, ¬ Reported calls s.1 id

instance (calls : ι → Call α) (s : Config ι α × Int) (l : ι × Env) :
    Decidable (NoLateHeartbeat calls s l) :=
  inferInstanceAs (Decidable (∀ _ ∈ (s.1.pc l.1).renews, _))

/-- A task that the step takes out of flight for a cleanup has been in flight, without a heartbeat,
for longer than the timeout. -/
def TakesExpired (calls : ι → Call α) (s : Config ι α × Int) (l : ι × Env) : Prop :=
  ∀ timeout ∈ (calls l.1).timeout, ∀ id ∈ (s.1.pc l.1).takes,
    ∀ task ∈ s.1.store.inFlight.lookup id, timeout < l.2.now 0 - task.consumedAt

instance (calls : ι → Call α) (s : Config ι α × Int) (l : ι × Env) :
    Decidable (TakesExpired calls s l) :=
  inferInstanceAs (Decidable (∀ _ ∈ (calls l.1).timeout, _))

/-- The task is in the table, or in the hands of a `nack`. -/
def Present (σ : Config ι α) (id : String) (task : InFlightTask α) : Prop :=
  σ.store.inFlight.lookup id = some task ∨ ∃ i, σ.phases i = .unlogged (.nack id task)

/-- What was reported is expired as long as it is there, and no task is there twice. -/
structure Watching (calls : ι → Call α) (s : Config ι α × Int) : Prop where
  serving : Serving calls s.1
  awake : ∀ i ids, s.1.pc i ≠ .scanned ids
  expired : ∀ {i timeout id task}, (calls i).timeout = some timeout →
    id ∈ (s.1.threads i).reported → s.1.Present id task → timeout < s.2 - task.consumedAt
  absent : ∀ {i id task}, s.1.phases i = .unlogged (.nack id task) → id ∉ s.1.store.inFlight
  unique : ∀ {i j id task task'}, s.1.phases i = .unlogged (.nack id task) →
    s.1.phases j = .unlogged (.nack id task') → i = j

section Steps

variable {calls : ι → Call α} {s s' : Config ι α × Int} {i : ι} {env : Env} {a : Access α}
  {pc' : Pc α} {id : String} {task : InFlightTask α}

omit [Fintype ι] in
/-- A task in the hands of a thread after a step. -/
theorem StepOf.withdrawn {σ σ' : Config ι α} (h : StepOf σ i env σ' a pc') {j : ι}
    (hj : σ'.phases j = .unlogged (.nack id task)) :
    σ.phases j = .unlogged (.nack id task) ∨
      (j = i ∧ σ.store.inFlight.lookup id = some task ∧ a = .dropTask id) := by
  rw [h.phases] at hj
  by_cases hji : j = i
  · subst hji
    rw [Function.update_self] at hj
    rcases h.move.withdrawn_cases hj with hold | ⟨-, hl, ha⟩
    · exact Or.inl hold
    · exact Or.inr ⟨rfl, hl, ha⟩
  · rw [Function.update_of_ne hji] at hj
    exact Or.inl hj

omit [Fintype ι] in
/-- A reported task that is there after a step was there before. -/
theorem present_of_step (hr : Regular calls s (i, env))
    (hn : NoLateHeartbeat calls s (i, env)) (hstep : StepOf s.1 i env s'.1 a pc')
    (hid : Reported calls s.1 id) (hp : s'.1.Present id task) : s.1.Present id task := by
  rcases hp with hl | ⟨j, hj⟩
  · rw [hstep.store] at hl
    rcases Access.lookup_run hl with hl | rfl
    · exact Or.inl hl
    -- A task that is filed by this step was in hand before it; neither a delivery nor a heartbeat
    -- files a reported one.
    rcases hstep.move.insertTask_cases with ⟨hphase, -⟩ | hfiles | ⟨hrenews, -⟩
    · exact Or.inr ⟨i, hphase⟩
    · exact absurd hid (hr.2 id hfiles).1
    · exact absurd hid (hn id hrenews)
  · rcases hstep.withdrawn hj with hold | ⟨-, hl, -⟩
    · exact Or.inr ⟨j, hold⟩
    · exact Or.inl hl

omit [Fintype ι] in
/-- A task in the hands of a `nack` is not in the table. -/
theorem Watching.absent_step (h : Watching calls s) (hr : Regular calls s (i, env))
    (hstep : StepOf s.1 i env s'.1 a pc') {j : ι}
    (hj : s'.1.phases j = .unlogged (.nack id task)) : id ∉ s'.1.store.inFlight := by
  intro hmem
  obtain ⟨task', hl⟩ := Finmap.mem_iff.mp hmem
  rw [hstep.store] at hl
  rcases hstep.withdrawn hj with hold | ⟨rfl, -, rfl⟩
  · have hout := h.absent hold
    rcases Access.lookup_run hl with hl | rfl
    · exact hout (Finmap.mem_iff.mpr ⟨_, hl⟩)
    rcases hstep.move.insertTask_cases with ⟨hphase, hidle⟩ | hfiles | ⟨-, hin⟩
    · -- the thread that puts it back has nothing in hand any more
      have hij : i = j := h.unique hphase hold
      rw [hstep.phases, hij, Function.update_self, hidle] at hj
      cases hj
    · exact (hr.2 id hfiles).2 j (Pc.withdraws_eq hold)
    · exact hout hin
  · change (s.1.store.inFlight.erase id).lookup id = some task' at hl
    rw [Finmap.lookup_erase] at hl
    cases hl

omit [Fintype ι] in
theorem Watching.unique_step (h : Watching calls s) (hstep : StepOf s.1 i env s'.1 a pc')
    {j k : ι} {task' : InFlightTask α} (hj : s'.1.phases j = .unlogged (.nack id task))
    (hk : s'.1.phases k = .unlogged (.nack id task')) : j = k := by
  rcases hstep.withdrawn hj with hj | ⟨rfl, hl, -⟩
  · rcases hstep.withdrawn hk with hk | ⟨rfl, hl, -⟩
    · exact h.unique hj hk
    · exact absurd (Finmap.mem_iff.mpr ⟨_, hl⟩) (h.absent hj)
  · rcases hstep.withdrawn hk with hk | ⟨rfl, -, -⟩
    · exact absurd (Finmap.mem_iff.mpr ⟨_, hl⟩) (h.absent hk)
    · rfl

omit [Fintype ι] in
/-- What a scan reports is expired, and stays so. -/
theorem Watching.scanned (h : Watching calls s) (hstep : StepOf s.1 i env s'.1 a pc')
    {timeoutSeconds : UInt64} {timeout : Int} {ids : List String}
    (ht : InMemoryStorage.expiryTimeout timeoutSeconds = some timeout)
    (hpc : s.1.pc i = .start (.cleanupExpiredTasks timeoutSeconds)) (hpc' : pc' = .scanned ids)
    (hid : id ∈ ids) (hp : s'.1.Present id task) :
    timeout < env.now 0 - task.consumedAt := by
  have heq := hstep.eq
  rw [hpc, Pc.step, Pc.begin] at heq
  cases hscan : s.1.store.scanExpiredTasks env timeoutSeconds with
  | ok found =>
    rw [hscan] at heq
    obtain ⟨rfl, rfl⟩ := Prod.mk.inj heq
    cases hpc'
    obtain ⟨timeout', task', ht', hl', hlt⟩ := InMemoryStorage.expired_of_scan hscan hid
    rw [ht] at ht'
    cases ht'
    -- the task is the one in the table: a `nack` has none that is there
    have hsame : task = task' := by
      rcases hp with hl | ⟨j, hj⟩
      · rw [hstep.store, Access.run_look, hl'] at hl
        exact (Option.some.inj hl).symm
      · rcases hstep.withdrawn hj with hold | ⟨-, -, ha⟩
        · exact absurd (Finmap.mem_iff.mpr ⟨_, hl'⟩) (h.absent hold)
        · cases ha
    rw [hsame]
    exact hlt
  | err e =>
    rw [hscan] at heq
    obtain ⟨-, rfl⟩ := Prod.mk.inj heq
    cases hpc'
  | panic =>
    rw [hscan] at heq
    obtain ⟨-, rfl⟩ := Prod.mk.inj heq
    cases hpc'

/-- **Cleanups watch what they have reported.** -/
theorem Watching.step {l : ι × Env} (h : Watching calls s) (hr : Regular calls s l)
    (hn : NoLateHeartbeat calls s l) (hs : (timed ι α).step s l = some s') :
    Watching calls s' := by
  obtain ⟨i, env⟩ := l
  obtain ⟨hmachine, htime⟩ := System.recording_step.mp hs
  obtain ⟨-, a, pc', hstep⟩ := machine_step hmachine
  refine ⟨hstep.serving h.serving, fun j ids => ?_, ?_, fun hj => h.absent_step hr hstep hj,
    fun hj hk => h.unique_step hstep hj hk⟩
  · rw [pc, hstep.threads]
    by_cases hji : j = i
    · rw [hji, Function.update_self]
      exact Thread.resume_ne_scanned ids
    · rw [Function.update_of_ne hji]
      exact h.awake j ids
  intro j timeout id task ht hid hp
  rw [htime]
  obtain ⟨timeoutSeconds, hc⟩ : ∃ t, calls j = .cleanupExpiredTasks t := by
    cases hcall : calls j with
    | cleanupExpiredTasks t => exact ⟨t, rfl⟩
    | _ =>
      rw [hcall] at ht
      cases ht
  -- an id that was left before
  have hold : id ∈ (s.1.threads j).reported → timeout < env.now 0 - task.consumedAt := by
    intro hid
    have hreported : Reported calls s.1 id := ⟨j, by rw [hc]; rfl, hid⟩
    have hlt := h.expired ht hid (present_of_step hr hn hstep hreported hp)
    have hle : s.2 ≤ env.now 0 := hr.1
    omega
  rw [hstep.threads] at hid
  by_cases hji : j = i
  · subst hji
    rw [Function.update_self] at hid
    rcases Thread.mem_reported_resume (fun c => hstep.move.ne_start c) hid with
      ⟨ids, hpc', hid⟩ | ⟨ids, count, hloop, hid⟩
    · have hmove := hstep.move
      rw [hpc'] at hmove
      rcases hmove.of_scanned with ⟨t, hpc⟩ | hrest
      · have hserves := (h.serving j).pc
        rw [show (s.1.threads j).pc = .start (.cleanupExpiredTasks t) from hpc] at hserves
        have hcall := hserves.eq_of_start (by simp)
        rw [hc] at hcall
        cases hcall
        rw [hc] at ht
        exact h.scanned hstep ht hpc hpc' hid hp
      · exact absurd hrest (h.awake j ids)
    · exact hold (Thread.mem_reported_of_loop hloop hid)
  · rw [Function.update_of_ne hji] at hid
    exact hold hid

end Steps

omit [Fintype ι] [DecidableEq ι] in
theorem watching_start (calls : ι → Call α) (s : InMemoryStorage α) (now : Int) :
    Watching calls (start s calls, now) := by
  refine ⟨serving_start s calls, fun i ids h => ?_, fun {i timeout id task} ht hid => ?_,
    fun {i id task} h => ?_, fun {i j id task task'} h => ?_⟩
  · cases h
  · -- a cleanup has not begun, and has no ids
    change id ∈ (Thread.call (calls i)).reported at hid
    cases hcall : calls i with
    | cleanupExpiredTasks t =>
      rw [hcall] at hid
      exact absurd hid List.not_mem_nil
    | _ =>
      rw [hcall] at ht
      cases ht
  · cases h
  · cases h

/-- **Cleanups return what is expired**, in every run in which no heartbeat is applied to a task
that a cleanup has reported and not reached. -/
theorem takesExpired_of_reach {calls : ι → Call α} {s₀ : InMemoryStorage α} {now : Int}
    {s : Config ι α × Int}
    (h : (timed ι α).Reach (fun s l => Regular calls s l ∧ NoLateHeartbeat calls s l)
      (start s₀ calls, now) s) {l : ι × Env} (hl : Regular calls s l) :
    TakesExpired calls s l := by
  have hw : Watching calls s := h.invariant (Watching calls) (watching_start calls s₀ now)
    fun s l s' hw hok hs => hw.step hok.1 hok.2 hs
  intro timeout ht id hid task hlookup
  have hreported : id ∈ (s.1.threads l.1).reported :=
    List.mem_append_left _ (Option.mem_toList.mpr hid)
  have hlt := hw.expired ht hreported (Or.inl hlookup)
  have hle : s.2 ≤ l.2.now 0 := hl.1
  omega

/-! ### A late heartbeat

A task that was handed out at time zero, a cleanup with a timeout of half a minute, and a heartbeat.
The cleanup scans after 31 seconds, then the heartbeat is applied, and then the task is taken. -/

def lateCalls : Fin 2 → Call Bytes := ![.cleanupExpiredTasks 30, .extendVisibility "t" 60]

/-- 31 seconds. -/
def late : Env := Heartbeat.late 31

theorem exists_not_takesExpired : ∃ s, (timed (Fin 2) Bytes).Reach (Regular lateCalls)
    (start Heartbeat.held lateCalls, 0) s ∧
      (Regular lateCalls s (0, late) ∧ ¬ TakesExpired lateCalls s (0, late)) :=
  System.Reach.exists_of_run _ _ _
    (fun s => Regular lateCalls s (0, late) ∧ ¬ TakesExpired lateCalls s (0, late))
    [(0, late), (1, late), (1, late)] (by decide +kernel)

/-- A cleanup that scans, and takes the task when the heartbeat was not sent. -/
theorem exists_takes : ∃ s, (timed (Fin 2) Bytes).Reach
    (fun s l => Regular lateCalls s l ∧ NoLateHeartbeat lateCalls s l)
    (start Heartbeat.held lateCalls, 0) s ∧
      (Regular lateCalls s (0, late) ∧ (s.1.pc 0).takes = some "t" ∧
        s.1.store.inFlight.lookup "t" = some Heartbeat.task) :=
  System.Reach.exists_of_run _ _ _
    (fun s => Regular lateCalls s (0, late) ∧ (s.1.pc 0).takes = some "t" ∧
      s.1.store.inFlight.lookup "t" = some Heartbeat.task)
    [(0, late)] (by decide +kernel)

end Config

end Oxideq
