import Oxideq.Concurrent.Expiry

/-!
# What a cleanup leaves

The other half of `Oxideq.Concurrent.Expiry`: there, a cleanup returns nothing that is not expired;
here, it leaves nothing that is. A pass scans at one moment and returns what it has found one task
after the other, while other calls deliver, acknowledge, return and extend. When it is over, every
task in flight was stamped since the scan, or was not older than the timeout then
(`Config.swept_of_reach`). So a task that nobody looks after is back in a queue as soon as a pass
that scanned late enough has ended, however busy the store is.

The invariant is about one pass (`Config.Sweeping`): a task that was expired at the scan, and has
the stamp it had then, is still to be returned by it. It leaves the list only when the pass takes it
out of the table. A `nack` whose append fails puts a task back with its old stamp, so the appends of
`Nack` entries have to succeed; those of other entries need not.
-/

namespace Oxideq

variable {ι α : Type}

namespace Pc

variable {s : InMemoryStorage α} {env : Env} {pc pc' : Pc α} {a : Access α} {id : String}
  {task : InFlightTask α}

/-- A task that is filed is one that a `nack` puts back, or is stamped now. -/
theorem Move.stamp (hm : Move s env pc (.insertTask id task) pc') :
    (∃ e, pc = .restore (.nack id task) e) ∨ task.consumedAt = env.now 0 := by
  cases hm with
  | undoNack => exact Or.inl ⟨_, rfl⟩
  | insertTask => exact Or.inr rfl
  | insertTasks => exact Or.inr rfl
  | touch h => exact Or.inr rfl

/-- A `nack` that begins leaves no task under its id. -/
theorem lookup_of_takes (h : pc.takes = some id) :
    ((pc.step s env).1.run s env).inFlight.lookup id = none := by
  unfold takes at h
  split at h
  · cases h
    rw [step, begin]
    cases hl : s.inFlight.lookup id with
    | none => exact hl
    | some task => exact Finmap.lookup_erase id s.inFlight
  · cases h

/-- The task in hand of a call that puts it back was in its hand before. -/
theorem Move.of_restore {e : String} (hm : Move s env pc a (.restore (.nack id task) e)) :
    pc = .appendWal (.nack id task) ∧ env.append ≠ .ok () := by
  have hlog : ∀ w : Work α, toLog s w ≠ .restore (.nack id task) e := by
    intro w
    unfold toLog
    split
    · nofun
    · cases w <;> nofun
  generalize hpc' : (.restore (.nack id task) e : Pc α) = pc' at hm
  cases hm with
  | createQueue h | queue h | queueBatch h | dequeue h | dequeueBatch h _ _ _ | ack h | nack h
    | extendVisibility h | verified => exact absurd hpc'.symm (hlog _)
  | @append w h => cases w <;> cases hpc'
  | @appendFails w e' h =>
    refine ⟨?_, by rw [h]; nofun⟩
    cases w <;> cases hpc'
    rfl
  | _ => cases hpc'

end Pc

namespace Thread

/-- A thread whose call has returned `Ok` is in no loop. -/
theorem loop_resume {loop : Option (List String × ℕ)} {pc : Pc α} {r : Reply α}
    (h : (resume loop pc).pc = .done (.ok r)) : (resume loop pc).loop = none := by
  have hnext : ∀ (count : ℕ) (ids : List String),
      (next count ids : Thread α).pc = .done (.ok r) → (next count ids : Thread α).loop = none := by
    intro count ids hpc
    cases ids with
    | nil => rfl
    | cons id ids => cases hpc
  unfold resume at h ⊢
  split at h
  · exact hnext _ _ h
  · exact hnext _ _ h
  · exact hnext _ _ h
  · next hok _ =>
    cases h
    cases loop with
    | none => rfl
    | some l => exact absurd rfl (hok _ _ _ rfl)

/-- The loop does not end in the error branch of an append. -/
theorem restore_of_resume {loop : Option (List String × ℕ)} {pc : Pc α} {w : Work α} {e : String}
    (h : (resume loop pc).pc = .restore w e) : pc = .restore w e := by
  have hnext : ∀ (count : ℕ) (ids : List String),
      (next count ids : Thread α).pc ≠ .restore w e := by
    intro count ids
    cases ids <;> nofun
  unfold resume at h
  split at h
  · exact absurd h (hnext _ _)
  · exact absurd h (hnext _ _)
  · exact absurd h (hnext _ _)
  · exact h

/-- Inside the loop, what is left behind its head stays left. -/
theorem reported_resume {ids : List String} {count : ℕ} {pc : Pc α} {id : String}
    (hpc : ∀ ids', pc ≠ .scanned ids') (hid : id ∈ ids) :
    id ∈ (resume (some (ids, count)) pc).reported := by
  unfold resume
  split
  · exact absurd rfl (hpc _)
  · next heq =>
    cases heq
    rwa [reported_next]
  · next heq =>
    cases heq
    rwa [reported_next]
  · exact mem_reported_of_loop rfl hid

end Thread

namespace Config

variable [Fintype ι] [DecidableEq ι]

/-! ### Passes -/

/-- The reading of the last step, and for each thread the reading of its scan, once it has
scanned. -/
structure Readings (ι : Type) where
  now : Int
  scanned : ι → Option Int

omit [Fintype ι] in
/-- The readings after the step `l` from `σ`. -/
def Readings.extend (σ : Config ι α) (l : ι × Env) (r : Readings ι) : Readings ι where
  now := l.2.now 0
  scanned := if (σ.pc l.1).scans then Function.update r.scanned l.1 (some (l.2.now 0))
    else r.scanned

/-- The interleaved store with its clock readings. -/
def swept (ι α : Type) [Fintype ι] [DecidableEq ι] : System (Config ι α × Readings ι) (ι × Env) :=
  (machine ι α).recording Readings.extend

omit [Fintype ι] [DecidableEq ι] in
/-- The step is not the append of a `Nack` entry that fails. -/
def ReturnWritten (σ : Config ι α) (l : ι × Env) : Prop :=
  match σ.pc l.1 with
  | .appendWal (.nack _ _) => l.2.append = .ok ()
  | _ => True

instance (σ : Config ι α) (l : ι × Env) : Decidable (ReturnWritten σ l) := by
  unfold ReturnWritten
  split <;> infer_instance

/-- The clock does not go back, and returned tasks are logged. -/
def Steady (s : Config ι α × Readings ι) (l : ι × Env) : Prop :=
  s.2.now ≤ l.2.now 0 ∧ ReturnWritten s.1 l

instance (s : Config ι α × Readings ι) (l : ι × Env) : Decidable (Steady s l) :=
  inferInstanceAs (Decidable (_ ∧ _))

/-- The task was stamped since the reading `scan`, or was not older than `timeout` then. -/
def Spared (scan timeout : Int) (task : InFlightTask α) : Prop :=
  scan ≤ task.consumedAt ∨ scan - task.consumedAt ≤ timeout

/-- What is expired since the scan of a pass, the pass has not reached. -/
structure Sweeping (calls : ι → Call α) (s : Config ι α × Readings ι) : Prop where
  serving : Serving calls s.1
  awake : ∀ i ids, s.1.pc i ≠ .scanned ids
  unreturned : ∀ i id task e, s.1.pc i ≠ .restore (.nack id task) e
  loop : ∀ i r, s.1.pc i = .done (.ok r) → (s.1.threads i).loop = none
  scanned : ∀ {i timeout}, (calls i).timeout = some timeout → s.1.pc i ≠ .start (calls i) →
    ∃ scan, s.2.scanned i = some scan
  past : ∀ {i scan}, s.2.scanned i = some scan → scan ≤ s.2.now
  left : ∀ {i timeout scan id task}, (calls i).timeout = some timeout →
    s.2.scanned i = some scan → s.1.store.inFlight.lookup id = some task →
    Spared scan timeout task ∨ id ∈ (s.1.threads i).reported

section Steps

variable {calls : ι → Call α} {s s' : Config ι α × Readings ι} {i : ι} {env : Env} {a : Access α}
  {pc' : Pc α} {id : String} {task : InFlightTask α} {timeout : Int}

omit [Fintype ι] in
/-- A pass that scans has all that is expired still before it. -/
theorem Sweeping.of_scan (h : Sweeping calls s) (hstep : StepOf s.1 i env s'.1 a pc')
    (hscans : (s.1.pc i).scans = true) (ht : (calls i).timeout = some timeout)
    (hl : s'.1.store.inFlight.lookup id = some task) :
    Spared (env.now 0) timeout task ∨ id ∈ (s'.1.threads i).reported := by
  obtain ⟨t, hpc⟩ : ∃ t, s.1.pc i = .start (.cleanupExpiredTasks t) := by
    unfold Pc.scans at hscans
    split at hscans
    · next t hpc => exact ⟨t, hpc⟩
    · cases hscans
  have hcall : calls i = .cleanupExpiredTasks t :=
    Pc.Serves.eq_of_start (hpc ▸ (h.serving i).pc) (by simp)
  rw [hcall] at ht
  have heq := hstep.eq
  have hscan : s.1.store.scanExpiredTasks env t
      = .ok (env.iter.list (s.1.store.expiredIds (env.now 0) timeout)) := by
    rw [InMemoryStorage.scanExpiredTasks,
      show InMemoryStorage.expiryTimeout t = some timeout from ht]
  rw [hpc, Pc.step, Pc.begin, hscan] at heq
  obtain ⟨rfl, rfl⟩ := Prod.mk.inj heq
  rw [hstep.store, Access.run_look] at hl
  rw [hstep.threads, Function.update_self, Thread.resume, Thread.reported_next]
  by_cases hlt : timeout < env.now 0 - task.consumedAt
  · right
    rw [← Multiset.mem_coe, env.iter.coe_list, InMemoryStorage.mem_expiredIds]
    exact ⟨task, hl, hlt⟩
  · exact Or.inl (Or.inr (not_lt.mp hlt))

omit [Fintype ι] in
/-- What a pass has before it stays before it, or leaves the table. -/
theorem Sweeping.reported_step (h : Sweeping calls s) (hstep : StepOf s.1 i env s'.1 a pc') {j : ι}
    (hscans : j = i → (s.1.pc i).scans = false)
    (hl : s'.1.store.inFlight.lookup id = some task) (hid : id ∈ (s.1.threads j).reported) :
    id ∈ (s'.1.threads j).reported := by
  rw [hstep.threads]
  by_cases hj : j = i
  · subst hj
    rw [Function.update_self]
    rcases List.mem_append.mp hid with htakes | hrest
    · -- the one it takes now
      have hnone : (((s.1.threads j).pc.step s.1.store env).1.run s.1.store env).inFlight.lookup id
          = none := Pc.lookup_of_takes (Option.mem_toList.mp htakes)
      rw [hstep.store] at hl
      have heq := hstep.eq
      rw [Config.pc] at heq
      rw [heq, hl] at hnone
      cases hnone
    · cases hloop : (s.1.threads j).loop with
      | none =>
        rw [hloop] at hrest
        exact absurd hrest List.not_mem_nil
      | some l =>
        rw [hloop] at hrest
        refine Thread.reported_resume (fun ids hpc' => ?_) hrest
        have hmove := hstep.move
        rw [hpc'] at hmove
        rcases hmove.of_scanned with ⟨t, hpc⟩ | hpc
        · have hno := hscans rfl
          rw [hpc] at hno
          cases hno
        · exact h.awake j ids hpc
  · rwa [Function.update_of_ne hj]

/-- **Passes stay behind nothing.** -/
theorem Sweeping.step {l : ι × Env} (h : Sweeping calls s) (hok : Steady s l)
    (hs : (swept ι α).step s l = some s') : Sweeping calls s' := by
  obtain ⟨i, env⟩ := l
  obtain ⟨hmachine, hreadings⟩ := System.recording_step.mp hs
  obtain ⟨-, a, pc', hstep⟩ := machine_step hmachine
  have hle : s.2.now ≤ env.now 0 := hok.1
  have hnow : s'.2.now = env.now 0 := by rw [hreadings]; rfl
  -- the readings of the scans, before and behind the step
  have hscanned : ∀ {j scan}, s'.2.scanned j = some scan →
      (j = i ∧ (s.1.pc i).scans = true ∧ scan = env.now 0) ∨
        ((j = i → (s.1.pc i).scans = false) ∧ s.2.scanned j = some scan) := by
    intro j scan hj
    rw [hreadings, Readings.extend] at hj
    dsimp only at hj
    split at hj
    · next hscans =>
      by_cases hji : j = i
      · rw [hji, Function.update_self] at hj
        exact Or.inl ⟨hji, hscans, (Option.some.inj hj).symm⟩
      · rw [Function.update_of_ne hji] at hj
        exact Or.inr ⟨fun heq => absurd heq hji, hj⟩
    · next hscans => exact Or.inr ⟨fun _ => Bool.not_eq_true _ ▸ hscans, hj⟩
  refine ⟨hstep.serving h.serving, fun j ids => ?_, fun j id task e => ?_, fun j r => ?_,
    fun {j timeout} ht hj => ?_, fun {j scan} hj => ?_, fun {j timeout scan id task} ht hj hl => ?_⟩
  · rw [pc, hstep.threads]
    by_cases hji : j = i
    · rw [hji, Function.update_self]
      exact Thread.resume_ne_scanned ids
    · rw [Function.update_of_ne hji]
      exact h.awake j ids
  · rw [pc, hstep.threads]
    by_cases hji : j = i
    · rw [hji, Function.update_self]
      intro hpc
      have hmove := hstep.move
      rw [Thread.restore_of_resume hpc] at hmove
      obtain ⟨hfrom, hfails⟩ := hmove.of_restore
      have hwritten := hok.2
      rw [ReturnWritten, hfrom] at hwritten
      exact hfails hwritten
    · rw [Function.update_of_ne hji]
      exact h.unreturned j id task e
  · rw [pc, hstep.threads]
    by_cases hji : j = i
    · rw [hji, Function.update_self]
      exact Thread.loop_resume
    · rw [Function.update_of_ne hji]
      exact h.loop j r
  · rw [hreadings, Readings.extend]
    dsimp only
    by_cases hji : j = i
    · subst hji
      split
      · exact ⟨_, Function.update_self ..⟩
      · next hscans =>
        -- it has scanned before, since its first step is the scan
        refine h.scanned ht fun hpc => hscans ?_
        rw [hpc]
        cases hcall : calls j with
        | cleanupExpiredTasks t => rfl
        | _ =>
          rw [hcall] at ht
          cases ht
    · rw [pc, hstep.threads, Function.update_of_ne hji] at hj
      obtain ⟨scan, hscan⟩ := h.scanned ht hj
      split
      · exact ⟨scan, by rw [Function.update_of_ne hji, hscan]⟩
      · exact ⟨scan, hscan⟩
  · rw [hnow]
    rcases hscanned hj with ⟨-, -, rfl⟩ | ⟨-, hold⟩
    · exact le_refl _
    · exact (h.past hold).trans hle
  · rcases hscanned hj with ⟨rfl, hscans, rfl⟩ | ⟨hscans, hold⟩
    · exact h.of_scan hstep hscans ht hl
    · have hl' := hl
      rw [hstep.store] at hl'
      rcases Access.lookup_run hl' with hbefore | rfl
      · rcases h.left ht hold hbefore with hspared | hid
        · exact Or.inl hspared
        · exact Or.inr (h.reported_step hstep hscans hl hid)
      · -- a task that is filed now has a stamp of now
        rcases hstep.move.stamp with ⟨e, hpc⟩ | hstamp
        · exact absurd hpc (h.unreturned i id task e)
        · refine Or.inl (Or.inl ?_)
          rw [hstamp]
          exact (h.past hold).trans hle

end Steps

omit [Fintype ι] [DecidableEq ι] in
theorem sweeping_start (calls : ι → Call α) (s : InMemoryStorage α) (now : Int) :
    Sweeping calls (start s calls, ⟨now, fun _ => none⟩) := by
  refine ⟨serving_start s calls, fun i ids h => ?_, fun i id task e h => ?_, fun i r h => ?_,
    fun {i timeout} _ h => ?_, fun {i scan} h => ?_, fun {i timeout scan id task} _ h => ?_⟩
  · cases h
  · cases h
  · rfl
  · exact absurd rfl h
  · cases h
  · cases h

/-- **Cleanups leave nothing that is expired.** When a pass has returned, every task in flight was
stamped since its scan, or was not older than the timeout then: whatever the other calls do, in any
run in which returned tasks are logged. -/
theorem swept_of_reach {calls : ι → Call α} {s₀ : InMemoryStorage α} {now : Int}
    {s : Config ι α × Readings ι}
    (h : (swept ι α).Reach Steady (start s₀ calls, ⟨now, fun _ => none⟩) s) {i : ι} {timeout : Int}
    (ht : (calls i).timeout = some timeout) {r : Reply α} (hdone : s.1.pc i = .done (.ok r)) :
    ∃ scan, s.2.scanned i = some scan ∧ ∀ (id : String) (task : InFlightTask α),
      s.1.store.inFlight.lookup id = some task → Spared scan timeout task := by
  have hw : Sweeping calls s := h.invariant (Sweeping calls) (sweeping_start calls s₀ now)
    fun s l s' hw hok hs => hw.step hok hs
  obtain ⟨scan, hscan⟩ := hw.scanned ht (by rw [hdone]; nofun)
  refine ⟨scan, hscan, fun id task hl => ?_⟩
  rcases hw.left ht hscan hl with hspared | hid
  · exact hspared
  · -- a pass that has returned has nothing before it
    rw [Thread.reported, hw.loop i r hdone] at hid
    rw [Config.pc] at hdone
    rw [hdone] at hid
    exact absurd hid List.not_mem_nil

/-- A pass with a timeout of half a minute that scans after 31 seconds, on a task that was handed
out at time zero; the heartbeat for it comes too late. -/
theorem swept_of_reach_late : ∃ s, (swept (Fin 2) Bytes).Reach Steady
      (start Heartbeat.held lateCalls, ⟨0, fun _ => none⟩) s ∧
    (∃ r, s.1.pc 0 = .done (.ok r)) ∧
    ∃ scan, s.2.scanned 0 = some scan ∧ ∀ (id : String) (task : InFlightTask Bytes),
      s.1.store.inFlight.lookup id = some task → Spared scan 30000000000 task := by
  obtain ⟨s, hreach, hreturned⟩ := System.Reach.exists_of_run (swept (Fin 2) Bytes) Steady
    (start Heartbeat.held lateCalls, ⟨0, fun _ => none⟩)
    (fun s => (s.1.pc 0).outcome = some (.ok (.cleaned 1)))
    [(0, late), (1, late), (1, late), (0, late), (0, late)] (by decide +kernel)
  have hdone := Pc.outcome_eq_some.mp hreturned
  exact ⟨s, hreach, ⟨_, hdone⟩, swept_of_reach hreach (by decide +kernel) hdone⟩

end Config

end Oxideq
