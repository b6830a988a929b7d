import Oxideq.Concurrent.Ledger

/-!
# Runs with a record

The interleaved store together with a record of its run, which no step reads: the tasks handed
out, the payloads pushed, the tasks acknowledged, and how far the calls are in the log. The
statements about runs refer to it.

With the record, the messages balance (`Config.Balanced`): what is pending, in flight and in hand,
together with what was acknowledged, is what there was at the start and what was pushed since.
-/

namespace Oxideq

variable {ι α : Type}

/-! ### The record -/

/-- What happened in a run.

* `handed`: the tasks that are in flight at the start or were handed out since, with their ids.
* `pushed`: the payloads pushed by `queue` and `queue_batch`.
* `acked`: the tasks removed by `ack` and `ack_batch`.
* `unwritten`: the tasks an `ack` has removed and not written to the log.
* `settled`: the ids of the batches for which `ack_batch` is past its log.
* `waiting`: the threads between their append and their last step, in the order of the log. -/
structure History (ι α : Type) where
  handed : Multiset (InFlightTask α)
  pushed : List α
  acked : List (InFlightTask α)
  unwritten : List (InFlightTask α)
  settled : List String
  waiting : List ι

namespace History

/-- The record at the start. -/
def start (s : InMemoryStorage α) : History ι α := ⟨s.inFlightTasks, [], [], [], [], []⟩

variable [DecidableEq ι]

/-- The ids that become settled between two phases of a call. -/
def settles : Phase α → Phase α → List String
  | .idle, .logged (.ackBatch taskIds) => taskIds
  | .unlogged _, .logged (.ackBatch taskIds) => taskIds
  | _, _ => []

/-- The tasks removed and not logged, after a step that acknowledges `tasks`. -/
def unwrite (tasks unwritten : List (InFlightTask α)) :
    Phase α → Phase α → List (InFlightTask α)
  | .idle, .unlogged (.ack _) => tasks ++ unwritten
  | .unlogged (.ack id), .logged _ => unwritten.filter (·.id ≠ id)
  | _, _ => unwritten

/-- The threads past their append, after a step of thread `i`. -/
def await (i : ι) (waiting : List ι) : Phase α → Phase α → List ι
  | .unlogged _, .logged _ => waiting ++ [i]
  | .logged _, .idle => waiting.erase i
  | _, _ => waiting

/-- The record after the step `l` from `σ`. -/
def extend (σ : Config ι α) (l : ι × Env) (g : History ι α) : History ι α :=
  let pc := σ.pc l.1
  let pc' := (pc.step σ.store l.2).2
  { handed := pc.begun pc' + g.handed
    pushed := pc.pushes σ.store ++ g.pushed
    acked := pc.acks σ.store ++ g.acked
    unwritten := unwrite (pc.acks σ.store) g.unwritten pc.phase pc'.phase
    settled := settles pc.phase pc'.phase ++ g.settled
    waiting := await l.1 g.waiting pc.phase pc'.phase }

end History

namespace Config

/-- What the threads have in hand. -/
def phases (σ : Config ι α) (i : ι) : Phase α := (σ.pc i).phase

variable [DecidableEq ι]

/-- A step of a thread as a move of its call. -/
structure StepOf (σ : Config ι α) (i : ι) (env : Env) (σ' : Config ι α) (a : Access α)
    (pc' : Pc α) : Prop where
  move : Pc.Move σ.store env (σ.pc i) a pc'
  eq : (σ.pc i).step σ.store env = (a, pc')
  store : σ'.store = a.run σ.store env
  threads : σ'.threads = Function.update σ.threads i (Thread.resume (σ.threads i).loop pc')

/-- Where a thread goes on, it has as much in hand as before. -/
theorem phase_resume (loop : Option (List String × ℕ)) (pc : Pc α) :
    (Thread.resume loop pc).pc.phase = pc.phase := by
  have hnext : ∀ (count : ℕ) (ids : List String),
      (Thread.next count ids : Thread α).pc.phase = .idle := by
    intro count ids
    cases ids <;> rfl
  unfold Thread.resume
  split
  · exact hnext _ _
  · exact hnext _ _
  · exact hnext _ _
  · rfl

theorem StepOf.phases {σ σ' : Config ι α} {i : ι} {env : Env} {a : Access α} {pc' : Pc α}
    (h : StepOf σ i env σ' a pc') : σ'.phases = Function.update σ.phases i pc'.phase := by
  funext j
  rw [Config.phases, pc, h.threads]
  by_cases hj : j = i
  · rw [hj, Function.update_self, Function.update_self, phase_resume]
  · rw [Function.update_of_ne hj, Function.update_of_ne hj]
    rfl

theorem StepOf.pc_of_ne {σ σ' : Config ι α} {i j : ι} {env : Env} {a : Access α} {pc' : Pc α}
    (h : StepOf σ i env σ' a pc') (hj : j ≠ i) : σ'.pc j = σ.pc j := by
  rw [pc, h.threads, Function.update_of_ne hj]
  rfl

variable [Fintype ι]

theorem machine_step {σ σ' : Config ι α} {i : ι} {env : Env}
    (h : (machine ι α).step σ (i, env) = some σ') :
    σ.Enabled i ∧ ∃ a pc', StepOf σ i env σ' a pc' := by
  simp only [machine, Option.ite_none_right_eq_some, Option.some_inj] at h
  obtain ⟨henabled, rfl⟩ := h
  exact ⟨henabled, _, _, ⟨Pc.move_step .., rfl, rfl, rfl⟩⟩

/-- The interleaved store with the record of its run. -/
def recorded (ι α : Type) [Fintype ι] [DecidableEq ι] :
    System (Config ι α × History ι α) (ι × Env) :=
  (machine ι α).recording History.extend

theorem recorded_step {s s' : Config ι α × History ι α} {i : ι} {env : Env}
    (h : (recorded ι α).step s (i, env) = some s') :
    s.1.Enabled i ∧ (∃ a pc', StepOf s.1 i env s'.1 a pc') ∧
      s'.2 = History.extend s.1 (i, env) s.2 := by
  obtain ⟨hstep, hrec⟩ := System.recording_step.mp h
  exact ⟨(machine_step hstep).1, (machine_step hstep).2, hrec⟩

theorem recorded_move {s s' : Config ι α × History ι α} {l : ι × Env}
    (h : (recorded ι α).step s l = some s') :
    s.1.Enabled l.1 ∧ (∃ a pc', StepOf s.1 l.1 l.2 s'.1 a pc') ∧
      s'.2 = History.extend s.1 l s.2 :=
  recorded_step h

/-! ### Conditions on the steps -/

/-- The ids drawn in a step are new. -/
def Fresh (s : Config ι α × History ι α) (l : ι × Env) : Prop :=
  let pc := s.1.pc l.1
  let ids := (pc.begun (pc.step s.1.store l.2).2).map InFlightTask.id
  ids.Nodup ∧ ∀ id ∈ ids, id ∉ s.2.handed.map InFlightTask.id

instance (s : Config ι α × History ι α) (l : ι × Env) : Decidable (Fresh s l) :=
  inferInstanceAs (Decidable (_ ∧ _))

/-- A queue is only created where there is none. -/
def CreatesAbsent (σ : Config ι α) (l : ι × Env) : Prop :=
  ∀ name, σ.phases l.1 = .logged (.createQueue name) → name ∉ σ.store.queues

/-! ### Balance -/

/-- The tasks in flight and in hand. -/
def tasks (σ : Config ι α) : Multiset (InFlightTask α) :=
  σ.store.inFlightTasks + ∑ i, ((σ.phases i).tasks : Multiset (InFlightTask α))

/-- The messages are accounted for: `base` are those of the start. -/
structure Balanced (base : Multiset α) (s : Config ι α × History ι α) : Prop where
  valid : s.1.store.Valid
  phases : ∀ i, (s.1.phases i).Valid s.1.store
  distinct : (s.2.handed.map InFlightTask.id).Nodup
  handed : s.1.tasks + s.2.acked ≤ s.2.handed
  data : s.1.store.pendingData + (s.1.tasks + s.2.acked).map InFlightTask.data
    = base + s.2.pushed

omit [DecidableEq ι] in
theorem Balanced.ids {base : Multiset α} {s : Config ι α × History ι α} (hb : Balanced base s) :
    ((s.1.tasks + s.2.acked).map InFlightTask.id).Nodup :=
  Multiset.nodup_of_le (Multiset.map_le_map hb.handed) hb.distinct

/-- What a step does to the messages. -/
theorem StepOf.flow {σ σ' : Config ι α} {i : ι} {env : Env} {a : Access α} {pc' : Pc α}
    (h : StepOf σ i env σ' a pc') (hs : σ.store.Valid) (hp : (σ.phases i).Valid σ.store)
    (hids : (σ.tasks.map InFlightTask.id).Nodup)
    (hnew : ∀ name, a = .insertQueue name → name ∉ σ.store.queues) :
    ∃ out : Multiset (InFlightTask α),
      σ'.tasks + (out + (σ.pc i).acks σ.store) = σ.tasks + (σ.pc i).begun pc' ∧
        σ'.store.pendingData + (((σ.pc i).begun pc').map InFlightTask.data : Multiset α)
          = σ.store.pendingData + out.map InFlightTask.data + (σ.pc i).pushes σ.store := by
  have hle : σ.store.inFlightTasks + ((σ.phases i).tasks : Multiset (InFlightTask α)) ≤ σ.tasks :=
    add_le_add_right (Finset.single_le_sum
      (f := fun j => ((σ.phases j).tasks : Multiset (InFlightTask α)))
      (fun _ _ => Multiset.zero_le _) (Finset.mem_univ i)) _
  obtain ⟨out, htasks, hdata⟩ := h.move.flow hs hp
    (Multiset.nodup_of_le (Multiset.map_le_map hle) hids) hnew
  refine ⟨out, ?_, by rw [h.store]; exact hdata⟩
  unfold tasks
  rw [h.store, h.phases]
  exact System.sum_update_exchange (fun p : Phase α => (p.tasks : Multiset (InFlightTask α)))
    σ.phases i pc'.phase htasks

omit [Fintype ι] in
/-- The conditions on a step bear on the access it makes. -/
theorem StepOf.createsAbsent {σ σ' : Config ι α} {i : ι} {env : Env} {a : Access α} {pc' : Pc α}
    (h : StepOf σ i env σ' a pc') (hc : CreatesAbsent σ (i, env)) :
    ∀ name, a = .insertQueue name → name ∉ σ.store.queues := by
  rintro name rfl
  refine hc name ?_
  have hmove := h.move
  show (σ.pc i).phase = .logged (.createQueue name)
  generalize σ.pc i = pc at hmove
  cases hmove
  rfl

/-- **The messages stay balanced.** -/
theorem Balanced.step {base : Multiset α} {s s' : Config ι α × History ι α} {l : ι × Env}
    (hb : Balanced base s) (hf : Fresh s l) (hc : CreatesAbsent s.1 l)
    (h : (recorded ι α).step s l = some s') : Balanced base s' := by
  obtain ⟨i, env⟩ := l
  obtain ⟨-, ⟨a, pc', hstep⟩, hrec⟩ := recorded_step h
  have hnew := hstep.createsAbsent hc
  have hids : (s.1.tasks.map InFlightTask.id).Nodup :=
    Multiset.nodup_of_le (Multiset.map_le_map (Multiset.le_add_right _ _)) hb.ids
  obtain ⟨out, htasks, hdata⟩ := hstep.flow hb.valid (hb.phases i) hids hnew
  obtain ⟨hvalid, hphase⟩ := hstep.move.valid hb.valid (hb.phases i)
  have hpc' : ((s.1.pc i).step s.1.store env).2 = pc' := by rw [hstep.eq]
  unfold Fresh at hf
  simp only [hpc'] at hf
  have hhanded : s'.2.handed = (s.1.pc i).begun pc' + s.2.handed := by
    rw [hrec, History.extend, hpc']
  have hacked : (s'.2.acked : Multiset (InFlightTask α))
      = (s.1.pc i).acks s.1.store + s.2.acked := by
    rw [hrec, History.extend, Multiset.coe_add]
  have hpushed : (s'.2.pushed : Multiset α) = (s.1.pc i).pushes s.1.store + s.2.pushed := by
    rw [hrec, History.extend, Multiset.coe_add]
  -- all tasks of the record, with those that became pending again
  have hall : s'.1.tasks + s'.2.acked + out = s.1.tasks + s.2.acked + (s.1.pc i).begun pc' := by
    rw [hacked]
    calc _ = s'.1.tasks + (out + (s.1.pc i).acks s.1.store) + s.2.acked := by abel
      _ = _ := by rw [htasks]; abel
  constructor
  · rw [hstep.store]
    exact hvalid
  · intro j
    rw [hstep.phases, hstep.store]
    by_cases hj : j = i
    · rw [hj, Function.update_self]
      exact hphase
    · rw [Function.update_of_ne hj]
      exact (hb.phases j).run env a
  · rw [hhanded, Multiset.map_add, Multiset.nodup_add, Multiset.map_coe, Multiset.coe_nodup]
    refine ⟨hf.1, hb.distinct, Multiset.disjoint_left.mpr ?_⟩
    exact fun {id} hid => hf.2 id (Multiset.mem_coe.mp hid)
  · rw [hhanded, add_comm (_ : Multiset (InFlightTask α)) s.2.handed]
    exact ((Multiset.le_add_right _ _).trans_eq hall).trans (add_le_add_left hb.handed _)
  · have hdata' := congrArg (Multiset.map InFlightTask.data) hall
    rw [Multiset.map_add, Multiset.map_add InFlightTask.data (s.1.tasks + _),
      Multiset.map_coe InFlightTask.data] at hdata'
    rw [hpushed]
    refine add_right_cancel (b := (((s.1.pc i).begun pc').map InFlightTask.data : Multiset α)
      + out.map InFlightTask.data) ?_
    calc _ = (s'.1.store.pendingData + (((s.1.pc i).begun pc').map InFlightTask.data : Multiset α))
          + ((s'.1.tasks + s'.2.acked).map InFlightTask.data + out.map InFlightTask.data) := by abel
      _ = s.1.store.pendingData + (s.1.tasks + s.2.acked).map InFlightTask.data
          + (s.1.pc i).pushes s.1.store + out.map InFlightTask.data
          + (((s.1.pc i).begun pc').map InFlightTask.data : Multiset α) := by
        rw [hdata, hdata']; abel
      _ = _ := by rw [hb.data]; abel

end Config

end Oxideq
