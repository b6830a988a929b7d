import Oxideq.Concurrent.Expiry
import Oxideq.Replication.CombinedStorage

/-!
# Cleanups of a cluster

In a cluster the leader scans its own tables, and proposes a `Nack` for every task it finds: the
tasks are returned when these entries are applied, among the entries of clients. So a pass of the
cleanup is spread over the log, and a heartbeat can be applied between the scan and the entry that
returns its task, as between the scan and the `nack` of a single node.

`Leader` is the state machine of the leader with the ids of the current pass. Where an entry fails
to be proposed the pass goes on with the next one, and an entry that was proposed may be applied at
any later time, or never. What holds of the interleaved store holds here
(`Leader.takesExpired_of_reach`), and for the same reason: a reported task has an old clock until a
heartbeat sets it. `cleanup_takes_expired` says both.
-/

namespace Oxideq

/-- The leader of a cluster: its tables, the ids of the current pass for which no entry is proposed
yet, those of the entries that are proposed and not applied, and the last clock reading. -/
structure Leader where
  store : InMemoryStorage Bytes
  expired : List String
  proposed : List String
  time : Int

namespace Leader

/-- What happens at the leader. -/
inductive Event where
  /-- The entry of a client is applied. -/
  | entry (req : ClientRequest) (env : Env)
  /-- A pass begins. -/
  | scan (env : Env)
  /-- The next entry of the pass is proposed. -/
  | propose
  /-- An entry of a pass is applied. -/
  | nack (taskId : String) (env : Env)

/-- The leader, with cleanups that have this timeout. -/
def machine (taskTimeout : UInt64) : System Leader Event where
  step s
    | .entry req env => some { s with store := (req.apply s.store env).2, time := env.now 0 }
    | .scan env =>
      match s.expired, s.store.scanExpiredTasks env taskTimeout with
      | [], .ok expired => some { s with expired := expired, time := env.now 0 }
      | _, _ => none
    | .propose =>
      match s.expired with
      | [] => none
      | id :: expired => some { s with expired := expired, proposed := id :: s.proposed }
    | .nack taskId env =>
      if taskId ∈ s.proposed then
        some { s with
          store := ((ClientRequest.nack taskId).apply s.store env).2
          proposed := s.proposed.erase taskId
          time := env.now 0 }
      else none

/-- The pass has reported the task, and its entry is not applied. -/
def Reported (s : Leader) (id : String) : Prop := id ∈ s.expired ∨ id ∈ s.proposed

instance (s : Leader) (id : String) : Decidable (s.Reported id) :=
  inferInstanceAs (Decidable (_ ∨ _))

/-- The clock does not go back, and no id is drawn that a pass has reported. -/
def Regular (s : Leader) : Event → Prop
  | .entry _ env => s.time ≤ env.now 0 ∧ ∀ k, ¬ s.Reported (env.uuid k)
  | .scan env => s.time ≤ env.now 0
  | .propose => True
  | .nack _ env => s.time ≤ env.now 0 ∧ ∀ k, ¬ s.Reported (env.uuid k)

/-- No heartbeat is applied to a task that a pass has reported and not returned. -/
def NoLateHeartbeat (s : Leader) : Event → Prop
  | .entry req _ => ∀ id durationSeconds, req = .extendVisibility id durationSeconds →
      ¬ s.Reported id
  | _ => True

/-- A task that the event takes out of flight for a pass has been in flight, without a heartbeat,
for longer than the timeout. -/
def TakesExpired (taskTimeout : UInt64) (s : Leader) : Event → Prop
  | .nack taskId env => ∀ timeout ∈ InMemoryStorage.expiryTimeout taskTimeout,
      ∀ task ∈ s.store.inFlight.lookup taskId, timeout < env.now 0 - task.consumedAt
  | _ => True

/-- What was reported is expired as long as it is in flight. -/
def Watching (taskTimeout : UInt64) (s : Leader) : Prop :=
  ∀ timeout ∈ InMemoryStorage.expiryTimeout taskTimeout, ∀ id, s.Reported id →
    ∀ task ∈ s.store.inFlight.lookup id, timeout < s.time - task.consumedAt

variable {taskTimeout : UInt64} {s s' : Leader}

/-- A command leaves the clock of a reported task as it was. -/
theorem lookup_of_apply {req : ClientRequest} {env : Env} {id : String}
    {task : InFlightTask Bytes} (hid : s.Reported id) (hdraw : ∀ k, ¬ s.Reported (env.uuid k))
    (hextend : ∀ id d, req = .extendVisibility id d → ¬ s.Reported id)
    (hl : (req.apply s.store env).2.inFlight.lookup id = some task) :
    s.store.inFlight.lookup id = some task := by
  rw [(req.apply_call s.store env).1] at hl
  have hcall : ∀ id' d, req.call = .extendVisibility id' d → ¬ s.Reported id' := by
    intro id' d hreq
    cases req with
    | extendVisibility taskId durationSeconds =>
      cases hreq
      exact hextend _ _ rfl
    | _ => cases hreq
  have hstamped : Stamped (fun id _ => ¬ s.Reported id) s.store
      (s.store.call (fun _ => env) req.call).2 :=
    InMemoryStorage.call_stamped (fun k _ => hdraw k) (fun id d h _ => hcall id d h) s.store
  rcases hstamped id task hl with hold | hnot
  · exact hold
  · exact absurd hid hnot

/-- **The leader watches what its passes have reported.** -/
theorem Watching.step {ev : Event} (h : s.Watching taskTimeout) (hr : s.Regular ev)
    (hn : s.NoLateHeartbeat ev) (hs : (machine taskTimeout).step s ev = some s') :
    s'.Watching taskTimeout := by
  intro timeout ht id hid task hl
  cases ev with
  | entry req env =>
    cases hs
    -- the command of a client leaves the clock alone, by the condition on heartbeats
    have hold := lookup_of_apply (s := s) hid hr.2 hn hl
    have hlt := h timeout ht id hid task hold
    have hle : s.time ≤ env.now 0 := hr.1
    change timeout < env.now 0 - task.consumedAt
    omega
  | scan env =>
    simp only [machine] at hs
    split at hs
    · next expired hnil hscan =>
      cases hs
      rcases hid with hid | hid
      -- found by this scan, so expired at its clock reading
      · obtain ⟨timeout', task', ht', hl', hlt⟩ := InMemoryStorage.expired_of_scan hscan hid
        rw [Option.mem_def.mp ht] at ht'
        cases ht'
        rw [Option.mem_def, hl', Option.some_inj] at hl
        rw [← hl]
        exact hlt
      · have hlt := h timeout ht id (Or.inr hid) task hl
        have hle : s.time ≤ env.now 0 := hr
        change timeout < env.now 0 - task.consumedAt
        omega
    · cases hs
  | propose =>
    simp only [machine] at hs
    split at hs
    · cases hs
    · next id' expired hcons =>
      cases hs
      refine h timeout ht id ?_ task hl
      -- the id goes from one list to the other
      rcases hid with hid | hid
      · exact Or.inl (hcons ▸ List.mem_cons_of_mem _ hid)
      · rcases List.mem_cons.mp hid with rfl | hid
        · exact Or.inl (hcons ▸ List.mem_cons_self)
        · exact Or.inr hid
  | nack taskId env =>
    simp only [machine] at hs
    split at hs
    · cases hs
      -- an entry may stand for one of several reports of the same id
      have hid' : s.Reported id := hid.imp_right List.mem_of_mem_erase
      have hold := lookup_of_apply (s := s) hid' hr.2 (fun _ _ hreq => by cases hreq) hl
      have hlt := h timeout ht id hid' task hold
      have hle : s.time ≤ env.now 0 := hr.1
      change timeout < env.now 0 - task.consumedAt
      omega
    · cases hs

/-- A leader before its first pass. -/
def start (store : InMemoryStorage Bytes) (now : Int) : Leader := ⟨store, [], [], now⟩

theorem takesExpired_of_reach {store : InMemoryStorage Bytes} {now : Int}
    (h : (machine taskTimeout).Reach (fun s ev => s.Regular ev ∧ s.NoLateHeartbeat ev)
      (start store now) s) {ev : Event} (hev : s.Regular ev)
    (hs : ((machine taskTimeout).step s ev).isSome) : s.TakesExpired taskTimeout ev := by
  have hw : s.Watching taskTimeout := by
    refine h.invariant (Watching taskTimeout) ?_ fun s ev s' hw hok hs => hw.step hok.1 hok.2 hs
    rintro timeout - id (hid | hid)
    · exact absurd hid List.not_mem_nil
    · exact absurd hid List.not_mem_nil
  cases ev with
  | nack taskId env =>
    intro timeout ht task hl
    have hmem : taskId ∈ s.proposed := by
      by_contra hnot
      simp only [machine, if_neg hnot] at hs
      cases hs
    have hlt := hw timeout ht taskId (Or.inr hmem) task hl
    have hle : s.time ≤ env.now 0 := hev.1
    omega
  | entry req env => trivial
  | scan env => trivial
  | propose => trivial

/-! ### A late heartbeat

The run of the single node, at a leader: the pass begins, the entry of the task is proposed, and
the heartbeat is applied before it. -/

theorem scan_held : Heartbeat.held.scanExpiredTasks Config.late 30 = .ok ["t"] :=
  Heartbeat.scan_held (show InMemoryStorage.expiryTimeout 30 = some 30000000000 by decide)
    (by decide)

/-- The entry of the pass is proposed. -/
def midPass : Leader := ⟨Heartbeat.held, [], ["t"], Config.late.now 0⟩

/-- The heartbeat is applied. -/
def renewed : Leader :=
  { midPass with
    store := ((ClientRequest.extendVisibility "t" 60).apply Heartbeat.held Config.late).2 }

theorem not_reported_uuid (k : ℕ) : ¬ midPass.Reported (Config.late.uuid k) := by
  rintro (hid | hid)
  · exact List.not_mem_nil hid
  · have hempty : Config.late.uuid k = "" := rfl
    rw [List.mem_singleton.mp hid] at hempty
    exact absurd hempty (by decide)

theorem reach_midPass : (machine 30).Reach (fun s ev => s.Regular ev ∧ s.NoLateHeartbeat ev)
    (start Heartbeat.held 0) midPass := by
  have hscan : (machine 30).step (start Heartbeat.held 0) (.scan Config.late)
      = some ⟨Heartbeat.held, ["t"], [], Config.late.now 0⟩ := by
    simp only [machine, start, scan_held]
  have hclock : (0 : Int) ≤ Config.late.now 0 := by decide
  have hfirst : (machine 30).Reach (fun s ev => s.Regular ev ∧ s.NoLateHeartbeat ev)
      (start Heartbeat.held 0) ⟨Heartbeat.held, ["t"], [], Config.late.now 0⟩ :=
    System.Reach.start.step (l := .scan Config.late) ⟨hclock, trivial⟩ hscan
  exact hfirst.step (l := .propose) ⟨trivial, trivial⟩ rfl

theorem reach_renewed : (machine 30).Reach Regular (start Heartbeat.held 0) renewed := by
  have hmid : (machine 30).Reach Regular (start Heartbeat.held 0) midPass :=
    reach_midPass.mono fun _ _ hok => hok.1
  exact hmid.step (l := .entry (.extendVisibility "t" 60) Config.late)
    ⟨le_refl _, not_reported_uuid⟩ rfl

end Leader

/-- **Cleanups return what is expired**, on a single node and in a cluster, in every run in which
no heartbeat is applied to a task that a cleanup has reported and not reached. -/
theorem cleanup_takes_expired {ι α : Type} [Fintype ι] [DecidableEq ι] (calls : ι → Call α)
    (s₀ : InMemoryStorage α) (taskTimeout : UInt64) (store : InMemoryStorage Bytes) (now : Int) :
    (∀ (s : Config ι α × Int) (l : ι × Env),
      (Config.timed ι α).Reach
          (fun s l => Config.Regular calls s l ∧ Config.NoLateHeartbeat calls s l)
          (Config.start s₀ calls, now) s →
        Config.Regular calls s l → Config.TakesExpired calls s l) ∧
    ∀ (s : Leader) (ev : Leader.Event),
      (Leader.machine taskTimeout).Reach (fun s ev => s.Regular ev ∧ s.NoLateHeartbeat ev)
          (Leader.start store now) s →
        s.Regular ev → ((Leader.machine taskTimeout).step s ev).isSome →
          s.TakesExpired taskTimeout ev := by
  constructor
  · intro s l h hl
    exact Config.takesExpired_of_reach h hl
  · intro s ev h hev hs
    exact Leader.takesExpired_of_reach h hev hs

/-- A task is returned after 31 seconds by cleanups with a timeout of 30. -/
theorem cleanup_takes_expired_late :
    (∃ s, (Config.timed (Fin 2) Bytes).Reach (Config.Regular Config.lateCalls)
        (Config.start Heartbeat.held Config.lateCalls, 0) s ∧ (s.1.pc 0).takes = some "t" ∧
      Config.TakesExpired Config.lateCalls s (0, Config.late)) ∧
    Leader.midPass.TakesExpired 30 (.nack "t" Config.late) := by
  constructor
  · obtain ⟨s, hs, hr, htakes, -⟩ := Config.exists_takes
    refine ⟨s, ?_, htakes,
      (cleanup_takes_expired _ _ 30 Heartbeat.held 0).1 _ _ hs hr⟩
    exact hs.mono fun _ _ hok => hok.1
  · exact (cleanup_takes_expired Config.lateCalls Heartbeat.held 30 _ _).2 _ _ Leader.reach_midPass
      ⟨le_refl _, Leader.not_reported_uuid⟩ rfl

/-- A late heartbeat is ignored, on a single node and in a cluster. -/
theorem not_cleanup_takes_expired :
    (¬ ∀ (calls : Fin 2 → Call Bytes) (s₀ : InMemoryStorage Bytes) (now : Int)
      (s : Config (Fin 2) Bytes × Int) (l : Fin 2 × Env),
      (Config.timed (Fin 2) Bytes).Reach (Config.Regular calls) (Config.start s₀ calls, now) s →
        Config.Regular calls s l → Config.TakesExpired calls s l) ∧
    (¬ ∀ (taskTimeout : UInt64) (store : InMemoryStorage Bytes) (now : Int) (s : Leader)
      (ev : Leader.Event),
      (Leader.machine taskTimeout).Reach Leader.Regular (Leader.start store now) s →
        s.Regular ev → ((Leader.machine taskTimeout).step s ev).isSome →
          s.TakesExpired taskTimeout ev) := by
  constructor
  · intro h
    obtain ⟨s, hs, hr, hnot⟩ := Config.exists_not_takesExpired
    exact hnot (h _ _ _ _ _ hs hr)
  · intro h
    have htakes := h 30 _ _ _ (.nack "t" Config.late) Leader.reach_renewed
      ⟨le_refl _, Leader.not_reported_uuid⟩ rfl
    have hlt := htakes 30000000000 (by decide) { Heartbeat.task with consumedAt := 31000000000 }
      (by decide +kernel)
    exact absurd hlt (by decide)

end Oxideq
