import Oxideq.Concurrent.Calls
import Oxideq.Sequential.Journal
import Oxideq.Sequential.Stamps

/-!
# Heartbeats

`extend_visibility` resets the clock of a task and leaves the requested duration to the log; the
expiry of a task is decided by the timeout of the cleanup alone. What a heartbeat promises is
therefore not what it was asked for. `HeartbeatKept τ d` is the promise of the interface, for
heartbeats of `d` seconds and cleanups with timeout `τ`: in no run is the task returned within `d`
seconds by such a cleanup. It is kept exactly when the timeout, as the scan reads it, is at least
`d` seconds long (`heartbeatKept_iff`).

The one fact about runs behind it is `Clocked`: whatever is called and however often the process
restarts, a task in flight has the clock it had, or one read since.
-/

namespace Oxideq

variable {α : Type}

/-- A task of `s'` was in `s` under the same id, or has a clock of `T` or later. -/
def Clocked (T : Int) (s s' : InMemoryStorage α) : Prop :=
  ∀ (id : String) (task : InFlightTask α), s'.inFlight.lookup id = some task →
    s.inFlight.lookup id = some task ∨ T ≤ task.consumedAt

/-- So every stamp set in between is `T` or later. -/
theorem clocked_iff {T : Int} {s s' : InMemoryStorage α} :
    Clocked T s s' ↔ Stamped (fun _ now => T ≤ now) s s' := Iff.rfl

namespace Clocked

variable {T : Int} {s s' s'' : InMemoryStorage α}

theorem of_inFlight (h : s'.inFlight = s.inFlight) : Clocked T s s' :=
  clocked_iff.mpr (.of_inFlight h)

theorem refl (s : InMemoryStorage α) : Clocked T s s := of_inFlight rfl

theorem trans (h : Clocked T s s') (h' : Clocked T s' s'') : Clocked T s s'' :=
  clocked_iff.mpr ((clocked_iff.mp h).trans (clocked_iff.mp h'))

end Clocked

namespace InMemoryStorage

variable {T : Int}

/-- **What a call does to clocks**, where it reads none earlier than `T`. -/
theorem call_clocked {envs : ℕ → Env} (hnow : ∀ k i, T ≤ (envs k).now i) (s : InMemoryStorage α)
    (c : Call α) : Clocked T s (s.call envs c).2 :=
  clocked_iff.mpr (call_stamped (fun _ => hnow 0) (fun _ _ _ => hnow 0) s)

/-! ### Replay -/

theorem orSelf_clocked {s : InMemoryStorage α} {r : Except String (InMemoryStorage α)}
    (h : ∀ s', r = .ok s' → s'.inFlight = s.inFlight) : Clocked T s (s.orSelf r) := by
  cases r with
  | error e => exact .refl s
  | ok s' => exact .of_inFlight (h s' rfl)

theorem replayDeliveries_clocked (s : InMemoryStorage α) {now : ℕ → Int} (hnow : ∀ i, T ≤ now i)
    (name : String) (ids : List String) : Clocked T s (s.replayDeliveries now name ids) := by
  unfold replayDeliveries
  cases s.queues.lookup name with
  | none => exact .refl s
  | some items =>
    -- only the deliveries write clocks, and they read them now
    have hpopped : Clocked T s (s.setQueue name (items.drop ids.length)) := .of_inFlight rfl
    exact hpopped.trans (Stamped.deliverAll _ name (fun _ _ => hnow) items)

theorem effect_clocked (s : InMemoryStorage α) {now : ℕ → Int} (hnow : ∀ i, T ≤ now i)
    (op : WalOp α) : Clocked T s (s.effect now op) := by
  cases op with
  | createQueue name =>
    simp only [effect]
    split
    · exact .refl s
    · exact .of_inFlight rfl
  | enqueue queue data => exact orSelf_clocked fun s' h => inFlight_pushBack h
  | enqueueBatch queue data => exact orSelf_clocked fun s' h => inFlight_pushBack h
  | dequeued queue taskId => exact s.replayDeliveries_clocked hnow queue [taskId]
  | dequeuedBatch queue taskIds => exact s.replayDeliveries_clocked hnow queue taskIds
  | ack taskId => exact Stamped.dropTask s taskId
  | ackBatch taskIds =>
    simp only [effect]
    split
    · exact Stamped.dropTasks s taskIds
    · exact .refl s
  | nack taskId =>
    simp only [effect]
    cases s.inFlight.lookup taskId with
    | none => exact .refl s
    | some task =>
      exact (Stamped.dropTask s taskId).trans (orSelf_clocked fun s' h => requeue_inFlight h)
  | extendVisibility taskId duration =>
    simp only [effect]
    cases s.inFlight.lookup taskId with
    | none => exact .refl s
    | some task => exact Stamped.insert s taskId (hnow 1)

theorem replayEntries_clocked {s : InMemoryStorage α} (hwal : s.wal = none) {envs : ℕ → Env}
    (hnow : ∀ k i, T ≤ (envs k).now i) (entries : List (WalEntry α)) :
    Clocked T s (s.replayEntries envs entries) := by
  induction entries generalizing s envs with
  | nil => exact .refl s
  | cons entry entries ih =>
    rw [replayEntries, replayEntry_eq_effect hwal]
    refine (s.effect_clocked (hnow 0) entry.op).trans ?_
    exact ih (by rw [effect_wal, hwal]) fun k => hnow (k + 1)

/-- After a start every task has a clock read by the start. -/
theorem recover_clocked {envs : ℕ → Env} (hnow : ∀ k i, T ≤ (envs k).now i)
    (entries : List (WalEntry α)) (s : InMemoryStorage α) :
    Clocked T s (recover envs entries) := by
  intro id task hl
  rcases replayEntries_clocked rfl hnow entries id task hl with h | h
  · cases h
  · exact Or.inr h

end InMemoryStorage

/-! ### Timelines -/

namespace Journal

/-- The clock readings of an event: those of its environments, one environment after the other. -/
def Event.reading : Event α → ℕ → ℕ → Int
  | .call envs _, k, i => (envs k).now i
  | .restart envs, k, i => (envs k).now i

/-- The clock does not go back during the event. -/
def Event.Ordered (ev : Event α) : Prop :=
  ∀ k i k' i', k < k' ∨ (k = k' ∧ i ≤ i') → ev.reading k i ≤ ev.reading k' i'

/-- The clock does not go back from one event to the other. -/
def Event.Precedes (ev ev' : Event α) : Prop :=
  ∀ k i k' i', ev.reading k i ≤ ev'.reading k' i'

def NonDecreasing (events : List (Event α)) : Prop :=
  (∀ ev ∈ events, ev.Ordered) ∧ events.Pairwise Event.Precedes

theorem step_clocked {T : Int} (j : Journal α) {ev : Event α}
    (hev : ∀ k i, T ≤ ev.reading k i) : Clocked T j.store (j.step ev).store := by
  cases ev with
  | call envs c => exact InMemoryStorage.call_clocked hev j.store c
  | restart envs =>
    cases hw : j.store.wal with
    | none =>
      rw [step_restart_of_none hw]
      -- without a log nothing survives the stop of the process
      exact fun id task hl => nomatch hl
    | some m =>
      rw [step_restart_of_isSome (by rw [hw]; rfl)]
      exact InMemoryStorage.recover_clocked hev j.entries j.store

theorem foldl_step_clocked {T : Int} (j : Journal α) {events : List (Event α)}
    (hev : ∀ ev ∈ events, ∀ k i, T ≤ ev.reading k i) :
    Clocked T j.store (events.foldl step j).store := by
  induction events generalizing j with
  | nil => exact .refl _
  | cons ev events ih =>
    rw [List.forall_mem_cons] at hev
    exact (j.step_clocked hev.1).trans (ih _ hev.2)

end Journal

/-! ### The promise -/

/-- The task `id` went from the in-flight table back to a queue. -/
def Returned (id : String) (s s' : InMemoryStorage α) : Prop :=
  ∃ task, s.inFlight.lookup id = some task ∧ id ∉ s'.inFlight ∧
    task.item ∈ s'.items task.returnQueue

/-- The promise of a heartbeat of `duration` seconds, where the cleanups have the timeout
`timeoutSeconds`: in every run on a clock that does not go back, no cleanup within the duration
returns the task, and no scan reports it to be returned. -/
def HeartbeatKept (timeoutSeconds duration : UInt64) : Prop :=
  ∀ (persistent : Bool) (envs₀ : ℕ → Env) (before between : List (Journal.Event Bytes))
    (envs envs' : ℕ → Env) (id : String),
    let heartbeat := Journal.Event.call envs (.extendVisibility id duration)
    let cleanup := Journal.Event.call envs' (.cleanupExpiredTasks timeoutSeconds)
    let found := before.foldl Journal.step (Journal.first persistent envs₀)
    let left := between.foldl Journal.step (found.step heartbeat)
    Journal.NonDecreasing (before ++ heartbeat :: (between ++ [cleanup])) →
    (found.store.extendVisibility (envs 0) id duration).1 = .ok () →
    (envs' 0).now 0 ≤ (envs 0).now 1 + duration.toNat * 1000000000 →
    ¬ Returned id left.store (left.step cleanup).store ∧
      ∀ ids, left.store.scanExpiredTasks (envs' 0) timeoutSeconds = .ok ids → id ∉ ids

namespace InMemoryStorage

theorem mem_expiredIds {s : InMemoryStorage α} {now timeout : Int} {id : String} :
    id ∈ s.expiredIds now timeout
      ↔ ∃ task, s.inFlight.lookup id = some task ∧ timeout < now - task.consumedAt := by
  unfold expiredIds
  rw [Multiset.mem_map]
  constructor
  · rintro ⟨e, he, rfl⟩
    obtain ⟨hmem, hlt⟩ := Multiset.mem_filter.mp he
    exact ⟨e.2, Finmap.lookup_eq_some_iff.mpr hmem, hlt⟩
  · rintro ⟨task, hl, hlt⟩
    exact ⟨⟨id, task⟩, Multiset.mem_filter.mpr ⟨Finmap.lookup_eq_some_iff.mp hl, hlt⟩, rfl⟩

/-- What a scan reports is older than its timeout. -/
theorem expired_of_scan {s : InMemoryStorage α} {env : Env} {timeoutSeconds : UInt64}
    {ids : List String} (h : s.scanExpiredTasks env timeoutSeconds = .ok ids) {id : String}
    (hid : id ∈ ids) : ∃ timeout task, expiryTimeout timeoutSeconds = some timeout ∧
      s.inFlight.lookup id = some task ∧ timeout < env.now 0 - task.consumedAt := by
  unfold scanExpiredTasks at h
  cases ht : expiryTimeout timeoutSeconds with
  | none => rw [ht] at h; cases h
  | some timeout =>
    rw [ht] at h
    cases h
    rw [← Multiset.mem_coe, env.iter.coe_list, mem_expiredIds] at hid
    obtain ⟨task, hl, hlt⟩ := hid
    exact ⟨timeout, task, rfl, hl, hlt⟩

theorem extendVisibility_ok {s : InMemoryStorage α} {env : Env} {id : String} {duration : UInt64}
    (h : (s.extendVisibility env id duration).1 = .ok ()) {task : InFlightTask α}
    (hl : (s.extendVisibility env id duration).2.inFlight.lookup id = some task) :
    task.consumedAt = env.now 1 := by
  unfold extendVisibility at h hl
  cases hs : s.inFlight.lookup id with
  | none => rw [hs] at h; cases h
  | some old =>
    simp only [hs] at h hl
    cases ho : s.logOp env (.extendVisibility id duration) with
    | error e => rw [ho] at h; cases h
    | ok s' =>
      simp only [ho] at hl
      rw [Finmap.lookup_insert] at hl
      rw [← Option.some.inj hl]

/-- A task whose id is not in the list stays in flight. -/
theorem lookup_nackAll (envs : ℕ → Env) (s : InMemoryStorage α) {id : String}
    {ids : List String} (h : id ∉ ids) (count : ℕ) :
    (s.nackAll envs ids count).2.inFlight.lookup id = s.inFlight.lookup id := by
  induction ids generalizing s envs count with
  | nil => rfl
  | cons id' ids ih =>
    rw [List.mem_cons, not_or] at h
    obtain ⟨hne, hids⟩ := h
    have hnack : (s.nack (envs 0) id').2.inFlight.lookup id = s.inFlight.lookup id := by
      rcases s.nack_inFlight (envs 0) id' with hn | hn
      · rw [hn]
      · rw [hn, Finmap.lookup_erase_ne hne]
    unfold nackAll
    split
    · next heq =>
      rw [heq] at hnack
      rw [ih _ _ hids, hnack]
    · next heq =>
      rw [heq] at hnack
      rw [ih _ _ hids, hnack]

/-- A cleanup returns what its scan reports. -/
theorem not_returned_of_scan {s : InMemoryStorage α} {envs : ℕ → Env} {timeoutSeconds : UInt64}
    {id : String}
    (h : ∀ ids, s.scanExpiredTasks (envs 0) timeoutSeconds = .ok ids → id ∉ ids) :
    ¬ Returned id s (s.cleanupExpiredTasks envs timeoutSeconds).2 := by
  rintro ⟨task, hl, hgone, -⟩
  -- not reported, so no `nack` of the cleanup touches it
  refine hgone (Finmap.mem_iff.mpr ⟨task, ?_⟩)
  unfold cleanupExpiredTasks
  cases hs : s.scanExpiredTasks (envs 0) timeoutSeconds with
  | ok ids => rw [← hl]; exact lookup_nackAll _ s (h ids hs) 0
  | err e => exact hl
  | panic => exact hl

end InMemoryStorage

/-! ### When it is kept -/

/-- A timeout of at least the duration, where the scan can read it at all. -/
theorem heartbeatKept_of_le {timeoutSeconds duration : UInt64}
    (h : ∀ timeout, InMemoryStorage.expiryTimeout timeoutSeconds = some timeout →
      (duration.toNat : Int) * 1000000000 ≤ timeout) :
    HeartbeatKept timeoutSeconds duration := by
  intro persistent envs₀ before between envs envs' id heartbeat cleanup found left htime hok hwithin
  -- nothing is read earlier than the heartbeat from there on
  have hlater : ∀ ev ∈ between, ∀ k i, (envs 0).now 1 ≤ ev.reading k i := by
    intro ev hev k i
    have hpairs := (List.pairwise_append.mp htime.2).2.1
    exact (List.pairwise_cons.mp hpairs).1 ev (List.mem_append_left _ hev) 0 1 k i
  have hclock : ∀ task, left.store.inFlight.lookup id = some task →
      (envs 0).now 1 ≤ task.consumedAt := by
    intro task hl
    -- the task of the heartbeat itself, or a later delivery under its id
    rcases Journal.foldl_step_clocked (found.step heartbeat) hlater id task hl with hl | hT
    · exact (InMemoryStorage.extendVisibility_ok hok hl).ge
    · exact hT
  have hscan : ∀ ids, left.store.scanExpiredTasks (envs' 0) timeoutSeconds = .ok ids →
      id ∉ ids := by
    intro ids hids hid
    obtain ⟨timeout, task, ht, hl, hlt⟩ := InMemoryStorage.expired_of_scan hids hid
    have hdur := h timeout ht
    have hT := hclock task hl
    omega
  exact ⟨InMemoryStorage.not_returned_of_scan hscan, hscan⟩

/-! ### When it is not

A task handed out at time zero, a heartbeat right away, and a cleanup at the very end of the
duration. -/

namespace Heartbeat

def handedOut : List (Journal.Event Bytes) :=
  let envs : ℕ → Env := fun _ => Env.quiet ["t"]
  [.call envs (.createQueue "q"), .call envs (.queue "q" []), .call envs (.dequeue "q")]

def task : InFlightTask Bytes := ⟨"t", [], 0, "q", 1⟩

/-- The store with the task in flight. -/
def held : InMemoryStorage Bytes :=
  (handedOut.foldl Journal.step (Journal.first false fun _ => Env.quiet [])).store

/-- The store with the task back in its queue. -/
def back : InMemoryStorage Bytes := (held.dropTask "t").setQueue "q" [task.item]

theorem held_wal : held.wal = none := by decide +kernel

theorem held_lookup : held.inFlight.lookup "t" = some task := by decide +kernel

theorem held_entries : held.inFlight.entries = {⟨"t", task⟩} := by decide +kernel

theorem extendVisibility_held (duration : UInt64) :
    held.extendVisibility (Env.quiet []) "t" duration = (.ok (), held) := by
  have hsame : held.inFlight.insert "t" task = held.inFlight := by
    refine Finmap.ext_lookup fun id => ?_
    by_cases hid : id = "t"
    · rw [hid, Finmap.lookup_insert, held_lookup]
    · rw [Finmap.lookup_insert_of_ne _ hid]
  have htask : { task with consumedAt := (Env.quiet []).now 1 } = task := rfl
  simp only [InMemoryStorage.extendVisibility, held_lookup,
    InMemoryStorage.logOp_of_wal_none held_wal, htask, hsame]

theorem nack_held (env : Env) : held.nack env "t" = (.ok (), back) := by
  have hwal : (held.dropTask "t").wal = none := held_wal
  have hrequeue : (held.dropTask "t").requeue task = .ok back := by decide +kernel
  simp only [InMemoryStorage.nack, held_lookup, InMemoryStorage.logOp_of_wal_none hwal, hrequeue]

theorem returned_back : Returned "t" held back :=
  ⟨task, held_lookup, by decide +kernel, by decide +kernel⟩

/-- The clock stands at the end of the duration. -/
def late (duration : UInt64) : Env :=
  { Env.quiet [] with now := fun _ => duration.toNat * 1000000000 }

theorem scan_held {timeoutSeconds duration : UInt64} {timeout : Int}
    (ht : InMemoryStorage.expiryTimeout timeoutSeconds = some timeout)
    (hlt : timeout < duration.toNat * 1000000000) :
    held.scanExpiredTasks (late duration) timeoutSeconds = .ok ["t"] := by
  have hexpired : held.expiredIds ((late duration).now 0) timeout = {"t"} := by
    unfold InMemoryStorage.expiredIds
    have hold : timeout < (late duration).now 0 - task.consumedAt := by
      change timeout < (duration.toNat : Int) * 1000000000 - 0
      omega
    rw [held_entries, Multiset.filter_singleton, if_pos hold, Multiset.map_singleton]
  have hlist : (late duration).iter.list {"t"} = ["t"] := Multiset.sort_singleton _ _
  simp only [InMemoryStorage.scanExpiredTasks, ht, hexpired, hlist]

theorem cleanup_held {timeoutSeconds duration : UInt64} {timeout : Int}
    (ht : InMemoryStorage.expiryTimeout timeoutSeconds = some timeout)
    (hlt : timeout < duration.toNat * 1000000000) :
    (held.cleanupExpiredTasks (fun _ => late duration) timeoutSeconds).2 = back := by
  simp only [InMemoryStorage.cleanupExpiredTasks, scan_held ht hlt, InMemoryStorage.nackAll,
    nack_held]

theorem nonDecreasing_late (timeoutSeconds duration : UInt64) :
    Journal.NonDecreasing (handedOut
      ++ .call (fun _ => Env.quiet []) (.extendVisibility "t" duration)
        :: ([] ++ [.call (fun _ => late duration) (.cleanupExpiredTasks timeoutSeconds)])) := by
  have hpos : (0 : Int) ≤ duration.toNat * 1000000000 := by positivity
  constructor
  · intro ev hev k i k' i' _
    simp only [handedOut, List.cons_append, List.nil_append, List.mem_cons, List.not_mem_nil,
      or_false] at hev
    rcases hev with rfl | rfl | rfl | rfl | rfl <;> exact le_rfl
  · simp only [handedOut, List.cons_append, List.nil_append, List.pairwise_cons, List.mem_cons,
      List.not_mem_nil, or_false, forall_eq_or_imp, forall_eq]
    refine ⟨⟨?_, ?_, ?_, ?_⟩, ⟨?_, ?_, ?_⟩, ⟨?_, ?_⟩, ?_, nofun, .nil⟩ <;> intro k i k' i' <;>
      first | exact hpos | exact le_rfl

end Heartbeat

/-- A shorter timeout, where the scan can read it. -/
theorem not_heartbeatKept_of_lt {timeoutSeconds duration : UInt64} {timeout : Int}
    (ht : InMemoryStorage.expiryTimeout timeoutSeconds = some timeout)
    (hlt : timeout < duration.toNat * 1000000000) :
    ¬ HeartbeatKept timeoutSeconds duration := by
  intro h
  -- the heartbeat leaves the store as it is, its clock reading being the same
  have hstep : ((Heartbeat.handedOut.foldl Journal.step
      (Journal.first false fun _ => Env.quiet [])).step
        (.call (fun _ => Env.quiet []) (.extendVisibility "t" duration))).store
      = Heartbeat.held := by
    change (Heartbeat.held.extendVisibility (Env.quiet []) "t" duration).2 = Heartbeat.held
    rw [Heartbeat.extendVisibility_held]
  obtain ⟨hnot, -⟩ := h false (fun _ => Env.quiet []) Heartbeat.handedOut [] (fun _ => Env.quiet [])
    (fun _ => Heartbeat.late duration) "t" (Heartbeat.nonDecreasing_late timeoutSeconds duration)
    (congrArg Prod.fst (Heartbeat.extendVisibility_held duration))
    (by rw [show (Env.quiet []).now 1 = 0 from rfl, zero_add]; exact le_rfl)
  refine hnot ?_
  change Returned "t" (Journal.step _ _).store
    ((Journal.step _ _).store.cleanupExpiredTasks (fun _ => Heartbeat.late duration)
      timeoutSeconds).2
  rw [hstep, Heartbeat.cleanup_held ht hlt]
  exact Heartbeat.returned_back

/-- **When heartbeats keep their promise**: exactly where the timeout of the cleanups, as the scan
reads it, is at least the duration asked for, or where no cleanup gets to look at a task. -/
theorem heartbeatKept_iff (timeoutSeconds duration : UInt64) :
    HeartbeatKept timeoutSeconds duration ↔
      ∀ timeout, InMemoryStorage.expiryTimeout timeoutSeconds = some timeout →
        (duration.toNat : Int) * 1000000000 ≤ timeout := by
  refine ⟨fun h timeout ht => ?_, heartbeatKept_of_le⟩
  by_contra hlt
  exact not_heartbeatKept_of_lt ht (not_le.mp hlt) h

/-- The defaults of the program: heartbeats of a minute, and cleanups after half a minute. -/
theorem not_heartbeatKept_defaults : ¬ HeartbeatKept 30 60 := by
  have ht : InMemoryStorage.expiryTimeout 30 = some 30000000000 := by decide
  exact not_heartbeatKept_of_lt ht (by decide)

end Oxideq
