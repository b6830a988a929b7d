import Oxideq.Sequential.Chronicle

/-!
# Five failures

A message that fails five times in a queue is moved to the dead-letter queue, and a dead-letter
queue is read like any other. So a message should have five deliveries from every queue it is in:
after each of the first four `nack` or the cleanup puts it back at the front, after the fifth it
moves on (`NackPoint.FiveFailures`).

`nack` decides by a counter that travels with the message. While a message was never moved, the
counter and the deliveries from its queue are the same number, and the rule holds. A message that
was moved brings a counter of five or more into the dead-letter queue, where its first failure
moves it on. So the rule holds at a `nack` exactly when the message was not moved before
(`five_failures`).

A `NackPoint` is a moment of a run at which a `nack` is made, by a client or by the loop of the
cleanup. What the counter is at these points follows from two statements about each message
(`deliveries_rule`): one for messages that were never moved, one for those that were.
-/

namespace Oxideq

variable {α : Type}

section Deliveries

variable [DecidableEq α]

/-- How often the queue has handed the message out since the message arrived there last. -/
def deliveriesSince (queue : String) (m : α) (ds : List (Deed α)) : ℕ :=
  ds.foldl (fun n d =>
    match d with
    | .enqueue q m' => if q = queue ∧ m' = m then 0 else n
    | .hand q m' => if q = queue ∧ m' = m then n + 1 else n
    | .bury q m' => if q = queue ∧ m' = m then 0 else n) 0

/-- The messages that were moved to a dead-letter queue. -/
def buriedBy (ds : List (Deed α)) : List α :=
  ds.filterMap fun
    | .enqueue _ _ => none
    | .hand _ _ => none
    | .bury _ m => some m

/-- How often the message was handed out, from any queue. -/
def deliveries (m : α) (ds : List (Deed α)) : ℕ := (Tally.ofDeeds ds).times m

/-! ### Counting -/

variable {queue : String} {m : α} {ds ds' : List (Deed α)}

theorem deliveriesSince_append (d : Deed α) :
    deliveriesSince queue m (ds ++ [d])
      = match d with
        | .enqueue q m' => if q = queue ∧ m' = m then 0 else deliveriesSince queue m ds
        | .hand q m' =>
          if q = queue ∧ m' = m then deliveriesSince queue m ds + 1 else deliveriesSince queue m ds
        | .bury q m' => if q = queue ∧ m' = m then 0 else deliveriesSince queue m ds := by
  rw [deliveriesSince, List.foldl_append]
  rfl

/-- Deeds done with other messages do not count, -/
theorem deliveriesSince_of_ne (h : ∀ d ∈ ds', d.message ≠ m) :
    deliveriesSince queue m (ds ++ ds') = deliveriesSince queue m ds := by
  induction ds' using List.reverseRecOn with
  | nil => rw [List.append_nil]
  | append_singleton ds' d ih =>
    have hd : d.message ≠ m := h d (List.mem_append_right _ List.mem_cons_self)
    have hother := ih fun d' hd' => h d' (List.mem_append_left _ hd')
    rw [← List.append_assoc, deliveriesSince_append, hother]
    cases d with
    | enqueue q m' => exact if_neg fun hq => hd hq.2
    | hand q m' => exact if_neg fun hq => hd hq.2
    | bury q m' => exact if_neg fun hq => hd hq.2

/-- and where nothing was delivered, enqueuing delivers nothing. -/
theorem deliveriesSince_enqueue (h : deliveriesSince queue m ds = 0) (name : String)
    (items : List α) : deliveriesSince queue m (ds ++ items.map (.enqueue name)) = 0 := by
  induction items using List.reverseRecOn with
  | nil => rwa [List.map_nil, List.append_nil]
  | append_singleton items item ih =>
    rw [List.map_append, List.map_singleton, ← List.append_assoc, deliveriesSince_append]
    simp only
    split
    · rfl
    · exact ih

theorem deliveries_append :
    deliveries m (ds ++ ds') = deliveries m ds + deliveries m ds' := by
  rw [deliveries, Tally.ofDeeds_append, Tally.times_append]
  rfl

theorem deliveries_of_ne (h : ∀ d ∈ ds, d.message ≠ m) : deliveries m ds = 0 := by
  refine List.count_eq_zero.mpr fun hm => ?_
  obtain ⟨d, hd, hsome⟩ := List.mem_filterMap.mp hm
  cases d with
  | enqueue q m' => cases hsome
  | hand q m' =>
    cases hsome
    exact h _ hd rfl
  | bury q m' => cases hsome

theorem deliveries_enqueue (items : List α) :
    deliveries m (items.map (.enqueue queue)) = 0 := by
  rw [deliveries, Tally.ofDeeds_enqueue]
  exact List.count_nil

theorem deliveries_hand : deliveries m [Deed.hand queue m] = 1 := by
  change [m].count m = 1
  exact List.count_singleton_self

theorem deliveries_bury (m' : α) : deliveries m [Deed.bury queue m'] = 0 := by
  change ([] : List α).count m = 0
  exact List.count_nil

omit [DecidableEq α] in
theorem mem_buriedBy : m ∈ buriedBy ds ↔ ∃ q, Deed.bury q m ∈ ds := by
  rw [buriedBy, List.mem_filterMap]
  constructor
  · rintro ⟨d, hd, hsome⟩
    cases d with
    | enqueue q m' => cases hsome
    | hand q m' => cases hsome
    | bury q m' =>
      cases hsome
      exact ⟨q, hd⟩
  · rintro ⟨q, hq⟩
    exact ⟨_, hq, rfl⟩

omit [DecidableEq α] in
theorem buriedBy_append : buriedBy (ds ++ ds') = buriedBy ds ++ buriedBy ds' :=
  List.filterMap_append

omit [DecidableEq α] in
theorem mem_buriedBy_of_ne (h : ∀ d ∈ ds', d.message ≠ m) :
    m ∈ buriedBy (ds ++ ds') ↔ m ∈ buriedBy ds := by
  rw [buriedBy_append, List.mem_append, or_iff_left]
  rw [mem_buriedBy]
  rintro ⟨q, hq⟩
  exact h _ hq rfl

/-! ### Deliveries of messages that were moved, and of the others -/

/-- The deliveries of a message whose place allows `n` deliveries from a first queue: all of them
are from the queue where it is, and they are at most `n`. One that was moved was handed out from
that queue `n - 4` times, and `n + 1` times or more in all. -/
def Counted (n : ℕ) (ds : List (Deed α)) (queue : String) (m : α) : Prop :=
  (m ∉ buriedBy ds → deliveriesSince queue m ds = deliveries m ds ∧ deliveries m ds ≤ n) ∧
  (m ∈ buriedBy ds → deliveries m ds < 2 ^ 32 →
    deliveriesSince queue m ds = n - 4 ∧ n + 1 ≤ deliveries m ds)

theorem Counted.other {n : ℕ} (h : Counted n ds queue m) (hne : ∀ d ∈ ds', d.message ≠ m) :
    Counted n (ds ++ ds') queue m := by
  rw [Counted, mem_buriedBy_of_ne hne, deliveriesSince_of_ne hne, deliveries_append,
    deliveries_of_ne hne, Nat.add_zero]
  exact h

/-- A delivery counts once, and from the queue where the message is. -/
theorem Counted.hand (h : Counted 4 ds queue m) : Counted 5 (ds ++ [.hand queue m]) queue m := by
  have hburied : m ∈ buriedBy (ds ++ [.hand queue m]) ↔ m ∈ buriedBy ds := by
    rw [buriedBy_append]
    exact (List.append_nil (buriedBy ds)).symm ▸ Iff.rfl
  have hsince : deliveriesSince queue m (ds ++ [.hand queue m])
      = deliveriesSince queue m ds + 1 := by
    rw [deliveriesSince_append]
    exact if_pos ⟨rfl, rfl⟩
  rw [Counted, hburied, hsince, deliveries_append, deliveries_hand]
  obtain ⟨hnot, hmoved⟩ := h
  refine ⟨fun hm => ?_, fun hm hlt => ?_⟩
  · obtain ⟨heq, hle⟩ := hnot hm
    exact ⟨congrArg (· + 1) heq, Nat.succ_le_succ hle⟩
  · obtain ⟨heq, hle⟩ := hmoved hm (Nat.lt_of_succ_lt hlt)
    exact ⟨congrArg (· + 1) heq, Nat.succ_le_succ hle⟩

/-- A message that was never moved is exhausted by its fifth delivery, and one that was moved is
exhausted. -/
theorem Counted.exhausted {task : InFlightTask α} (h : Counted 5 ds task.queueName task.data)
    (hloc : task.Located (.ofDeeds ds)) (hlt : deliveries task.data ds < 2 ^ 32) :
    task.exhausted = true ↔ task.data ∈ buriedBy ds ∨ deliveries task.data ds = 5 := by
  rw [hloc.exhausted_iff hlt]
  change 5 ≤ deliveries task.data ds ↔ _
  obtain ⟨hnot, hmoved⟩ := h
  by_cases hm : task.data ∈ buriedBy ds
  · have hle := (hmoved hm hlt).2
    exact ⟨fun _ => Or.inl hm, fun _ => by omega⟩
  · have hle := (hnot hm).2
    rw [or_iff_right hm]
    omega

/-- **What the deeds say of a message.** One that was never moved has had four deliveries at most
where it waits, five where it was taken; one that was moved has had no delivery where it waits. -/
theorem deliveries_rule : MessageRule (α := α) (Counted 4) (Counted 5) where
  waits_other h hne := h.other hne
  taken_other h hne := h.other hne
  enqueue {ds q m items} hne _ := by
    -- a message that has just arrived was never handed out, from no queue
    have hdeliveries : deliveries m (ds ++ items.map (.enqueue q)) = 0 := by
      rw [deliveries_append, deliveries_of_ne hne, deliveries_enqueue]
    have hsince : deliveriesSince q m ds = 0 := by
      have hnil : deliveriesSince q m ([] ++ ds) = deliveriesSince q m [] :=
        deliveriesSince_of_ne hne
      rwa [List.nil_append] at hnil
    have hnot : m ∉ buriedBy (ds ++ items.map (.enqueue q)) := by
      rw [mem_buriedBy]
      rintro ⟨q', hq'⟩
      rcases List.mem_append.mp hq' with hold | hnew
      · exact hne _ hold rfl
      · obtain ⟨m', -, heq⟩ := List.mem_map.mp hnew
        cases heq
    refine ⟨fun _ => ?_, fun hm => absurd hm hnot⟩
    rw [hdeliveries, deliveriesSince_enqueue hsince]
    exact ⟨rfl, Nat.zero_le 4⟩
  hand h := h.hand
  bury {ds task} hloc hx h := by
    have hburied : task.data ∈ buriedBy (ds ++ [.bury (dlqName task.queueName) task.data]) :=
      mem_buriedBy.mpr ⟨_, List.mem_append_right _ List.mem_cons_self⟩
    have hsince : deliveriesSince (dlqName task.queueName) task.data
        (ds ++ [.bury (dlqName task.queueName) task.data]) = 0 := by
      rw [deliveriesSince_append]
      exact if_pos ⟨rfl, rfl⟩
    -- it is in the dead-letter queue now, where its deliveries start from zero again
    refine ⟨fun hnot => absurd hburied hnot, fun _ hlt => ⟨hsince, ?_⟩⟩
    rw [deliveries_append, deliveries_bury, Nat.add_zero] at hlt ⊢
    exact (hloc.exhausted_iff hlt).mp hx
  giveBack {ds task} hloc hx h := by
    -- a task that goes back to its queue was not exhausted
    have hfew : deliveries task.data ds < 2 ^ 32 → deliveries task.data ds < 5 := by
      intro hlt
      by_contra hmany
      rw [(hloc.exhausted_iff hlt).mpr (Nat.not_lt.mp hmany)] at hx
      cases hx
    obtain ⟨hnot, hmoved⟩ := h
    refine ⟨fun hm => ?_, fun hm hlt => ?_⟩
    · obtain ⟨heq, hle⟩ := hnot hm
      exact ⟨heq, Nat.le_of_lt_succ (hfew (by omega))⟩
    -- a message that was moved has had five, so it is not among those that go back
    · have hle := (hmoved hm hlt).2
      have hlt5 := hfew hlt
      omega

end Deliveries

/-! ### The points of a run at which a `nack` is made -/

/-- A `nack` of a run: the deeds before it, the store it finds, and its id. -/
structure NackPoint (α : Type) where
  deeds : List (Deed α)
  store : InMemoryStorage α
  env : Env
  taskId : String

namespace InMemoryStorage

/-- The deeds of one `nack`. -/
def nackDeeds (s : InMemoryStorage α) (env : Env) (taskId : String) : List (Deed α) :=
  match (s.nack env taskId).1 with
  | .ok () => s.buried taskId
  | _ => []

/-- The `nack`s of the loop of `cleanup_expired_tasks`. -/
def nackAllPoints (ds : List (Deed α)) (s : InMemoryStorage α) (envs : ℕ → Env) :
    List String → List (NackPoint α)
  | [] => []
  | id :: ids =>
    ⟨ds, s, envs 0, id⟩ ::
      nackAllPoints (ds ++ s.nackDeeds (envs 0) id) (s.nack (envs 0) id).2
        (fun k => envs (k + 1)) ids

/-- The `nack`s of a call. -/
def nackPoints (ds : List (Deed α)) (s : InMemoryStorage α) (envs : ℕ → Env) :
    Call α → List (NackPoint α)
  | .nack taskId => [⟨ds, s, envs 0, taskId⟩]
  | .cleanupExpiredTasks timeoutSeconds =>
    match s.scanExpiredTasks (envs 0) timeoutSeconds with
    | .ok expired => nackAllPoints ds s (fun k => envs (k + 1)) expired
    | _ => []
  | _ => []

/-- The `nack`s of the calls, made one after the other. -/
def nackPointsAll (s : InMemoryStorage α × List (Deed α)) :
    List ((ℕ → Env) × Call α) → List (NackPoint α)
  | [] => []
  | ev :: events => nackPoints s.2 s.1 ev.1 ev.2 ++ nackPointsAll (chronicled s ev) events

/-- The `nack`s of a run from an empty store. -/
def nacks (persistent : Bool) (envs : ℕ → Env) (events : List ((ℕ → Env) × Call α)) :
    List (NackPoint ((ℕ × ℕ) × α)) :=
  nackPointsAll ((Journal.first persistent envs).store, []) (tagRun 0 events)

end InMemoryStorage

namespace NackPoint

variable [DecidableEq α]

/-- **The rule.** If the `nack` is accepted and its queue has handed the message out fewer than five
times since it arrived there, the message is put back at the front; if this was the fifth time, it
goes to the back of the dead-letter queue. Nothing else happens to the queues. -/
def FiveFailures (p : NackPoint α) : Prop :=
  ∀ task, p.store.inFlight.lookup p.taskId = some task →
    (p.store.nack p.env p.taskId).1 = .ok () →
      (deliveriesSince task.queueName task.data p.deeds < 5 →
        (p.store.nack p.env p.taskId).2.queues
          = p.store.queues.insert task.queueName (task.item :: p.store.items task.queueName)) ∧
      (deliveriesSince task.queueName task.data p.deeds = 5 →
        (p.store.nack p.env p.taskId).2.queues
          = p.store.queues.insert (dlqName task.queueName)
              (p.store.items (dlqName task.queueName) ++ [task.item]))

/-- The message of the `nack` was not moved to a dead-letter queue before. -/
def NeverMoved (p : NackPoint α) : Prop :=
  ∀ task, p.store.inFlight.lookup p.taskId = some task → task.data ∉ buriedBy p.deeds

/-- Deeds and store are right, and so are the counts of all messages. -/
structure Sound (p : NackPoint α) : Prop where
  chronicle : Chronicle p.deeds p.store
  counted : Everywhere (Counted 4) (Counted 5) p.deeds p.store

end NackPoint

/-! ### The counts at these points -/

section Points

variable [DecidableEq α]

/-- The counts are right at every `nack` of the loop. -/
theorem sound_nackAllPoints {ds : List (Deed α)} {s : InMemoryStorage α}
    (hc : Chronicle ds s) (h : Everywhere (Counted 4) (Counted 5) ds s)
    (hfresh : (enqueuedBy ds).Nodup) (envs : ℕ → Env) (ids : List String) :
    ∀ p ∈ InMemoryStorage.nackAllPoints ds s envs ids, p.Sound := by
  induction ids generalizing ds s envs with
  | nil => exact fun p hp => absurd hp List.not_mem_nil
  | cons id ids ih =>
    rw [InMemoryStorage.nackAllPoints, List.forall_mem_cons]
    refine ⟨⟨hc, h⟩, ?_⟩
    -- a `nack` enqueues nothing
    have henqueued : enqueuedBy (s.nackDeeds (envs 0) id) = [] := by
      unfold InMemoryStorage.nackDeeds
      split
      · rw [enqueuedBy, InMemoryStorage.tally_buried]
        rfl
      · rfl
    have hfresh' : (enqueuedBy (ds ++ s.nackDeeds (envs 0) id)).Nodup := by
      rwa [enqueuedBy_append, henqueued, List.append_nil]
    obtain ⟨hc', h'⟩ := deliveries_rule.keptByActs.acts hc h (s.nack_acts (envs 0) id) hfresh'
    exact ih hc' h' hfresh' _

theorem sound_nackPoints {ds : List (Deed α)} {s : InMemoryStorage α}
    (hc : Chronicle ds s) (h : Everywhere (Counted 4) (Counted 5) ds s)
    (hfresh : (enqueuedBy ds).Nodup) (envs : ℕ → Env) (c : Call α) :
    ∀ p ∈ s.nackPoints ds envs c, p.Sound := by
  cases c with
  | nack taskId =>
    intro p hp
    rw [List.mem_singleton.mp hp]
    exact ⟨hc, h⟩
  | cleanupExpiredTasks timeoutSeconds =>
    unfold InMemoryStorage.nackPoints
    simp only
    split
    · exact sound_nackAllPoints hc h hfresh _ _
    · exact fun p hp => absurd hp List.not_mem_nil
  | _ => exact fun p hp => absurd hp List.not_mem_nil

theorem sound_nackPointsAll {s : InMemoryStorage α × List (Deed α)} (hc : Chronicle s.2 s.1)
    (h : Everywhere (Counted 4) (Counted 5) s.2 s.1) {events : List ((ℕ → Env) × Call α)}
    (hfresh : (enqueuedBy (events.foldl InMemoryStorage.chronicled s).2).Nodup) :
    ∀ p ∈ InMemoryStorage.nackPointsAll s events, p.Sound := by
  induction events generalizing s with
  | nil => exact fun p hp => absurd hp List.not_mem_nil
  | cons ev events ih =>
    have hprefix : ∀ s' : InMemoryStorage α × List (Deed α), ∀ evs : List ((ℕ → Env) × Call α),
        (enqueuedBy (evs.foldl InMemoryStorage.chronicled s').2).Nodup →
          (enqueuedBy s'.2).Nodup := by
      intro s' evs hn
      obtain ⟨ds, hds⟩ := exists_foldl_chronicled s' evs
      rw [hds, enqueuedBy_append] at hn
      exact (List.nodup_append'.mp hn).1
    have hfirst := hprefix _ _ hfresh
    have hnext := hprefix (InMemoryStorage.chronicled s ev) events hfresh
    obtain ⟨hc', h'⟩ := deliveries_rule.keptByActs.acts hc h (s.1.call_acts ev.1 ev.2) hnext
    intro p hp
    rcases List.mem_append.mp hp with hp | hp
    · exact sound_nackPoints hc h hfirst ev.1 ev.2 p hp
    · exact ih hc' h' hfresh p hp

theorem sound_nacks (persistent : Bool) (envs : ℕ → Env) (events : List ((ℕ → Env) × Call α)) :
    ∀ p ∈ InMemoryStorage.nacks persistent envs events, p.Sound := by
  have hstart := InMemoryStorage.sameState_first (α := (ℕ × ℕ) × α) persistent envs
  exact sound_nackPointsAll (.nil hstart) (Everywhere.nil.sameState hstart)
    (InMemoryStorage.nodup_enqueuedBy persistent envs events)

end Points

/-! ### When the rule holds -/

namespace InMemoryStorage

variable {s : InMemoryStorage α} {env : Env} {id : String} {task : InFlightTask α}

/-- What an accepted `nack` does to the queues. -/
theorem queues_nack (hl : s.inFlight.lookup id = some task) (hok : (s.nack env id).1 = .ok ()) :
    (s.nack env id).2.queues
      = if task.exhausted then
          s.queues.insert (dlqName task.queueName)
            (s.items (dlqName task.queueName) ++ [task.item])
        else s.queues.insert task.queueName (task.item :: s.items task.queueName) := by
  unfold nack at hok ⊢
  simp only [hl] at hok ⊢
  obtain h | ⟨e, h⟩ := (s.dropTask id).logOp_cases env (.nack id)
  · simp only [h, requeue_logged] at hok ⊢
    cases hr : (s.dropTask id).requeue task with
    | error e =>
      rw [hr] at hok
      cases hok
    | ok s' =>
      change s'.queues = _
      unfold requeue at hr
      split at hr
      · next hx =>
        cases hr
        rw [if_pos hx]
        rfl
      · next hx =>
        cases hq : s.queues.lookup task.queueName with
        | none =>
          rw [show (s.dropTask id).queues.lookup task.queueName = none from hq] at hr
          cases hr
        | some old =>
          rw [show (s.dropTask id).queues.lookup task.queueName = some old from hq] at hr
          cases hr
          rw [if_neg hx, items_of_lookup hq]
          rfl
  · simp only [h] at hok
    cases hok

end InMemoryStorage

namespace NackPoint

variable [DecidableEq α] {p : NackPoint α}

/-- The rule holds for a message that was never moved, -/
theorem Sound.fiveFailures (h : p.Sound) (hnever : p.NeverMoved) : p.FiveFailures := by
  intro task hl hok
  have hcounted := h.counted.inFlight hl
  have hnot := hnever task hl
  obtain ⟨hsince, hle⟩ := hcounted.1 hnot
  have hlt : deliveries task.data p.deeds < 2 ^ 32 := by omega
  have hx := hcounted.exhausted (h.chronicle.located.inFlight hl) hlt
  rw [or_iff_right hnot] at hx
  -- `nack` asks for five deliveries in all, the rule for five from this queue: here they are one
  -- number
  rw [InMemoryStorage.queues_nack hl hok, hsince]
  constructor
  · intro hfew
    rw [if_neg fun hexhausted => absurd (hx.mp hexhausted) hfew.ne]
  · intro hfive
    rw [if_pos (hx.mpr hfive)]

/-- and is broken for one that was. -/
theorem Sound.not_fiveFailures (h : p.Sound) {task : InFlightTask α}
    (hl : p.store.inFlight.lookup p.taskId = some task)
    (hok : (p.store.nack p.env p.taskId).1 = .ok ()) (hm : task.data ∈ buriedBy p.deeds)
    (hlt : deliveries task.data p.deeds < 2 ^ 32) : ¬ p.FiveFailures := by
  intro hrule
  have hcounted := h.counted.inFlight hl
  have hx := (hcounted.exhausted (h.chronicle.located.inFlight hl) hlt).mpr (Or.inl hm)
  obtain ⟨hsince, -⟩ := hcounted.2 hm hlt
  -- its one delivery from this queue is fewer than five, so the rule wants it at the front
  have hfront := (hrule task hl hok).1 (by omega)
  rw [InMemoryStorage.queues_nack hl hok, if_pos hx] at hfront
  -- the item is in its own queue by the rule, and is not
  have hlookup := congrArg (fun queues => (queues.lookup task.queueName).getD []) hfront
  have hne : task.queueName ≠ dlqName task.queueName := by
    intro heq
    have hlen := congrArg String.length heq
    rw [dlqName, String.length_append] at hlen
    exact absurd hlen (Nat.ne_of_lt (Nat.lt_add_of_pos_right (by decide)))
  simp only [Finmap.lookup_insert, Finmap.lookup_insert_of_ne _ hne, Option.getD_some] at hlookup
  exact absurd (congrArg List.length hlookup) (Nat.ne_of_lt (Nat.lt_succ_self _))

end NackPoint

/-- **Five failures per queue.** At every `nack` of every run, by a client or by the cleanup, the
rule holds for messages that were never moved. It is broken at every accepted `nack` of a message
that was moved before, while its counter has not wrapped. -/
theorem InMemoryStorage.five_failures [DecidableEq α] (persistent : Bool) (envs : ℕ → Env)
    (events : List ((ℕ → Env) × Call α)) :
    ∀ p ∈ nacks persistent envs events,
      (p.NeverMoved → p.FiveFailures) ∧
      (∀ task, p.store.inFlight.lookup p.taskId = some task →
        (p.store.nack p.env p.taskId).1 = .ok () → task.data ∈ buriedBy p.deeds →
          deliveries task.data p.deeds < 2 ^ 32 → ¬ p.FiveFailures) := by
  intro p hp
  have hsound := sound_nacks persistent envs events p hp
  exact ⟨hsound.fiveFailures, fun task hl hok hm hlt => hsound.not_fiveFailures hl hok hm hlt⟩

/-- A message fails five times, and once more as a dead letter. -/
def sixFailures : List ((ℕ → Env) × Call Bytes) :=
  let envs : ℕ → Env := fun _ => Env.quiet ["t"]
  let fail : List ((ℕ → Env) × Call Bytes) := [(envs, .dequeue "q"), (envs, .nack "t")]
  [(envs, .createQueue "q"), (envs, .queue "q" [7])]
    ++ (List.replicate 5 fail).flatten ++ [(envs, .dequeue "q_dlq"), (envs, .nack "t")]

/-- The `nack`s of this run. -/
def sixFailures.point (i : Fin 6) : NackPoint ((ℕ × ℕ) × Bytes) :=
  (InMemoryStorage.nacks false (fun _ => Env.quiet []) sixFailures).get
    (i.cast (by decide +kernel))

theorem sixFailures.point_mem (i : Fin 6) :
    sixFailures.point i ∈ InMemoryStorage.nacks false (fun _ => Env.quiet []) sixFailures :=
  List.get_mem ..

/-- The task of the sixth. -/
theorem sixFailures.lookup_point :
    (sixFailures.point 5).store.inFlight.lookup (sixFailures.point 5).taskId
      = some ⟨"t", ((1, 0), [7]), 0, "q_dlq", 6⟩ := by
  decide +kernel

theorem sixFailures.nack_point :
    ((sixFailures.point 5).store.nack (sixFailures.point 5).env (sixFailures.point 5).taskId).1
      = .ok () := by
  decide +kernel

/-- The first five are as they should be, the sixth is not. -/
theorem InMemoryStorage.five_failures_sixFailures :
    (sixFailures.point 4).FiveFailures ∧ ¬ (sixFailures.point 5).FiveFailures := by
  constructor
  · refine (five_failures false (fun _ => Env.quiet []) sixFailures _
      (sixFailures.point_mem 4)).1 fun task _ hm => ?_
    have hnone : buriedBy (sixFailures.point 4).deeds = [] := by decide +kernel
    rw [hnone] at hm
    exact List.not_mem_nil hm
  · exact (five_failures false (fun _ => Env.quiet []) sixFailures _
      (sixFailures.point_mem 5)).2 _ sixFailures.lookup_point sixFailures.nack_point
      (by decide +kernel) (by decide +kernel)

/-- The dead letter has one failure in its queue, and is moved on. -/
theorem InMemoryStorage.not_forall_fiveFailures :
    ¬ ∀ (persistent : Bool) (envs : ℕ → Env) (events : List ((ℕ → Env) × Call Bytes)),
      ∀ p ∈ nacks persistent envs events, p.FiveFailures := by
  intro h
  have hrule := h false (fun _ => Env.quiet []) sixFailures _ (sixFailures.point_mem 5) _
    sixFailures.lookup_point sixFailures.nack_point
  have hone : deliveriesSince "q_dlq" ((1, 0), [7]) (sixFailures.point 5).deeds = 1 := by
    decide +kernel
  have hfront := hrule.1 (by rw [hone]; decide)
  -- the rule puts it back at the front of `q_dlq`, and `nack` leaves that queue empty
  have hlookup := congrArg (fun queues => (queues.lookup "q_dlq").map List.length) hfront
  have hempty : (((sixFailures.point 5).store.nack (sixFailures.point 5).env
      (sixFailures.point 5).taskId).2.queues.lookup "q_dlq").map List.length = some 0 := by
    decide +kernel
  simp only [hempty, Finmap.lookup_insert, Option.map_some, List.length_cons] at hlookup
  cases hlookup

end Oxideq
