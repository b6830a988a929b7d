import Mathlib.Data.Fin.VecNotation
import Oxideq.Concurrent.BatchAck

/-!
# Accounts over restarts

What a restart finds in the log is accounted for to the message: together with what the log has
acknowledged, it is what was there before and what was enqueued since, neither less nor more
(`Config.Traced.account`). A message whose enqueue is logged and not pushed yet is already there
for the replay (`Phase.due`), and a message whose acknowledgement is not logged yet is still there.

The replayed queues are those of the tables with what the calls have in hand at their ends, so
their contents are summed over the queues and, in the other order, over the calls
(`Config.Traced.pendingData`). Which ids the log has acknowledged is kept in step with the record
(`Config.LogAcks`). The next life begins with what the restart has found, so the accounts add up
over any number of lives (`Config.account_lives`).
-/

namespace Oxideq

variable {ι α : Type}

/-! ### Contents of queues -/

namespace InMemoryStorage

/-- The payloads pending, queue by queue. -/
theorem pendingData_eq_sum (s : InMemoryStorage α) {S : Finset String} (h : ∀ q ∈ s.queues, q ∈ S) :
    s.pendingData = ∑ q ∈ S, ((s.items q).map QueueItem.data : Multiset α) := by
  rw [pendingData, Table.total_eq_sum queueShare h]
  refine Finset.sum_congr rfl fun q _ => ?_
  unfold items
  cases s.queues.lookup q <;> rfl

end InMemoryStorage

namespace Work

variable {w : Work α} {S : Finset String}

/-- What the work has popped it hands out. -/
theorem sum_popped (h : ∀ name, w.target = some name → name ∈ S) :
    ∑ q ∈ S, ((w.popped q).map QueueItem.data : Multiset α)
      = (w.delivered.map InFlightTask.data : Multiset α) := by
  cases w with
  | dequeue name item taskId =>
    rw [Finset.sum_eq_single_of_mem name (h name rfl) fun q _ hq => by simp [popped, hq]]
    simp [popped, delivered, InFlightTask.deliver]
  | dequeueBatch name deliveries =>
    rw [Finset.sum_eq_single_of_mem name (h name rfl) fun q _ hq => by simp [popped, hq]]
    simp [popped, delivered, InFlightTask.deliver, Function.comp_def]
  | _ => exact Finset.sum_eq_zero fun q _ => rfl

/-- What the work will push it returns, or it is new. -/
theorem sum_pushed (htarget : ∀ name, w.target = some name → name ∈ S)
    (hmakes : ∀ name, w.makes = some name → name ∈ S) :
    ∑ q ∈ S, ((w.frontPush q).map QueueItem.data + (w.backPush q).map QueueItem.data : Multiset α)
      = (w.returned.map InFlightTask.data + w.offers : Multiset α) := by
  cases w with
  | queue name item =>
    rw [Finset.sum_eq_single_of_mem name (htarget name rfl) fun q _ hq => by
      simp [frontPush, backPush, hq]]
    simp [frontPush, backPush, returned, offers]
  | queueBatch name items =>
    rw [Finset.sum_eq_single_of_mem name (htarget name rfl) fun q _ hq => by
      simp [frontPush, backPush, hq]]
    simp [frontPush, backPush, returned, offers, Function.comp_def]
  | nack id task =>
    cases hex : task.exhausted with
    | true =>
      rw [Finset.sum_eq_single_of_mem (dlqName task.queueName)
        (hmakes _ (by simp [makes, hex])) fun q _ hq => by simp [frontPush, backPush, hex, hq]]
      simp [frontPush, backPush, returned, offers, hex]
    | false =>
      rw [Finset.sum_eq_single_of_mem task.queueName (htarget _ rfl) fun q _ hq => by
        simp [frontPush, backPush, hex, hq]]
      simp [frontPush, backPush, returned, offers, hex]
  | _ => exact Finset.sum_eq_zero fun q _ => rfl

end Work

namespace Phase

/-- The payloads enqueued by the log and not pushed yet. -/
def due : Phase α → List α
  | .logged w => w.offers
  | _ => []

/-- The payloads in hand that are pending by the log: those popped are so until their delivery is
logged, those to be pushed are so from then on. -/
def onQueues : Phase α → Multiset α
  | .idle => 0
  | .unlogged w => w.delivered.map InFlightTask.data
  | .logged w => w.returned.map InFlightTask.data + w.offers

/-- By the log, what is in hand is pending or in flight. -/
theorem onQueues_add_shadow (p : Phase α) :
    p.onQueues + p.shadow.map InFlightTask.data = p.tasks.map InFlightTask.data + p.due := by
  cases p with
  | idle => rfl
  | unlogged w => simp [onQueues, shadow, due, Work.tasks]
  | logged w =>
    simp only [onQueues, shadow, due, tasks, Work.tasks, List.map_append, Multiset.map_coe,
      ← Multiset.coe_add]
    abel

end Phase

namespace Config

section Sums

variable [Fintype ι] {entries : List (WalEntry α)} {base : Multiset α}
  {s : Config ι α × History ι α} {q : String} {popped : List (QueueItem α)}

/-- What is popped and not logged is in the hands of one call. -/
theorem Held.sum (h : Held s.1 q popped) (hg : Guarded s.1) :
    (popped : Multiset (QueueItem α))
      = ∑ i, ((s.1.phases i).popped q : Multiset (QueueItem α)) := by
  -- at most one call holds the entry of the queue, so the sum has at most one term
  by_cases hnone : ∀ i, (s.1.phases i).popped q = []
  · rw [h.eq_nil hnone]
    exact (Finset.sum_eq_zero fun i _ => by rw [hnone i]; rfl).symm
  · obtain ⟨i, hi⟩ := not_forall.mp hnone
    rw [Finset.sum_eq_single i (fun j _ hj => by rw [hg.popped hi hj]; rfl)
      fun hmem => absurd (Finset.mem_univ i) hmem, h.eq i hi]

omit [Fintype ι] in
/-- Who will push to an end of a queue is between its append and its last step. -/
theorem Ordered.mem_waiting (h : Ordered entries s) {i : ι}
    (hne : (s.1.phases i).front q ≠ [] ∨ (s.1.phases i).back q ≠ []) : i ∈ s.2.waiting := by
  rw [h.waiting]
  cases hp : s.1.phases i with
  | logged w => exact ⟨w, rfl⟩
  | _ => rw [hp] at hne; rcases hne with hne | hne <;> exact absurd rfl hne

/-- The items of a replayed queue, as those of the table and those in hand. -/
theorem Ordered.sum_items (h : Ordered entries s) (q : String) :
    ((rebuilt entries s.1).items q : Multiset (QueueItem α))
      = s.1.store.items q + ∑ i, ((s.1.phases i).popped q
          + ((s.1.phases i).front q + (s.1.phases i).back q) : Multiset (QueueItem α)) := by
  obtain ⟨popped, hheld, hitems⟩ := h.items q
  have hfronts : (fronts s q : Multiset (QueueItem α))
      = ∑ i, ((s.1.phases i).front q : Multiset (QueueItem α)) :=
    System.coe_flatMap (List.nodup_reverse.mpr h.nodup) fun i hi =>
      List.mem_reverse.mpr (h.mem_waiting (Or.inl hi))
  have hbacks : (backs s q : Multiset (QueueItem α))
      = ∑ i, ((s.1.phases i).back q : Multiset (QueueItem α)) :=
    System.coe_flatMap h.nodup fun i hi => h.mem_waiting (Or.inr hi)
  -- as a multiset it does not matter at which end of the queue the items are
  rw [hitems, Finset.sum_add_distrib, Finset.sum_add_distrib, ← hheld.sum h.guarded, ← hfronts,
    ← hbacks, ← Multiset.coe_add, ← Multiset.coe_add, ← Multiset.coe_add]
  abel

/-- What a call has in hand on the queues of the log. -/
theorem Traced.sum_onQueues (h : Traced entries base s) (i : ι) :
    ∑ q ∈ (rebuilt entries s.1).queues.keys, (((s.1.phases i).popped q
        + ((s.1.phases i).front q + (s.1.phases i).back q) : Multiset (QueueItem α)).map
          QueueItem.data)
      = (s.1.phases i).onQueues := by
  have hvalid := h.balanced.phases i
  have hqueues : ∀ {name}, name ∈ s.1.store.queues →
      name ∈ (rebuilt entries s.1).queues.keys := fun hname =>
    Finmap.mem_keys.mpr (h.aligned.keys _ hname)
  cases hp : s.1.phases i with
  | idle => exact Finset.sum_eq_zero fun q _ => rfl
  | unlogged w =>
    rw [hp] at hvalid
    refine Eq.trans (Finset.sum_congr rfl fun q _ => ?_)
      (w.sum_popped fun name hname => hqueues (hvalid.target_mem hname))
    simp [Phase.popped, Phase.front, Phase.back]
  | logged w =>
    rw [hp] at hvalid
    refine Eq.trans (Finset.sum_congr rfl fun q _ => ?_)
      (w.sum_pushed (fun name hname => hqueues (hvalid.target_mem hname)) fun name hname =>
        Finmap.mem_keys.mpr (h.aligned.made i w name hp hname))
    simp [Phase.popped, Phase.front, Phase.back]

/-- **What is pending in a replay** is pending in the tables, or in hand. -/
theorem Traced.pendingData (h : Traced entries base s) :
    (rebuilt entries s.1).pendingData
      = s.1.store.pendingData + ∑ i, (s.1.phases i).onQueues := by
  have hkeys : ∀ q ∈ s.1.store.queues, q ∈ (rebuilt entries s.1).queues.keys := fun q hq =>
    Finmap.mem_keys.mpr (h.aligned.keys q hq)
  rw [InMemoryStorage.pendingData_eq_sum _ fun q => Finmap.mem_keys.mpr,
    InMemoryStorage.pendingData_eq_sum _ hkeys]
  -- the sums over queues and over calls change places
  rw [← Finset.sum_congr rfl fun i _ => h.sum_onQueues i, Finset.sum_comm,
    ← Finset.sum_add_distrib]
  refine Finset.sum_congr rfl fun q _ => ?_
  rw [← Multiset.map_coe, h.ordered.sum_items q, Multiset.map_add, Multiset.map_coe]
  exact congrArg _ (map_sum (Multiset.mapAddMonoidHom QueueItem.data) _ _)

end Sums

end Config

/-! ### What the log has acknowledged -/

/-- The ids an entry acknowledges. -/
def WalOp.acknowledges : WalOp α → List String
  | .ack taskId => [taskId]
  | .ackBatch taskIds => taskIds
  | _ => []

/-- The ids acknowledged in the log since the start. -/
def InMemoryStorage.acknowledgedIds (s : InMemoryStorage α) : List String :=
  s.ops.flatMap WalOp.acknowledges

/-- The ids a call is to acknowledge. -/
def Call.acknowledges : Call α → List String
  | .ack taskId => [taskId]
  | .ackBatch taskIds => taskIds
  | _ => []

namespace Config

variable [Fintype ι]

/-- The tasks in flight, in hand or removed that the log has acknowledged. -/
def ackedByLog (s : Config ι α × History ι α) : Multiset (InFlightTask α) :=
  (s.1.tasks + s.2.acked).filter (·.id ∈ s.1.store.acknowledgedIds)

omit [Fintype ι] in
/-- The record of the acknowledgements and the log. -/
structure LogAcks (s : Config ι α × History ι α) : Prop where
  acked : ∀ t ∈ s.2.acked, t ∈ s.2.unwritten ∨ t.id ∈ s.1.store.acknowledgedIds
  logged : ∀ id ∈ s.1.store.acknowledgedIds, id ∈ s.2.settled ∨
    id ∈ s.2.acked.map InFlightTask.id ∧ id ∉ s.2.unwritten.map InFlightTask.id
  settled : ∀ id ∈ s.2.settled, id ∈ s.1.store.acknowledgedIds

section Account

variable {entries : List (WalEntry α)} {base : Multiset α} {s : Config ι α × History ι α}

omit [Fintype ι] in
/-- Of what is not removed by a logged `ack`, the log has acknowledged what is settled. -/
theorem LogAcks.filter_add (hl : LogAcks s) {m : Multiset (InFlightTask α)}
    (hm : ∀ t ∈ m, t.id ∉ s.2.acked.map InFlightTask.id ∨
      t.id ∈ s.2.unwritten.map InFlightTask.id) :
    m.filter (·.id ∉ s.2.settled) + m.filter (·.id ∈ s.1.store.acknowledgedIds) = m := by
  have hsame : m.filter (·.id ∈ s.1.store.acknowledgedIds) = m.filter (·.id ∈ s.2.settled) := by
    refine Multiset.filter_congr fun t ht => ⟨fun hlog => ?_, hl.settled t.id⟩
    refine (hl.logged t.id hlog).resolve_right fun hacked => ?_
    exact (hm t ht).elim (fun h => h hacked.1) hacked.2
  rw [hsame, add_comm]
  exact Multiset.filter_add_not _ m

/-- What is acknowledged by the log and what is in flight by the log. -/
theorem Traced.ackedByLog_add (h : Traced entries base s) (hl : LogAcks s) :
    (logTasks s).filter (·.id ∉ s.2.settled) + ackedByLog s = s.1.store.inFlightTasks
      + ∑ i, (s.1.phases i).shadow + s.2.acked := by
  have hb := h.balanced
  -- what the calls have in hand is neither settled nor acknowledged
  have hhands : (∑ i, ((s.1.phases i).tasks : Multiset (InFlightTask α))).filter
      (·.id ∈ s.1.store.acknowledgedIds) = 0 := by
    refine Multiset.filter_eq_nil.mpr fun t ht hlog => ?_
    obtain ⟨i, -, hi⟩ := Multiset.mem_sum.mp ht
    rcases hl.logged t.id hlog with hsettled | hacked
    · exact hb.not_settled h.settled hi hsettled
    · exact hb.not_in_hands (Or.inr hacked.1) hi rfl
  -- nor is what the calls have taken out of the table without logging it
  have hshadows : (∑ i, (s.1.phases i).shadow).filter (·.id ∉ s.2.settled)
      = ∑ i, (s.1.phases i).shadow := by
    refine Multiset.filter_eq_self.mpr fun t ht => ?_
    obtain ⟨i, -, hi⟩ := Multiset.mem_sum.mp ht
    exact hb.not_settled h.settled
      (Multiset.mem_coe.mp (Multiset.mem_of_le (s.1.phases i).shadow_le_tasks hi))
  -- what an `ack` has removed is logged, unless it is on the record of those that are not
  obtain ⟨rest, hrest⟩ := Multiset.le_iff_exists_add.mp h.aligned.unwritten
  have hlogged : rest.filter (·.id ∈ s.1.store.acknowledgedIds) = rest := by
    refine Multiset.filter_eq_self.mpr fun t ht => ?_
    have hmem : t ∈ s.2.acked := by
      rw [← Multiset.mem_coe, hrest]
      exact Multiset.mem_add.mpr (Or.inr ht)
    refine (hl.acked t hmem).resolve_left fun hunwritten => ?_
    have hids := hb.ids
    rw [hrest, Multiset.map_add, Multiset.nodup_add, Multiset.map_add, Multiset.nodup_add] at hids
    exact Multiset.disjoint_left.mp hids.2.1.2.2
      (Multiset.mem_map_of_mem _ (Multiset.mem_coe.mpr hunwritten)) (Multiset.mem_map_of_mem _ ht)
  -- what is left is in the table or in the hands of an `ack`, where only batches acknowledge
  have htable := hl.filter_add (m := s.1.store.inFlightTasks) fun t ht =>
    Or.inl (hb.not_acked (Multiset.mem_add.mpr (Or.inl ht)))
  have hunwritten := hl.filter_add (m := s.2.unwritten) fun t ht =>
    Or.inr (List.mem_map_of_mem (Multiset.mem_coe.mp ht))
  rw [logTasks, ackedByLog, tasks, hrest]
  simp only [Multiset.filter_add]
  rw [hhands, hshadows, hlogged]
  calc _ = (s.1.store.inFlightTasks.filter (·.id ∉ s.2.settled)
          + s.1.store.inFlightTasks.filter (·.id ∈ s.1.store.acknowledgedIds))
        + ∑ i, (s.1.phases i).shadow
        + (((s.2.unwritten : Multiset (InFlightTask α)).filter (·.id ∉ s.2.settled)
          + (s.2.unwritten : Multiset (InFlightTask α)).filter
            (·.id ∈ s.1.store.acknowledgedIds)) + rest) := by abel
    _ = _ := by rw [htable, hunwritten]

/-- **The account of a replay.** -/
theorem Traced.account (h : Traced entries base s) (hl : LogAcks s) :
    (rebuilt entries s.1).messages + (ackedByLog s).map InFlightTask.data
      = base + s.2.pushed + ∑ i, ((s.1.phases i).due : Multiset α) := by
  have hshadows : (∑ i, (s.1.phases i).shadow).map InFlightTask.data
      = ∑ i, (s.1.phases i).shadow.map InFlightTask.data :=
    map_sum (Multiset.mapAddMonoidHom InFlightTask.data) _ _
  have hhands : (∑ i, ((s.1.phases i).tasks : Multiset (InFlightTask α))).map InFlightTask.data
      = ∑ i, ((s.1.phases i).tasks.map InFlightTask.data : Multiset α) :=
    map_sum (Multiset.mapAddMonoidHom InFlightTask.data) _ _
  -- call by call, what the log has of its tasks and its offers
  have hphases : ∑ i, (s.1.phases i).onQueues + ∑ i, (s.1.phases i).shadow.map InFlightTask.data
      = ∑ i, ((s.1.phases i).tasks.map InFlightTask.data : Multiset α)
        + ∑ i, ((s.1.phases i).due : Multiset α) := by
    rw [← Finset.sum_add_distrib, ← Finset.sum_add_distrib]
    exact Finset.sum_congr rfl fun i _ => (s.1.phases i).onQueues_add_shadow
  have htasks := congrArg (Multiset.map InFlightTask.data) (h.ackedByLog_add hl)
  rw [Multiset.map_add, Multiset.map_add, Multiset.map_add, hshadows] at htasks
  have hdata := h.balanced.data
  rw [tasks, Multiset.map_add, Multiset.map_add, hhands] at hdata
  calc (rebuilt entries s.1).messages + (ackedByLog s).map InFlightTask.data
      = s.1.store.pendingData + ∑ i, (s.1.phases i).onQueues
          + (((logTasks s).filter (·.id ∉ s.2.settled)).map InFlightTask.data
            + (ackedByLog s).map InFlightTask.data) := by
        rw [InMemoryStorage.messages, h.pendingData, h.aligned.tasks, add_assoc]
    _ = s.1.store.pendingData + (s.1.store.inFlightTasks.map InFlightTask.data
          + (∑ i, (s.1.phases i).onQueues + ∑ i, (s.1.phases i).shadow.map InFlightTask.data)
          + (s.2.acked : Multiset (InFlightTask α)).map InFlightTask.data) := by
        rw [htasks]; abel
    _ = s.1.store.pendingData + (s.1.store.inFlightTasks.map InFlightTask.data
          + ∑ i, ((s.1.phases i).tasks.map InFlightTask.data : Multiset α)
          + (s.2.acked : Multiset (InFlightTask α)).map InFlightTask.data)
          + ∑ i, ((s.1.phases i).due : Multiset α) := by
        rw [hphases]; abel
    _ = base + s.2.pushed + ∑ i, ((s.1.phases i).due : Multiset α) := by rw [hdata]

end Account

/-! ### Steps -/

section Step

variable [DecidableEq ι] {entries : List (WalEntry α)} {base : Multiset α}
  {s s' : Config ι α × History ι α} {l : ι × Env} {acks : List (InFlightTask α)}
  {ops : List (WalOp α)} {p p' : Phase α}

omit [Fintype ι] in
theorem Passes.acknowledgedIds (h : Passes s s' l acks ops p p') :
    s'.1.store.acknowledgedIds = s.1.store.acknowledgedIds ++ ops.flatMap WalOp.acknowledges := by
  rw [InMemoryStorage.acknowledgedIds, h.ops, List.flatMap_append]
  rfl

omit [Fintype ι] in
/-- A step that logs no acknowledgement. What it removes is put on the record of what is not
logged, or the log has acknowledged it. -/
theorem LogAcks.quiet (hl : LogAcks s) (h : Passes s s' l acks ops p p')
    (hops : ops.flatMap WalOp.acknowledges = []) (hsettles : History.settles p p' = [])
    (new : List (InFlightTask α)) (hunwritten : s'.2.unwritten = new ++ s.2.unwritten)
    (hnew : ∀ t ∈ new, t ∈ acks)
    (hacks : ∀ t ∈ acks, t ∈ new ∨ t.id ∈ s.1.store.acknowledgedIds)
    (hids : (s'.2.acked.map InFlightTask.id).Nodup) : LogAcks s' := by
  have hlog : s'.1.store.acknowledgedIds = s.1.store.acknowledgedIds := by
    rw [h.acknowledgedIds, hops, List.append_nil]
  have hset : s'.2.settled = s.2.settled := by rw [h.settled, hsettles, List.nil_append]
  rw [h.acked, List.map_append, List.nodup_append] at hids
  constructor
  · intro t ht
    rw [hlog, hunwritten, List.mem_append]
    rw [h.acked] at ht
    rcases List.mem_append.mp ht with ht | ht
    · exact (hacks t ht).imp_left Or.inl
    · exact (hl.acked t ht).imp_left Or.inr
  · intro id hid
    rw [hlog] at hid
    rw [hset, hunwritten, h.acked, List.map_append, List.map_append, List.mem_append,
      List.mem_append, not_or]
    refine (hl.logged id hid).imp_right fun ⟨hold, hnot⟩ => ⟨Or.inr hold, fun hmem => ?_, hnot⟩
    -- an id is not acknowledged twice
    obtain ⟨t, ht, rfl⟩ := List.mem_map.mp hmem
    exact hids.2.2 _ (List.mem_map_of_mem (hnew t ht)) _ hold rfl
  · intro id hid
    rw [hset] at hid
    rw [hlog]
    exact hl.settled id hid

omit [Fintype ι] in
/-- The entry of an `ack` takes its task off the record of what is not logged. -/
theorem LogAcks.ack {id : String} (hl : LogAcks s)
    (h : Passes s s' l [] [.ack id] (.unlogged (.ack id)) (.logged (.ack id)))
    (hid : id ∈ s.2.acked.map InFlightTask.id) : LogAcks s' := by
  have hlog : s'.1.store.acknowledgedIds = s.1.store.acknowledgedIds ++ [id] := h.acknowledgedIds
  have hacked : s'.2.acked = s.2.acked := h.acked
  have hset : s'.2.settled = s.2.settled := h.settled
  have hunwritten : s'.2.unwritten = s.2.unwritten.filter (·.id ≠ id) := h.unwritten
  constructor
  · intro t ht
    rw [hacked] at ht
    rw [hlog, hunwritten, List.mem_append, List.mem_singleton]
    by_cases heq : t.id = id
    · exact Or.inr (Or.inr heq)
    · refine (hl.acked t ht).imp (fun hmem => List.mem_filter.mpr ⟨hmem, ?_⟩) Or.inl
      exact decide_eq_true heq
  · intro id' hid'
    rw [hlog, List.mem_append, List.mem_singleton] at hid'
    rw [hset, hacked, hunwritten]
    rcases hid' with hold | rfl
    · refine (hl.logged id' hold).imp_right fun ⟨hold, hnot⟩ => ⟨hold, fun hmem => hnot ?_⟩
      obtain ⟨t, ht, hid⟩ := List.mem_map.mp hmem
      exact List.mem_map.mpr ⟨t, List.mem_of_mem_filter ht, hid⟩
    · refine Or.inr ⟨hid, fun hmem => ?_⟩
      obtain ⟨t, ht, heq⟩ := List.mem_map.mp hmem
      exact of_decide_eq_true (List.mem_filter.mp ht).2 heq
  · intro id' hid'
    rw [hset] at hid'
    rw [hlog]
    exact List.mem_append_left _ (hl.settled id' hid')

omit [Fintype ι] in
/-- The entry of an `ack_batch` settles its ids. -/
theorem LogAcks.ackBatch {ids : List String} (hl : LogAcks s)
    (h : Passes s s' l [] [.ackBatch ids] (.unlogged (.ackBatch ids)) (.logged (.ackBatch ids))) :
    LogAcks s' := by
  have hlog : s'.1.store.acknowledgedIds = s.1.store.acknowledgedIds ++ ids := by
    rw [h.acknowledgedIds, List.flatMap_singleton]
    rfl
  have hacked : s'.2.acked = s.2.acked := h.acked
  have hset : s'.2.settled = ids ++ s.2.settled := h.settled
  have hunwritten : s'.2.unwritten = s.2.unwritten := h.unwritten
  constructor
  · intro t ht
    rw [hacked] at ht
    rw [hlog, hunwritten]
    exact (hl.acked t ht).imp_right (List.mem_append_left _)
  · intro id hid
    rw [hset, hacked, hunwritten]
    rcases List.mem_append.mp (hlog ▸ hid) with hold | hnew
    · exact (hl.logged id hold).imp_left (List.mem_append_right _)
    · exact Or.inl (List.mem_append_left _ hnew)
  · intro id hid
    rw [hset] at hid
    rw [hlog]
    rcases List.mem_append.mp hid with hnew | hold
    · exact List.mem_append_right _ hnew
    · exact List.mem_append_left _ (hl.settled id hold)

theorem LogAcks.step (hl : LogAcks s) (ht : Traced entries base s)
    (hids : (s'.2.acked.map InFlightTask.id).Nodup) (h : Passes s s' l acks ops p p') :
    LogAcks s' := by
  have hunwritten := h.unwritten
  cases h.turn with
  | rest _ _ hacks hops | finish _ _ hacks hops =>
    subst hacks hops
    exact hl.quiet h rfl rfl [] hunwritten nofun nofun hids
  | @wait w _ _ hacks hops | @undo w _ _ hacks hops =>
    subst hacks hops
    exact hl.quiet h rfl (by cases w <;> rfl) [] (by rw [hunwritten]; cases w <;> rfl)
      nofun nofun hids
  | @enter w _ _ hacks hack hops =>
    subst hops
    cases w with
    | ack id =>
      exact hl.quiet h rfl rfl acks hunwritten (fun t ht => ht) (fun t ht => Or.inl ht)
        hids
    | _ =>
      exact hl.quiet h rfl rfl [] hunwritten nofun (fun t ht => nomatch hacks t ht) hids
  | @go w w' _ _ _ _ hacks hops _ =>
    subst hops
    refine hl.quiet h rfl rfl [] hunwritten nofun (fun t hmem => Or.inr ?_) hids
    -- a batch that is being removed is settled
    obtain ⟨todo, rfl⟩ := hacks t hmem
    exact hl.settled _ (ht.settled.removing l.1 _ h.before _ List.mem_cons_self)
  | @log w _ _ hacks hops =>
    subst hacks hops
    cases w with
    | ack id => exact hl.ack h (ht.aligned.acking l.1 id h.before)
    | ackBatch ids => exact hl.ackBatch h
    | _ => exact hl.quiet h rfl rfl [] hunwritten nofun nofun hids

end Step

end Config

/-! ### Acknowledged calls -/

namespace Pc

variable {s : InMemoryStorage α} {env : Env} {pc pc' : Pc α} {a : Access α}

/-- The call is past its log, or has returned `Ok`. -/
def PastLog (pc : Pc α) : Prop := (∃ w, pc.phase = .logged w) ∨ pc = .done (.ok .done)

theorem not_pastLog_of_unlogged {w : Work α} (h : pc.phase = .unlogged w) : ¬ pc.PastLog := by
  rintro (⟨w', hw'⟩ | rfl)
  · rw [h] at hw'
    cases hw'
  · cases h

/-- An `ack` gets past its log by writing its entry. -/
theorem Move.pastLog_of_ack (hm : Move s env pc a pc') (hwal : s.wal.isSome) {id : String}
    (h : pc.Serves (.ack id)) (hpast : pc'.PastLog) :
    pc.PastLog ∨ id ∈ a.ops.flatMap WalOp.acknowledges := by
  have hlog : ∀ w : Work α, ¬ (toLog s w).PastLog := fun w =>
    not_pastLog_of_unlogged (w := w) (by rw [phase_toLog, if_pos hwal])
  have hdone : ∀ {r : Outcome (Reply α)}, r ≠ .ok .done → ¬ (Pc.done r).PastLog := by
    rintro r hr (⟨w, hw⟩ | heq)
    · cases hw
    · cases heq
      exact hr rfl
  cases hm with
  | reject hr => exact absurd hpast (hdone hr)
  | createQueue | queue | queueBatch | dequeue | dequeueBatch | ack | nack | extendVisibility
  | verified => exact absurd hpast (hlog _)
  | scan =>
    obtain h | ⟨_, _, h, -⟩ := h.of_start <;> cases h
  | ackBatch =>
    obtain h | ⟨_, _, h, -⟩ := h.of_start <;> cases h
  | verify => cases h.of_verify
  | unverified => exact absurd hpast (hdone (by simp))
  | acquire => exact absurd hpast (not_pastLog_of_unlogged rfl)
  | append =>
    cases h.work (Or.inl rfl)
    exact Or.inr (List.mem_singleton_self _)
  | @appendFails w e =>
    obtain hf | ⟨-, e', hf⟩ := failLog_cases e w
    · rw [hf] at hpast
      exact absurd hpast (not_pastLog_of_unlogged rfl)
    · rw [hf] at hpast
      exact absurd hpast (hdone (by simp))
  | undoDequeue | undoDequeueBatch | undoNack | undoNothing =>
    exact absurd hpast (hdone (by simp))
  | scanned =>
    obtain ⟨_, h⟩ := h.of_scanned
    cases h
  | done => exact Or.inl hpast
  | _ => exact Or.inl (Or.inl ⟨_, rfl⟩)

end Pc

namespace Config

variable [Fintype ι] [DecidableEq ι]

/-- What the log has after an `ack` is past it. -/
def AcksLogged (calls : ι → Call α) (s : Config ι α × History ι α) : Prop :=
  ∀ i id, calls i = .ack id → (s.1.pc i).PastLog → id ∈ s.1.store.acknowledgedIds

theorem AcksLogged.step {calls : ι → Call α} {s s' : Config ι α × History ι α} {l : ι × Env}
    (h : AcksLogged calls s) (hserving : Serving calls s.1) (hwal : s.1.store.wal.isSome)
    (hstep : (recorded ι α).step s l = some s') : AcksLogged calls s' := by
  obtain ⟨-, ⟨a, pc', hmove⟩, -⟩ := recorded_move hstep
  have hlog : s'.1.store.acknowledgedIds
      = s.1.store.acknowledgedIds ++ a.ops.flatMap WalOp.acknowledges := by
    rw [InMemoryStorage.acknowledgedIds, hmove.store, Access.ops_run hwal, List.flatMap_append]
    rfl
  intro j id hcall hpast
  rw [hlog]
  by_cases hj : j = l.1
  · subst hj
    have hserves := hserving l.1
    rw [hcall] at hserves
    rw [hmove.pc_self hserves (by simp)] at hpast
    rcases hmove.move.pastLog_of_ack hwal hserves.pc hpast with hold | hnew
    · exact List.mem_append_left _ (h l.1 id hcall hold)
    · exact List.mem_append_right _ hnew
  · rw [hmove.pc_of_ne hj] at hpast
    exact List.mem_append_left _ (h j id hcall hpast)

/-! ### Runs -/

/-- The conditions on the steps: those for batches, and every `create_queue` is left alone between
its check and its insert. -/
def LoggedInOrder (s : Config ι α × History ι α) (l : ι × Env) : Prop :=
  CreatesAlone s l ∧ BatchSafe s l

instance (s : Config ι α × History ι α) (l : ι × Env) : Decidable (LoggedInOrder s l) :=
  inferInstanceAs (Decidable ((∀ j, j ≠ l.1 → (s.1.phases j).creates = none) ∧ BatchSafe s l))

/-- Along the runs of such steps. -/
structure Accounted (entries : List (WalEntry α)) (calls : ι → Call α) (base : Multiset α)
    (s : Config ι α × History ι α) : Prop where
  serving : Serving calls s.1
  creating : CreatingAbsent s
  traced : Traced entries base s
  batches : Batches calls s
  logAcks : LogAcks s
  acksLogged : AcksLogged calls s

theorem accounted_run {entries : List (WalEntry α)} {envs : ℕ → Env} {calls : ι → Call α}
    {s : Config ι α × History ι α}
    (h : (recorded ι α).Reach LoggedInOrder (init (.boot true envs entries) calls) s) :
    Accounted entries calls (InMemoryStorage.boot true envs entries).messages s := by
  refine h.invariant (Accounted entries calls (InMemoryStorage.boot true envs entries).messages)
    ?_ ?_
  · refine ⟨serving_start _ _, nofun, traced_init envs entries calls, ?_, ⟨nofun, nofun, nofun⟩, ?_⟩
    · exact fun i ids _ => Or.inl (Or.inl ⟨rfl, nofun⟩)
    · rintro i id - (⟨w, hw⟩ | hdone)
      · cases hw
      · cases hdone
  · rintro s l s' ha ⟨halone, hfresh, hopen, hleaves, hin, hd⟩ hstep
    have hc := ha.creating.createsAbsent l
    have ht := ha.traced.step hfresh hc hopen hleaves hin hd hstep
    obtain ⟨acks, ops, p, p', hpasses⟩ :=
      ha.traced.balanced.passes ha.traced.aligned.persistent hc hstep
    obtain ⟨-, ⟨a, pc', hmove⟩, -⟩ := recorded_move hstep
    have hids := ht.balanced.ids
    rw [Multiset.map_add, Multiset.nodup_add, Multiset.map_coe, Multiset.coe_nodup] at hids
    exact ⟨hmove.serving ha.serving, ha.creating.step halone hstep, ht,
      ha.batches.step ha.traced.settled ha.traced.balanced.valid ha.serving hstep,
      ha.logAcks.step ha.traced hids.2.1 hpasses,
      ha.acksLogged.step ha.serving ha.traced.aligned.persistent hstep⟩

section Accounted

variable {entries : List (WalEntry α)} {calls : ι → Call α} {base : Multiset α}
  {s : Config ι α × History ι α}

omit [DecidableEq ι] in
/-- What a call that has returned `Ok` was to acknowledge, the log has acknowledged. -/
theorem Accounted.mem_acknowledgedIds (h : Accounted entries calls base s) {i : ι}
    (hreturned : s.1.Returned i) {id : String} (hid : id ∈ (calls i).acknowledges) :
    id ∈ s.1.store.acknowledgedIds := by
  cases hcall : calls i with
  | ack id' =>
    rw [hcall, Call.acknowledges, List.mem_singleton] at hid
    rw [hid]
    exact h.acksLogged i id' hcall (Or.inr hreturned)
  | ackBatch ids =>
    rw [hcall] at hid
    refine h.logAcks.settled id ?_
    rcases h.batches i ids hcall with (⟨-, hne⟩ | hphase) | ⟨todo, hpc, -⟩ | ⟨-, hpast⟩
    · exact absurd hreturned hne
    · rw [hreturned] at hphase
      cases hphase
    · rw [hreturned] at hpc
      cases hpc
    · exact hpast.settled id hid
  | _ =>
    rw [hcall] at hid
    cases hid

omit [DecidableEq ι] in
/-- A task that was handed out and is acknowledged in the log is on the account. -/
theorem Traced.mem_ackedByLog (h : Traced entries base s) (hl : LogAcks s) {t : InFlightTask α}
    (ht : t ∈ s.2.handed) (hid : t.id ∈ s.1.store.acknowledgedIds) : t ∈ ackedByLog s := by
  refine Multiset.mem_filter.mpr ⟨?_, hid⟩
  -- some task with its id is in the table or removed, and it is the only one that was handed out
  have hsome : ∃ t' ∈ s.1.tasks + s.2.acked, t'.id = t.id := by
    have hacked : t.id ∈ s.2.acked.map InFlightTask.id →
        ∃ t' ∈ s.1.tasks + (s.2.acked : Multiset (InFlightTask α)), t'.id = t.id := by
      intro hmem
      obtain ⟨t', ht', hid'⟩ := List.mem_map.mp hmem
      exact ⟨t', Multiset.mem_add.mpr (Or.inr (Multiset.mem_coe.mpr ht')), hid'⟩
    rcases hl.logged t.id hid with hsettled | hmem
    · rcases h.settled.settled t.id hsettled with hin | hmem
      · obtain ⟨t', ht', hid'⟩ := Multiset.mem_map.mp (h.balanced.valid.mem_ids.mpr hin)
        refine ⟨t', Multiset.mem_add.mpr (Or.inl ?_), hid'⟩
        exact Multiset.mem_add.mpr (Or.inl ht')
      · exact hacked hmem
    · exact hacked hmem.1
  obtain ⟨t', ht', hid'⟩ := hsome
  have hhanded := Multiset.mem_of_le h.balanced.handed ht'
  rwa [← Multiset.inj_on_of_nodup_map h.balanced.distinct t' hhanded t ht hid']

end Accounted

/-! ### Lives -/

/-- The lives of a broker: its log, the payloads enqueued and those acknowledged in it. A life
starts from the log of those before, has threads and calls of its own, and may end at any point. -/
inductive Lives : List (WalEntry α) → Multiset α → Multiset α → Prop
  | first : Lives [] 0 0
  | next {entries : List (WalEntry α)} {enqueued acked : Multiset α}
    (h : Lives entries enqueued acked) {ι : Type} [Fintype ι] [DecidableEq ι] {envs : ℕ → Env}
    {calls : ι → Call α} {s : Config ι α × History ι α}
    (hrun : (recorded ι α).Reach LoggedInOrder (init (.boot true envs entries) calls) s) :
    Lives (entries ++ s.1.store.written)
      (enqueued + s.2.pushed + ∑ i, ((s.1.phases i).due : Multiset α))
      (acked + (ackedByLog s).map InFlightTask.data)

/-- One more life on the account. -/
theorem account_life {entries : List (WalEntry α)} {envs : ℕ → Env} {calls : ι → Call α}
    {s : Config ι α × History ι α}
    (h : (recorded ι α).Reach LoggedInOrder (init (.boot true envs entries) calls) s)
    (envs' : ℕ → Env) :
    (InMemoryStorage.recover envs' (entries ++ s.1.store.written)).messages
        + (ackedByLog s).map InFlightTask.data
      = (InMemoryStorage.recover envs entries).messages + s.2.pushed
        + ∑ i, ((s.1.phases i).due : Multiset α) := by
  have ha := accounted_run h
  have hsame := InMemoryStorage.recover_sameState envs' (entries ++ s.1.store.written)
  rw [List.map_append] at hsame
  rw [← hsame.messages]
  exact ha.traced.account ha.logAcks

/-- A replay finds what was enqueued and not acknowledged. -/
theorem Lives.messages {entries : List (WalEntry α)} {enqueued acked : Multiset α}
    (h : Lives entries enqueued acked) :
    ∀ envs, (InMemoryStorage.recover envs entries).messages + acked = enqueued := by
  induction h with
  | first => exact fun envs => rfl
  | @next entries enqueued acked h ι _ _ envs calls s hrun ih =>
    intro envs'
    rw [add_left_comm, account_life hrun envs', ← ih envs]
    abel

end Config

end Oxideq
