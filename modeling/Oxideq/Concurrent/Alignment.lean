import Oxideq.Concurrent.Effects

/-!
# The log and the tables

While calls overlap, the log runs ahead of the tables in some of them and behind in others. What
the log has in flight is what the table has, what an unlogged `nack` or `ack` has taken out of it,
and what a logged delivery has not put there yet (`Config.logTasks`), less the batches that are
settled. `Aligned` says so of the store that a replay of the log rebuilds, and every step keeps it
that pairs its delivery with the items the replay finds (`Aligned.step`).
-/

namespace Oxideq

variable {ι α : Type}

/-- The tasks on which the log and the table differ while the call is in this phase: one to be
returned is still in flight by the log until it is logged, one to be delivered is so from then
on. -/
def Phase.shadow : Phase α → Multiset (InFlightTask α)
  | .idle => 0
  | .unlogged w => w.returned
  | .logged w => w.delivered

theorem Phase.shadow_le_tasks (p : Phase α) : p.shadow ≤ p.tasks := by
  cases p with
  | idle => exact le_rfl
  | unlogged w => exact (List.sublist_append_right _ _).subperm
  | logged w => exact (List.sublist_append_left _ _).subperm

/-- A task that is acknowledged is recorded as not logged. -/
theorem History.unwrite_enter {w : Work α} {tasks : List (InFlightTask α)}
    (h : ∀ t ∈ tasks, w = .ack t.id) (unwritten : List (InFlightTask α)) :
    (History.unwrite tasks unwritten .idle (.unlogged w) : Multiset (InFlightTask α))
      = tasks + unwritten := by
  cases tasks with
  | nil => cases w <;> exact (zero_add _).symm
  | cons t tasks =>
    rw [h t List.mem_cons_self]
    rfl

theorem History.unwrite_le (tasks unwritten : List (InFlightTask α)) (p p' : Phase α) :
    (History.unwrite tasks unwritten p p' : Multiset (InFlightTask α)) ≤ tasks + unwritten := by
  unfold History.unwrite
  split
  · exact le_rfl
  · exact (Multiset.coe_le.mpr List.filter_sublist.subperm).trans (Multiset.le_add_left _ _)
  · exact Multiset.le_add_left _ _

namespace Pc

variable {s : InMemoryStorage α} {env : Env} {pc pc' : Pc α} {a : Access α}

/-- Taking a task back settles nothing. -/
theorem Move.settles_of_nack (hm : Move s env pc a pc') {id : String}
    (hpc : pc = .start (.nack id)) : History.settles pc.phase pc'.phase = [] := by
  subst hpc
  cases hm with
  | reject hr hack => rfl
  | nack h =>
    rw [phase_toLog]
    split <;> rfl

/-- The task a `nack` is about to take. -/
def nacks : Pc α → Option String
  | .start (.nack id) => some id
  | _ => none

/-- A batch that is being removed was settled in this step, or is what is left of one. -/
theorem Move.mem_of_removing (hm : Move s env pc a pc') {todo : List String}
    (hpc' : pc'.phase = .logged (.ackBatch todo)) :
    (∀ id ∈ todo, id ∈ History.settles pc.phase pc'.phase) ∨
      ∃ todo', pc.phase = .logged (.ackBatch todo') ∧ ∀ id ∈ todo, id ∈ todo' := by
  have hnew : (∀ w, pc.phase ≠ .logged w) →
      ∀ id ∈ todo, id ∈ History.settles pc.phase pc'.phase := by
    intro hne id hid
    rw [hpc']
    cases hp : pc.phase with
    | idle => exact hid
    | unlogged w => exact hid
    | logged w => exact absurd hp (hne w)
  cases hm with
  | beginRemove =>
    cases hpc'
    exact Or.inr ⟨_, rfl, fun id hid => hid⟩
  | removeTasks =>
    cases hpc'
    exact Or.inr ⟨_, rfl, fun id hid => List.mem_cons_of_mem _ hid⟩
  | _ =>
    -- from the other phases behind the log, the call ends or hands out tasks
    first
    | cases hpc'
    | exact Or.inl (hnew fun w h => by cases h)

end Pc

namespace Config

/-- The store a replay of the log makes: the entries that were there at the start, and those
written since. -/
def rebuilt (entries : List (WalEntry α)) (σ : Config ι α) : InMemoryStorage α :=
  (InMemoryStorage.new : InMemoryStorage α).effects (entries.map WalEntry.op ++ σ.store.ops)

theorem valid_rebuilt (entries : List (WalEntry α)) (σ : Config ι α) :
    (rebuilt entries σ).Valid :=
  InMemoryStorage.valid_new.effects _

variable [Fintype ι]

/-- What the log has in flight, the settled batches aside. -/
def logTasks (s : Config ι α × History ι α) : Multiset (InFlightTask α) :=
  s.1.store.inFlightTasks + ∑ i, (s.1.phases i).shadow
    + s.2.unwritten

/-- The task is in flight by the log. -/
def OpenInLog (s : Config ι α × History ι α) (id : String) : Prop :=
  id ∈ (logTasks s).map InFlightTask.id ∧ id ∉ s.2.settled

/-- The batch a step settles. -/
def settling (s : Config ι α × History ι α) (l : ι × Env) : List String :=
  History.settles (s.1.phases l.1) ((s.1.pc l.1).step s.1.store l.2).2.phase

/-- When an `ack_batch` gets past its log, each of its tasks is in flight or acknowledged, and the
log has all of them in flight or none. -/
def SettlesOpen (s : Config ι α × History ι α) (l : ι × Env) : Prop :=
  (∀ id ∈ settling s l, id ∈ s.1.store.inFlight ∨ id ∈ s.2.acked.map InFlightTask.id) ∧
    (s.1.store.wal.isSome →
      (∀ id ∈ settling s l, OpenInLog s id) ∨ ∀ id ∈ settling s l, ¬ OpenInLog s id)

/-- No `nack` takes a task out of the hands of an `ack_batch` that is past its log. -/
def LeavesSettled (s : Config ι α × History ι α) (l : ι × Env) : Prop :=
  ∀ id ∈ (s.1.pc l.1).nacks, id ∈ s.1.store.inFlight → id ∉ s.2.settled

instance (s : Config ι α × History ι α) (id : String) : Decidable (OpenInLog s id) :=
  inferInstanceAs (Decidable (_ ∧ _))

instance (s : Config ι α × History ι α) (l : ι × Env) : Decidable (SettlesOpen s l) :=
  inferInstanceAs (Decidable ((∀ id ∈ settling s l, _ ∨ _) ∧
    (_ → (∀ id ∈ settling s l, OpenInLog s id) ∨ ∀ id ∈ settling s l, ¬ OpenInLog s id)))

instance (s : Config ι α × History ι α) (l : ι × Env) : Decidable (LeavesSettled s l) :=
  inferInstanceAs (Decidable (∀ id ∈ (s.1.pc l.1).nacks, _ → _ ∉ _))

/-- A delivery that is logged finds its items at the front of the queue in the replay. -/
def Pairs (entries : List (WalEntry α)) (s : Config ι α × History ι α) (l : ι × Env) : Prop :=
  ∀ w, s.1.phases l.1 = .unlogged w →
    ((s.1.pc l.1).step s.1.store l.2).2.phase = .logged w →
    ∀ q, ∃ rest, (rebuilt entries s.1).items q = w.popped q ++ rest

/-! ### Settled batches -/

/-- A settled task is in flight or acknowledged, and so is one an `ack` is about to log. -/
structure Settled (s : Config ι α × History ι α) : Prop where
  settled : ∀ id ∈ s.2.settled, id ∈ s.1.store.inFlight ∨ id ∈ s.2.acked.map InFlightTask.id
  removing : ∀ i todo, s.1.phases i = .logged (.ackBatch todo) → ∀ id ∈ todo, id ∈ s.2.settled

/-! ### Alignment -/

/-- The log and the tables agree up to what the calls have in hand. -/
structure Aligned (entries : List (WalEntry α)) (s : Config ι α × History ι α) : Prop where
  persistent : s.1.store.wal.isSome
  tasks : (rebuilt entries s.1).inFlightTasks = (logTasks s).filter (·.id ∉ s.2.settled)
  unwritten : (s.2.unwritten : Multiset (InFlightTask α)) ≤ s.2.acked
  acking : ∀ i id, s.1.phases i = .unlogged (.ack id) → id ∈ s.2.acked.map InFlightTask.id
  keys : ∀ q ∈ s.1.store.queues, q ∈ (rebuilt entries s.1).queues
  made : ∀ i w q, s.1.phases i = .logged w → w.makes = some q → q ∈ (rebuilt entries s.1).queues

section Facts

variable {entries : List (WalEntry α)} {base : Multiset α} {s : Config ι α × History ι α}

/-- What the log has in flight is accounted for in the ledger, together with a delivery that is
not logged. -/
theorem Aligned.ledger (h : Aligned entries s) {i : ι} {w : Work α}
    (hi : s.1.phases i = .unlogged w) :
    logTasks s + w.delivered ≤ s.1.tasks + s.2.acked := by
  classical
  -- what `i` delivers is a part of its tasks that its shadow leaves out, since nothing is logged
  -- yet
  have hsum : ∑ j, (s.1.phases j).shadow + w.delivered
      ≤ ∑ j, ((s.1.phases j).tasks : Multiset (InFlightTask α)) := by
    refine System.sum_add_le_sum (fun j => (s.1.phases j).shadow_le_tasks) (i := i) ?_
    rw [hi, Phase.shadow, Phase.tasks_unlogged, Work.tasks, ← Multiset.coe_add, add_comm]
  calc logTasks s + w.delivered
      = s.1.store.inFlightTasks + (∑ j, (s.1.phases j).shadow
          + w.delivered) + s.2.unwritten := by rw [logTasks]; abel
    _ ≤ s.1.tasks + s.2.acked := add_le_add (add_le_add_right hsum _) h.unwritten

/-- What is in the table or acknowledged is in no call's hands. -/
theorem Balanced.not_in_hands (hb : Balanced base s) {id : String}
    (h : id ∈ s.1.store.inFlight ∨ id ∈ s.2.acked.map InFlightTask.id) {i : ι}
    {t : InFlightTask α} (ht : t ∈ (s.1.phases i).tasks) : t.id ≠ id := by
  rintro rfl
  have hnd := hb.ids
  rw [tasks, add_right_comm, Multiset.map_add, Multiset.nodup_add] at hnd
  refine Multiset.disjoint_left.mp hnd.2.2 ?_ (Multiset.mem_map_of_mem InFlightTask.id
    (Multiset.mem_sum.mpr ⟨i, Finset.mem_univ i, Multiset.mem_coe.mpr ht⟩))
  rw [Multiset.map_add, Multiset.mem_add]
  exact h.imp hb.valid.mem_ids.mpr Multiset.mem_coe.mpr

/-- The replay has in flight what the log has. -/
theorem Aligned.mem_inFlight (h : Aligned entries s) {id : String} :
    id ∈ (rebuilt entries s.1).inFlight ↔ OpenInLog s id := by
  rw [← (valid_rebuilt entries s.1).mem_ids, h.tasks, OpenInLog, Multiset.mem_map,
    Multiset.mem_map]
  constructor
  · rintro ⟨t, ht, rfl⟩
    obtain ⟨ht, hn⟩ := Multiset.mem_filter.mp ht
    exact ⟨⟨t, ht, rfl⟩, hn⟩
  · rintro ⟨⟨t, ht, rfl⟩, hn⟩
    exact ⟨t, Multiset.mem_filter.mpr ⟨ht, hn⟩, rfl⟩

/-- What is in flight by the table, or by the log on account of a call, is not acknowledged. -/
theorem Balanced.not_acked (hb : Balanced base s) {t : InFlightTask α}
    (ht : t ∈ s.1.store.inFlightTasks + ∑ i, (s.1.phases i).shadow) :
    t.id ∉ s.2.acked.map InFlightTask.id := by
  have hle : s.1.store.inFlightTasks + ∑ i, (s.1.phases i).shadow ≤ s.1.tasks :=
    add_le_add_right (Finset.sum_le_sum fun i _ => (s.1.phases i).shadow_le_tasks) _
  have hnd := hb.ids
  rw [Multiset.map_add, Multiset.nodup_add] at hnd
  exact fun hmem => Multiset.disjoint_left.mp hnd.2.2
    (Multiset.mem_map_of_mem _ (Multiset.mem_of_le hle ht)) (Multiset.mem_coe.mpr hmem)

/-- What a call has in hand is not settled. -/
theorem Balanced.not_settled (hb : Balanced base s) (hs : Settled s) {i : ι} {t : InFlightTask α}
    (ht : t ∈ (s.1.phases i).tasks) : t.id ∉ s.2.settled := fun hid =>
  hb.not_in_hands (hs.settled _ hid) ht rfl

/-- The replay finds the task that a call is about to return. -/
theorem Aligned.returns (h : Aligned entries s) (hb : Balanced base s) (hs : Settled s) {i : ι}
    {w : Work α} (hi : s.1.phases i = .unlogged w) : (rebuilt entries s.1).Returns w := by
  rintro id task rfl
  have hvalid := hb.phases i
  rw [hi] at hvalid
  have hid : task.id = id := hvalid.id_eq rfl
  have hhand : task.untimed ∈ (s.1.phases i).tasks := by
    rw [hi]
    exact List.mem_singleton_self _
  -- by the log the task is still in flight: it is the shadow of the `nack`
  have hopen : task.untimed ∈ logTasks s := by
    refine Multiset.mem_add.mpr (Or.inl (Multiset.mem_add.mpr (Or.inr ?_)))
    refine Multiset.mem_sum.mpr ⟨i, Finset.mem_univ i, ?_⟩
    rw [hi]
    exact List.mem_singleton_self _
  have hmem : task.untimed ∈ (rebuilt entries s.1).inFlightTasks := by
    rw [h.tasks]
    exact Multiset.mem_filter.mpr ⟨hopen, hb.not_settled hs hhand⟩
  obtain ⟨k, t, hl, ht⟩ := (Table.mem_total _).mp hmem
  rw [InMemoryStorage.taskShare, Multiset.mem_singleton] at ht
  have hk : t.id = k := (valid_rebuilt entries s.1).id_eq hl
  have hkey : k = id := by
    rw [← hk, ← hid, ← InFlightTask.untimed_id, ← ht, InFlightTask.untimed_id]
  rw [hkey] at hl
  exact ⟨t, hl, ht.symm⟩

end Facts

/-! ### One step -/

omit [Fintype ι] in
/-- Nothing is settled where no call acknowledges batches. -/
theorem Serving.settling_eq_nil {calls : ι → Call α} {s : Config ι α × History ι α}
    (hs : Serving calls s.1) (hcalls : ∀ i ids, calls i ≠ .ackBatch ids) (l : ι × Env) :
    settling s l = [] := by
  have hserves := (Pc.move_step s.1.store l.2 (s.1.pc l.1)).serves (hs l.1).pc
  have hne : ∀ ids, ((s.1.pc l.1).step s.1.store l.2).2.phase ≠ .logged (.ackBatch ids) := by
    intro ids hphase
    generalize hcall : calls l.1 = c at hserves
    cases hserves.work (Or.inr hphase)
    exact hcalls l.1 _ hcall
  unfold settling History.settles
  split
  · next h => exact absurd h (hne _)
  · next h => exact absurd h (hne _)
  · rfl

variable [DecidableEq ι]

theorem settled_step {s s' : Config ι α × History ι α} {l : ι × Env}
    (h : (recorded ι α).step s l = some s') : s'.2.settled = settling s l ++ s.2.settled := by
  rw [(recorded_move h).2.2]
  rfl

theorem Settled.step {s s' : Config ι α × History ι α} {l : ι × Env} (h : Settled s)
    (hs : s.1.store.Valid) (ho : SettlesOpen s l) (hl : LeavesSettled s l)
    (hstep : (recorded ι α).step s l = some s') : Settled s' := by
  obtain ⟨i, env⟩ := l
  obtain ⟨-, ⟨a, pc', hstep⟩, hrec⟩ := recorded_step hstep
  have hpc' : ((s.1.pc i).step s.1.store env).2 = pc' := by rw [hstep.eq]
  have hsettled : s'.2.settled = History.settles (s.1.pc i).phase pc'.phase ++ s.2.settled := by
    rw [hrec, History.extend, hpc']
  have hacked : s'.2.acked = (s.1.pc i).acks s.1.store ++ s.2.acked := by
    rw [hrec, History.extend]
  constructor
  · intro id hid
    have hold : id ∈ s.1.store.inFlight ∨ id ∈ s.2.acked.map InFlightTask.id := by
      rw [hsettled, List.mem_append] at hid
      rcases hid with hid | hid
      · refine ho.1 id ?_
        rw [settling, hpc']
        exact hid
      · exact h.settled id hid
    rw [hstep.store, hacked, List.map_append, List.mem_append]
    rcases hold with hold | hold
    -- it stays in the table, or is acknowledged by this step
    · obtain hin | hack | hpc := hstep.move.mem_inFlight hs hold
      · exact Or.inl hin
      · exact Or.inr (Or.inl hack)
      · -- a `nack` has taken it, which the condition rules out
        rw [hsettled, hstep.move.settles_of_nack hpc, List.nil_append] at hid
        exact absurd hid (hl id (by rw [hpc]; rfl) hold)
    · exact Or.inr (Or.inr hold)
  · intro j todo hphase id hid
    rw [hsettled, List.mem_append]
    rw [hstep.phases] at hphase
    by_cases hj : j = i
    · rw [hj, Function.update_self] at hphase
      obtain hnew | ⟨todo', hold, hsub⟩ := hstep.move.mem_of_removing hphase
      · exact Or.inl (hnew id hid)
      · exact Or.inr (h.removing i todo' hold id (hsub id hid))
    · rw [Function.update_of_ne hj] at hphase
      exact Or.inr (h.removing j todo hphase id hid)

section Step

variable {entries : List (WalEntry α)} {base : Multiset α} {s s' : Config ι α × History ι α}
  {l : ι × Env} {acks : List (InFlightTask α)} {ops : List (WalOp α)} {p p' : Phase α}

omit [Fintype ι] in
theorem Passes.rebuilt (h : Passes s s' l acks ops p p') :
    rebuilt entries s'.1 = (rebuilt entries s.1).effects ops := by
  rw [Config.rebuilt, h.ops, ← List.append_assoc, InMemoryStorage.effects_append]
  rfl

theorem Passes.shadows (h : Passes s s' l acks ops p p') :
    p.shadow + ∑ i, (s'.1.phases i).shadow = p'.shadow + ∑ i, (s.1.phases i).shadow := by
  rw [← h.before, h.phases]
  exact System.sum_update_add Phase.shadow s.1.phases l.1 p'

/-- What an append does to the tasks in flight in the replay. -/
theorem Aligned.tasks_log (ha : Aligned entries s) (hb : Balanced base s) (hs : Settled s)
    (ho : SettlesOpen s l) (hpairs : Pairs entries s l) {w : Work α}
    (h : Passes s s' l acks [w.op] (.unlogged w) (.logged w)) :
    (Config.rebuilt entries s'.1).inFlightTasks + w.returned
      = ((logTasks s).filter (·.id ∉ s.2.settled) + w.delivered).filter (·.id ∉ w.settles) := by
  have hvalid := hb.phases l.1
  rw [h.before] at hvalid
  have hwork : w.Valid (Config.rebuilt entries s.1) :=
    ⟨fun hq => ha.keys _ (hvalid.target_mem hq), hvalid.id_eq⟩
  have hids := Multiset.nodup_of_le (Multiset.map_le_map (ha.ledger h.before)) hb.ids
  rw [Multiset.map_add, Multiset.nodup_add] at hids
  have hfresh : ∀ t ∈ w.delivered, t.id ∉ (Config.rebuilt entries s.1).inFlight := by
    intro t ht hmem
    exact Multiset.disjoint_left.mp hids.2.2 (ha.mem_inFlight.mp hmem).1
      (Multiset.mem_map_of_mem _ (Multiset.mem_coe.mpr ht))
  have hbatch : ∀ ids, w = .ackBatch ids →
      (∀ id ∈ ids, id ∈ (Config.rebuilt entries s.1).inFlight) ∨
        ∀ id ∈ ids, id ∉ (Config.rebuilt entries s.1).inFlight := by
    rintro ids rfl
    have hsettling : settling s l = ids := by
      rw [settling, h.before, h.after]
      rfl
    have hopen := ho.2 ha.persistent
    rw [hsettling] at hopen
    refine hopen.imp (fun hall id hid => ?_) fun hnone id hid hmem => ?_
    · exact ha.mem_inFlight.mpr (hall id hid)
    · exact hnone id hid (ha.mem_inFlight.mp hmem)
  rw [h.rebuilt, ← ha.tasks]
  exact InMemoryStorage.inFlightTasks_effect hwork (valid_rebuilt entries s.1)
    (ha.returns hb hs h.before) (hpairs w h.before h.after) hfresh hids.2.1 hbatch _

section Append

variable (ha : Aligned entries s) (hb : Balanced base s) (hs : Settled s) (ho : SettlesOpen s l)
  (hpairs : Pairs entries s l) (ht : s'.1.store.inFlightTasks = s.1.store.inFlightTasks)

include ha hb hs ho hpairs ht

/-- Most entries settle nothing; they move their tasks from the shadow of the call to the replay,
or back. -/
theorem Aligned.tasks_plain {w : Work α} (h : Passes s s' l [] [w.op] (.unlogged w) (.logged w))
    (hnone : w.settles = []) (hset : s'.2.settled = s.2.settled)
    (hunw : s'.2.unwritten = s.2.unwritten) :
    (Config.rebuilt entries s'.1).inFlightTasks = (logTasks s').filter (·.id ∉ s'.2.settled) := by
  have hshadows : (w.returned : Multiset (InFlightTask α)) + ∑ i, (s'.1.phases i).shadow
      = w.delivered + ∑ i, (s.1.phases i).shadow := h.shadows
  have hreturned : (w.returned : Multiset (InFlightTask α)).filter (·.id ∉ s.2.settled)
      = w.returned := by
    refine Multiset.filter_eq_self.mpr fun t hmem => hb.not_settled hs (i := l.1) ?_
    rw [h.before]
    exact List.mem_append_right _ (Multiset.mem_coe.mp hmem)
  have hdelivered : (w.delivered : Multiset (InFlightTask α)).filter (·.id ∉ s.2.settled)
      = w.delivered := by
    refine Multiset.filter_eq_self.mpr fun t hmem => hb.not_settled hs (i := l.1) ?_
    rw [h.before]
    exact List.mem_append_left _ (Multiset.mem_coe.mp hmem)
  have htasks : logTasks s' + w.returned = logTasks s + w.delivered := by
    calc logTasks s' + w.returned
        = s.1.store.inFlightTasks + (w.returned + ∑ i, (s'.1.phases i).shadow)
          + s.2.unwritten := by rw [logTasks, ht, hunw]; abel
      _ = logTasks s + w.delivered := by rw [hshadows, logTasks]; abel
  refine add_right_cancel (b := (w.returned : Multiset (InFlightTask α))) ?_
  rw [ha.tasks_log hb hs ho hpairs h, hnone, hset,
    Multiset.filter_eq_self.mpr (fun t _ => List.not_mem_nil)]
  calc (logTasks s).filter (·.id ∉ s.2.settled) + w.delivered
      = (logTasks s + w.delivered).filter (·.id ∉ s.2.settled) := by
        rw [Multiset.filter_add, hdelivered]
    _ = (logTasks s').filter (·.id ∉ s.2.settled) + w.returned := by
        rw [← htasks, Multiset.filter_add, hreturned]

/-- The tasks under the id of an `ack` are those it has taken out. -/
theorem Aligned.tasks_ack {id : String}
    (h : Passes s s' l [] [.ack id] (.unlogged (.ack id)) (.logged (.ack id))) :
    (Config.rebuilt entries s'.1).inFlightTasks = (logTasks s').filter (·.id ∉ s'.2.settled) := by
  have hunw : s'.2.unwritten = s.2.unwritten.filter (·.id ≠ id) := h.unwritten
  have hset : s'.2.settled = s.2.settled := h.settled
  have hsum : ∑ i, (s'.1.phases i).shadow = ∑ i, (s.1.phases i).shadow := add_left_cancel h.shadows
  have hother : (s.1.store.inFlightTasks + ∑ i, (s.1.phases i).shadow).filter (·.id ≠ id)
      = s.1.store.inFlightTasks + ∑ i, (s.1.phases i).shadow := by
    refine Multiset.filter_eq_self.mpr fun t hmem hid => ?_
    exact hb.not_acked hmem (hid ▸ ha.acking l.1 id h.before)
  have htasks : (logTasks s).filter (·.id ≠ id) = logTasks s' := by
    rw [logTasks, Multiset.filter_add, hother, logTasks, ht, hsum, hunw, Multiset.filter_coe]
  calc (Config.rebuilt entries s'.1).inFlightTasks
      = ((logTasks s).filter (·.id ∉ s.2.settled)).filter (·.id ≠ id) := by
        rw [← add_zero (Config.rebuilt entries s'.1).inFlightTasks]
        refine (ha.tasks_log hb hs ho hpairs (w := .ack id) h).trans ?_
        simp [Work.delivered, Work.settles]
    _ = (logTasks s').filter (·.id ∉ s'.2.settled) := by
        rw [← htasks, hset, Multiset.filter_filter, Multiset.filter_filter]
        simp only [and_comm]

theorem Aligned.tasks_ackBatch {ids : List String}
    (h : Passes s s' l [] [.ackBatch ids] (.unlogged (.ackBatch ids)) (.logged (.ackBatch ids))) :
    (Config.rebuilt entries s'.1).inFlightTasks = (logTasks s').filter (·.id ∉ s'.2.settled) := by
  have hunw : s'.2.unwritten = s.2.unwritten := h.unwritten
  have hset : s'.2.settled = ids ++ s.2.settled := h.settled
  have hsum : ∑ i, (s'.1.phases i).shadow = ∑ i, (s.1.phases i).shadow := add_left_cancel h.shadows
  have htasks : logTasks s' = logTasks s := by rw [logTasks, logTasks, ht, hsum, hunw]
  rw [← add_zero (Config.rebuilt entries s'.1).inFlightTasks]
  refine (ha.tasks_log hb hs ho hpairs (w := .ackBatch ids) h).trans ?_
  have hdelivered : ((Work.ackBatch ids : Work α).delivered : Multiset (InFlightTask α)) = 0 := rfl
  rw [htasks, hset, hdelivered, add_zero, Multiset.filter_filter]
  refine Multiset.filter_congr fun t _ => ?_
  rw [Work.settles, List.mem_append, not_or]

/-- The tasks in flight by the log after an append. -/
theorem Aligned.tasks_append {w : Work α}
    (h : Passes s s' l [] [w.op] (.unlogged w) (.logged w)) :
    (Config.rebuilt entries s'.1).inFlightTasks = (logTasks s').filter (·.id ∉ s'.2.settled) := by
  cases w with
  | ack id => exact ha.tasks_ack hb hs ho hpairs ht h
  | ackBatch ids => exact ha.tasks_ackBatch hb hs ho hpairs ht h
  | _ => exact ha.tasks_plain hb hs ho hpairs ht h rfl h.settled h.unwritten

end Append

/-- A step that logs nothing leaves the log with the tasks it had, up to settled ones. -/
theorem Aligned.tasks_quiet (ha : Aligned entries s) (h : Passes s s' l acks [] p p')
    (hsettles : History.settles p p' = []) (gone : Multiset (InFlightTask α))
    (hgone : ∀ t ∈ gone, t.id ∈ s.2.settled) (htasks : logTasks s' + gone = logTasks s) :
    (Config.rebuilt entries s'.1).inFlightTasks = (logTasks s').filter (·.id ∉ s'.2.settled) := by
  have hnone : gone.filter (·.id ∉ s.2.settled) = 0 :=
    Multiset.filter_eq_nil.mpr fun t ht hn => hn (hgone t ht)
  rw [h.rebuilt, h.settled, hsettles, List.nil_append, InMemoryStorage.effects, List.foldl_nil,
    ha.tasks, ← htasks, Multiset.filter_add, hnone, add_zero]

/-- The tasks in flight by the log after a step. -/
theorem Aligned.tasks_step (ha : Aligned entries s) (hb : Balanced base s) (hs : Settled s)
    (ho : SettlesOpen s l) (hpairs : Pairs entries s l) (h : Passes s s' l acks ops p p') :
    (Config.rebuilt entries s'.1).inFlightTasks = (logTasks s').filter (·.id ∉ s'.2.settled) := by
  have hshadows := h.shadows
  have hunwritten := h.unwritten
  -- Only an append changes the replay, and only the removals of a batch take tasks that the log
  -- has.
  cases h.turn with
  | rest hq ht hacks hops =>
    subst hops
    refine ha.tasks_quiet h rfl 0 (by simp) ?_
    rw [logTasks, logTasks, ht, add_left_cancel hshadows, hunwritten, add_zero]
    rfl
  | @enter w hq ht hacks hack hops =>
    subst hops
    refine ha.tasks_quiet h rfl 0 (by simp) ?_
    rw [Phase.shadow, Phase.shadow, zero_add] at hshadows
    rw [logTasks, logTasks, ht, hshadows, hunwritten, History.unwrite_enter hacks]
    abel
  | @wait w hq ht hacks hops =>
    subst hops
    refine ha.tasks_quiet h (by cases w <;> rfl) 0 (by simp) ?_
    rw [logTasks, logTasks, ht, add_left_cancel hshadows, hunwritten, add_zero]
    cases w <;> rfl
  | @undo w hq ht hacks hops =>
    subst hops
    refine ha.tasks_quiet h (by cases w <;> rfl) 0 (by simp) ?_
    rw [Phase.shadow, Phase.shadow, zero_add] at hshadows
    have hu : s'.2.unwritten = s.2.unwritten := by
      rw [hunwritten]
      cases w <;> rfl
    rw [logTasks, logTasks, ht, ← hshadows, hu]
    abel
  | @log w hq ht hacks hops =>
    subst hops hacks
    exact ha.tasks_append hb hs ho hpairs ht h
  | @go w w' hq ht hf hback hacks hops hm =>
    subst hops
    refine ha.tasks_quiet h rfl acks (fun t hmem => ?_) ?_
    · obtain ⟨todo, rfl⟩ := hacks t (Multiset.mem_coe.mp hmem)
      exact hs.removing l.1 _ h.before _ List.mem_cons_self
    · rw [Phase.shadow, Phase.shadow] at hshadows
      have hu : s'.2.unwritten = s.2.unwritten := hunwritten
      refine add_left_cancel (a := (w.delivered : Multiset (InFlightTask α))) ?_
      calc _ = s'.1.store.inFlightTasks
            + (w.delivered + ∑ i, (s'.1.phases i).shadow)
            + s'.2.unwritten + acks := by rw [logTasks]; abel
        _ = s'.1.store.inFlightTasks + w'.delivered + acks
            + ∑ i, (s.1.phases i).shadow + s.2.unwritten := by
          rw [hshadows, hu]; abel
        _ = _ := by rw [ht, logTasks]; abel
  | @finish w hq ht hacks hops =>
    subst hops
    refine ha.tasks_quiet h rfl 0 (by simp) ?_
    rw [Phase.shadow, Phase.shadow, zero_add] at hshadows
    have hu : s'.2.unwritten = s.2.unwritten := hunwritten
    rw [logTasks, logTasks, ht, ← hshadows, hu]
    abel

/-- **Steps that pair their deliveries keep the log and the tables aligned.** -/
theorem Aligned.step (ha : Aligned entries s) (hb : Balanced base s) (hs : Settled s)
    (hc : CreatesAbsent s.1 l) (ho : SettlesOpen s l) (hpairs : Pairs entries s l)
    (hstep : (recorded ι α).step s l = some s') : Aligned entries s' := by
  obtain ⟨acks, ops, p, p', h⟩ := hb.passes ha.persistent hc hstep
  have hqueues : ∀ q ∈ (Config.rebuilt entries s.1).queues,
      q ∈ (Config.rebuilt entries s'.1).queues := by
    intro q hq
    rw [h.rebuilt]
    exact InMemoryStorage.mem_queues_effects hq ops
  constructor
  · exact h.wal
  · exact ha.tasks_step hb hs ho hpairs h
  · rw [h.acked, h.unwritten, ← Multiset.coe_add]
    exact (History.unwrite_le acks s.2.unwritten p p').trans (add_le_add_right ha.unwritten _)
  · intro j id hj
    rw [h.phases] at hj
    rw [h.acked, List.map_append, List.mem_append]
    by_cases hji : j = l.1
    · subst hji
      rw [Function.update_self] at hj
      have hbefore := h.before
      subst hj
      cases h.turn with
      | enter hq ht hacks hack hops =>
        obtain ⟨t, ht, hid⟩ := hack id rfl
        exact Or.inl (List.mem_map.mpr ⟨t, ht, hid⟩)
      | wait hq ht hacks hops => exact Or.inr (ha.acking _ id hbefore)
    · rw [Function.update_of_ne hji] at hj
      exact Or.inr (ha.acking j id hj)
  · intro q hq
    rcases h.queues q hq with hq | ⟨w, rfl, hw⟩
    · exact hqueues q (ha.keys q hq)
    · exact hqueues q (ha.made _ w q h.before hw)
  · intro j w q hj hw
    rw [h.phases] at hj
    by_cases hji : j = l.1
    · rw [hji, Function.update_self] at hj
      have hbefore := h.before
      subst hj
      cases h.turn with
      | log hq ht hacks hops =>
        rw [h.rebuilt, hops]
        exact InMemoryStorage.mem_queues_of_makes (ha.returns hb hs hbefore) hw _
      | go hq ht hf hback hacks hops hm => rw [hm] at hw; cases hw
    · rw [Function.update_of_ne hji] at hj
      exact hqueues q (ha.made j w q hj hw)

end Step

/-! ### The start -/

section Start

variable {envs : ℕ → Env} {entries : List (WalEntry α)} {calls : ι → Call α}

omit [Fintype ι] [DecidableEq ι] in
theorem rebuilt_init (envs : ℕ → Env) (entries : List (WalEntry α)) (calls : ι → Call α) :
    SameState
    (rebuilt entries (init (InMemoryStorage.boot true envs entries) calls).1)
    (InMemoryStorage.boot true envs entries) := by
  have hops : (init (InMemoryStorage.boot true envs entries) calls).1.store.ops = [] := rfl
  rw [rebuilt, hops, List.append_nil, InMemoryStorage.boot_true]
  exact InMemoryStorage.recover_sameState envs entries

omit [Fintype ι] [DecidableEq ι] in
theorem settled_init (s : InMemoryStorage α) : Settled (init s calls) :=
  ⟨fun _ hid => absurd hid List.not_mem_nil, fun _ _ h => nomatch h⟩

omit [DecidableEq ι] in
theorem aligned_init : Aligned entries (init (InMemoryStorage.boot true envs entries) calls) := by
  have hsame := rebuilt_init envs entries calls
  constructor
  · rfl
  · have hsum :
        ∑ i, ((init (InMemoryStorage.boot true envs entries) calls).1.phases i).shadow = 0 :=
      Finset.sum_eq_zero fun i _ => rfl
    rw [hsame.inFlightTasks, logTasks, hsum, add_zero]
    symm
    refine (Multiset.filter_eq_self.mpr fun t _ => List.not_mem_nil).trans ?_
    exact add_zero (InMemoryStorage.boot true envs entries).inFlightTasks
  · exact le_rfl
  · intro i id h
    cases h
  · intro q hq
    rw [hsame.queues]
    exact hq
  · intro i w q h
    cases h

end Start

end Config

end Oxideq
