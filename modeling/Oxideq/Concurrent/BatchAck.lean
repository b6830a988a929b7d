import Mathlib.Tactic.FinCases
import Oxideq.Concurrent.Durability

/-!
# Acknowledged batches

`ack_batch` verifies, logs and removes in steps of their own. While no `nack` takes one of its
tasks in between, every task of a batch has been acknowledged when the call returns `Ok`
(`Config.Batches`). Its message is then pending or in flight nowhere, neither in memory nor, where
pushes and deliveries are logged in order, in a replay (`Config.final_run`).
-/

namespace Oxideq

variable {ι α : Type}

namespace Pc

variable {s : InMemoryStorage α} {env : Env} {pc pc' : Pc α} {a : Access α} {ids : List String}

/-- An `ack_batch` is before its log, or has failed. -/
def Collects (ids : List String) (pc : Pc α) : Prop :=
  (pc.phase = .idle ∧ pc ≠ .done (.ok .done)) ∨ pc.phase = .unlogged (.ackBatch ids)

/-- Past its log, `ack_batch` removes its tasks. -/
theorem Move.of_ackBatch (hm : Move s env pc a pc') (h : pc.Serves (.ackBatch ids))
    (hc : pc.Collects ids) (hlive : pc.finished = false) :
    pc'.Collects ids ∨ pc' = .removeTasks ids := by
  have hstart : ∀ c : Call α, pc = .start c → c = .ackBatch ids := by
    rintro c rfl
    obtain hc | ⟨id, t, -, hc⟩ := h.of_start
    · exact hc.symm
    · cases hc
  have hwork : ∀ w, pc.phase = .unlogged w → w = .ackBatch ids := by
    intro w hw
    rcases hc with ⟨hidle, -⟩ | hc
    · rw [hw] at hidle
      cases hidle
    · rw [hw] at hc
      cases hc
      rfl
  have hlogged : ∀ w, pc.phase ≠ .logged w := by
    intro w hw
    rcases hc with ⟨hidle, -⟩ | hc
    · rw [hw] at hidle
      cases hidle
    · rw [hw] at hc
      cases hc
  cases hm with
  | reject hr hack => exact Or.inl (Or.inl ⟨rfl, fun h => hr (by cases h; rfl)⟩)
  | createQueue hq | queue hq | queueBatch hq | dequeue hq | dequeueBatch hq _ _ _ | ack hq
  | nack hq | extendVisibility hq | scan => cases hstart _ rfl
  | ackBatch => exact Or.inl (Or.inl ⟨rfl, by simp⟩)
  | verify => exact Or.inl (Or.inl ⟨rfl, by simp⟩)
  | verified =>
    cases h.of_verify
    unfold toLog
    split
    · exact Or.inl (Or.inr rfl)
    · exact Or.inr rfl
  | unverified => exact Or.inl (Or.inl ⟨rfl, by simp⟩)
  | @acquire w => exact Or.inl (Or.inr (by rw [← hwork w rfl]; rfl))
  | @append w happ =>
    cases hwork w rfl
    exact Or.inr rfl
  | @appendFails w e happ =>
    cases hwork w rfl
    exact Or.inl (Or.inl ⟨rfl, by simp [failLog]⟩)
  | undoDequeue | undoDequeueBatch | undoNack => cases hwork _ rfl
  | undoNothing hw => exact Or.inl (Or.inl ⟨rfl, by simp⟩)
  | insertQueue | push hq | pushBatch hq | insertTask | bury hq | requeue hq _ | lost hq _
  | touch hq | untouched | acked | beginInsert | beginRemove | insertTasks | insertedTasks
  | removeTasks | removedTasks => exact absurd rfl (hlogged _)
  | scanned =>
    obtain ⟨t, ht⟩ := h.of_scanned
    cases ht
  | done => cases hlive

end Pc

namespace Work

/-- What was popped for the work is handed out by it. -/
theorem exists_delivered {w : Work α} {q : String} {item : QueueItem α} (h : item ∈ w.popped q) :
    ∃ t ∈ w.delivered, t.data = item.data := by
  cases w with
  | dequeue name item' taskId =>
    rw [popped] at h
    split at h
    · rw [List.mem_singleton.mp h]
      exact ⟨_, List.mem_singleton_self _, rfl⟩
    · cases h
  | dequeueBatch name deliveries =>
    rw [popped] at h
    split at h
    · obtain ⟨p, hp, rfl⟩ := List.mem_map.mp h
      exact ⟨_, List.mem_map_of_mem hp, rfl⟩
    · cases h
  | _ => cases h

/-- What the work pushes is returned by it, or new. -/
theorem exists_returned {w : Work α} {q : String} {item : QueueItem α}
    (h : item ∈ w.frontPush q ∨ item ∈ w.backPush q) :
    (∃ t ∈ w.returned, t.data = item.data) ∨ item.data ∈ w.offers := by
  cases w with
  | queue name item' =>
    rcases h with h | h
    · cases h
    · rw [backPush] at h
      split at h
      · rw [List.mem_singleton.mp h]
        exact Or.inr (List.mem_singleton_self _)
      · cases h
  | queueBatch name items =>
    rcases h with h | h
    · cases h
    · rw [backPush] at h
      split at h
      · obtain ⟨d, hd, rfl⟩ := List.mem_map.mp h
        exact Or.inr hd
      · cases h
  | nack id task =>
    refine Or.inl ⟨task.untimed, List.mem_singleton_self _, ?_⟩
    rcases h with h | h
    · rw [frontPush] at h
      split at h
      · rw [List.mem_singleton.mp h]
        rfl
      · cases h
    · rw [backPush] at h
      split at h
      · rw [List.mem_singleton.mp h]
        rfl
      · cases h
  | _ => rcases h with h | h <;> cases h

end Work

theorem Pc.offers_of_logged {pc : Pc α} {w : Work α} (hpc : pc.phase = .logged w) {m : α}
    (h : m ∈ w.offers) : m ∈ pc.offers := by
  cases pc with
  | apply w' =>
    cases hpc
    exact h
  | insertTasks name todo tasks =>
    cases hpc
    cases h
  | removeTasks todo =>
    cases hpc
    cases h
  | _ => cases hpc

namespace Config

variable [DecidableEq ι]

/-- An `ack_batch` past its log, with `todo` left to remove: its tasks are settled, and all but
those acknowledged. -/
structure Past (s : Config ι α × History ι α) (ids todo : List String) : Prop where
  settled : ∀ id ∈ ids, id ∈ s.2.settled
  acked : ∀ id ∈ ids, id ∈ todo ∨ id ∈ s.2.acked.map InFlightTask.id

/-- Where the calls of `ack_batch` stand. -/
def Batches (calls : ι → Call α) (s : Config ι α × History ι α) : Prop :=
  ∀ i ids, calls i = .ackBatch ids → (s.1.pc i).Collects ids ∨
    (∃ todo, s.1.pc i = .removeTasks todo ∧ Past s ids todo) ∨
      (s.1.pc i = .done (.ok .done) ∧ Past s ids [])

variable [Fintype ι]

section Step

variable {s s' : Config ι α × History ι α} {l : ι × Env} {ids : List String}

theorem mem_acked_step (hstep : (recorded ι α).step s l = some s') {id : String}
    (h : id ∈ s.2.acked.map InFlightTask.id) : id ∈ s'.2.acked.map InFlightTask.id := by
  rw [(recorded_move hstep).2.2, History.extend, List.map_append]
  exact List.mem_append_right _ h

/-- What is settled and acknowledged stays so. -/
theorem Past.step {todo : List String} (h : Past s ids todo)
    (hstep : (recorded ι α).step s l = some s') : Past s' ids todo := by
  refine ⟨fun id hid => ?_, fun id hid => (h.acked id hid).imp_right (mem_acked_step hstep)⟩
  rw [settled_step hstep]
  exact List.mem_append_right _ (h.settled id hid)

/-- The step that takes the call past its log settles its ids. -/
theorem Past.of_collects (hstep : (recorded ι α).step s l = some s')
    (hcollects : (s.1.pc l.1).Collects ids)
    (hremoves : ((s.1.pc l.1).step s.1.store l.2).2 = .removeTasks ids) : Past s' ids ids := by
  have hsettling : settling s l = ids := by
    rw [settling, hremoves]
    rcases hcollects with ⟨hphase, -⟩ | hphase
    · rw [phases, hphase]
      rfl
    · rw [phases, hphase]
      rfl
  refine ⟨fun id hid => ?_, fun id hid => Or.inl hid⟩
  rw [settled_step hstep, hsettling]
  exact List.mem_append_left _ hid

/-- One task less to remove. -/
theorem Past.remove {id : String} {todo : List String} (h : Past s ids (id :: todo))
    (hs : Settled s) (hvalid : s.1.store.Valid) (hstep : (recorded ι α).step s l = some s')
    (hremoving : s.1.pc l.1 = .removeTasks (id :: todo)) : Past s' ids todo := by
  refine ⟨(h.step hstep).settled, fun id' hid' => ?_⟩
  rcases h.acked id' hid' with htodo | hold
  · rcases List.mem_cons.mp htodo with rfl | htodo
    · refine Or.inr ?_
      -- a settled task is still in flight, or has been acknowledged by another call
      rcases hs.settled id' (h.settled id' hid') with hin | hold
      · obtain ⟨task, hl⟩ := Finmap.mem_iff.mp hin
        have hid : task.id = id' := hvalid.id_eq hl
        rw [(recorded_move hstep).2.2, History.extend, hremoving, List.map_append]
        refine List.mem_append_left _ ?_
        simp [Pc.acks, hl, hid]
      · exact mem_acked_step hstep hold
    · exact Or.inl htodo
  · exact Or.inr (mem_acked_step hstep hold)

theorem Batches.step {calls : ι → Call α} (hb : Batches calls s) (hs : Settled s)
    (hvalid : s.1.store.Valid) (hserving : Serving calls s.1)
    (hstep : (recorded ι α).step s l = some s') : Batches calls s' := by
  obtain ⟨henabled, ⟨a, pc', hmove⟩, -⟩ := recorded_move hstep
  intro j ids hcall
  by_cases hj : j = l.1
  · subst hj
    have hserves := hserving l.1
    rw [hcall] at hserves
    rw [hmove.pc_self hserves (by simp)]
    -- Before its log the call only collects; past it every step removes one task, or ends the call.
    rcases hb l.1 ids hcall with hcollects | ⟨todo, hremoving, hpast⟩ | ⟨hdone, -⟩
    · rcases hmove.move.of_ackBatch hserves.pc hcollects henabled.1 with hc | rfl
      · exact Or.inl hc
      · have hremoves := congrArg Prod.snd hmove.eq
        exact Or.inr (Or.inl ⟨ids, rfl, .of_collects hstep hcollects hremoves⟩)
    · have heq := hmove.eq
      rw [hremoving] at heq
      cases todo with
      | nil =>
        cases heq
        exact Or.inr (Or.inr ⟨rfl, hpast.step hstep⟩)
      | cons id todo =>
        cases heq
        exact Or.inr (Or.inl ⟨todo, rfl, hpast.remove hs hvalid hstep hremoving⟩)
    · have hfinished := henabled.1
      rw [hdone] at hfinished
      cases hfinished
  · rw [hmove.pc_of_ne hj]
    rcases hb j ids hcall with hcollects | ⟨todo, hremoving, hpast⟩ | ⟨hdone, hpast⟩
    · exact Or.inl hcollects
    · exact Or.inr (Or.inl ⟨todo, hremoving, hpast.step hstep⟩)
    · exact Or.inr (Or.inr ⟨hdone, hpast.step hstep⟩)

end Step

/-! ### Where acknowledged messages are not -/

section Acked

variable {entries : List (WalEntry α)} {calls : ι → Call α} {base : Multiset α}
  {s : Config ι α × History ι α} {t : InFlightTask α}

omit [DecidableEq ι] in
/-- A task that was handed out under an acknowledged id is the acknowledged one. -/
theorem Balanced.mem_acked (hb : Balanced base s) (ht : t ∈ s.2.handed)
    (hid : t.id ∈ s.2.acked.map InFlightTask.id) : t ∈ s.2.acked := by
  obtain ⟨t', ht', hid'⟩ := List.mem_map.mp hid
  have hhanded : t' ∈ s.2.handed :=
    Multiset.mem_of_le ((Multiset.le_add_left _ _).trans hb.handed) (Multiset.mem_coe.mpr ht')
  rwa [← Multiset.inj_on_of_nodup_map hb.distinct t' hhanded t ht hid']

omit [DecidableEq ι] in
/-- Where all messages differ, an acknowledged one is not among those that are pending, in flight,
in hand or on offer, and it is acknowledged once. -/
theorem Balanced.data_notMem (hb : Balanced base s)
    (hn : (base + s.2.pushed + ∑ i, ((s.1.pc i).offers : Multiset α)).Nodup) (ht : t ∈ s.2.acked) :
    t.data ∉ s.1.store.pendingData ∧ t.data ∉ s.1.tasks.map InFlightTask.data ∧
      (∀ i, t.data ∉ (s.1.pc i).offers) ∧ ∀ t' ∈ s.2.acked, t'.data = t.data → t' = t := by
  have hacked : t.data ∈ s.2.acked.map InFlightTask.data := List.mem_map_of_mem ht
  rw [← hb.data, Multiset.map_add, ← add_assoc, Multiset.nodup_add, Multiset.nodup_add,
    Multiset.map_coe, Multiset.coe_nodup] at hn
  obtain ⟨⟨-, hnodup, htables⟩, -, hoffers⟩ := hn
  have hnot := Multiset.disjoint_right.mp htables hacked
  rw [Multiset.mem_add, not_or] at hnot
  refine ⟨hnot.1, hnot.2, fun i hmem => ?_, fun t' ht' hdata => ?_⟩
  · refine Multiset.disjoint_left.mp hoffers (Multiset.mem_add.mpr (Or.inr hacked)) ?_
    exact Multiset.mem_sum.mpr ⟨i, Finset.mem_univ i, hmem⟩
  · exact List.inj_on_of_nodup_map hnodup ht' ht hdata

omit [DecidableEq ι] in
/-- What is pending in a replay is pending, in hand or on offer. -/
theorem Traced.mem_pendingData (h : Traced entries base s) {m : α}
    (hm : m ∈ (rebuilt entries s.1).pendingData) : m ∈ s.1.store.pendingData ∨
      m ∈ s.1.tasks.map InFlightTask.data ∨ ∃ i, m ∈ (s.1.pc i).offers := by
  obtain ⟨q, hq⟩ := InMemoryStorage.mem_pendingData.mp hm
  obtain ⟨item, hitem, rfl⟩ := List.mem_map.mp hq
  have hhand : ∀ i t, t ∈ (s.1.phases i).tasks → t.data = item.data →
      item.data ∈ s.1.tasks.map InFlightTask.data := by
    intro i t ht hdata
    rw [← hdata]
    refine Multiset.mem_map_of_mem _ (Multiset.mem_add.mpr (Or.inr ?_))
    exact Multiset.mem_sum.mpr ⟨i, Finset.mem_univ i, Multiset.mem_coe.mpr ht⟩
  -- an item of a replayed queue is in the table, popped and not logged, or logged and not pushed
  rcases h.mem_items.mp hitem with htable | ⟨i, hpop⟩ | ⟨i, hpush⟩
  · exact Or.inl (InMemoryStorage.mem_pendingData.mpr ⟨q, List.mem_map_of_mem htable⟩)
  · refine Or.inr (Or.inl ?_)
    cases hp : s.1.phases i with
    | unlogged w =>
      rw [hp] at hpop
      obtain ⟨t, ht, hdata⟩ := Work.exists_delivered hpop
      refine hhand i t ?_ hdata
      rw [hp]
      exact List.mem_append_left _ ht
    | _ => rw [hp] at hpop; cases hpop
  · cases hp : s.1.phases i with
    | logged w =>
      rw [hp] at hpush
      rcases Work.exists_returned hpush with ⟨t, ht, hdata⟩ | hoffer
      · refine Or.inr (Or.inl (hhand i t ?_ hdata))
        rw [hp]
        exact List.mem_append_right _ ht
      · exact Or.inr (Or.inr ⟨i, Pc.offers_of_logged hp hoffer⟩)
    | _ => rw [hp] at hpush; rcases hpush with hpush | hpush <;> cases hpush

omit [DecidableEq ι] in
/-- An acknowledged and settled message is not in a replay. -/
theorem Traced.data_notMem (h : Traced entries base s)
    (hn : (base + s.2.pushed + ∑ i, ((s.1.pc i).offers : Multiset α)).Nodup) (ht : t ∈ s.2.acked)
    (hsettled : t.id ∈ s.2.settled) : t.data ∉ (rebuilt entries s.1).messages := by
  obtain ⟨hpending, htasks, hoffers, honce⟩ := h.balanced.data_notMem hn ht
  intro hmem
  rcases Multiset.mem_add.mp hmem with hmem | hmem
  · rcases h.mem_pendingData hmem with hmem | hmem | ⟨i, hmem⟩
    · exact hpending hmem
    · exact htasks hmem
    · exact hoffers i hmem
  · obtain ⟨u, hu, hdata⟩ := Multiset.mem_map.mp hmem
    rw [h.aligned.tasks] at hu
    obtain ⟨hu, hopen⟩ := Multiset.mem_filter.mp hu
    -- what the log has in flight is in the table or in hand, or was removed by an `ack` not yet
    -- logged
    rcases Multiset.mem_add.mp hu with hu | hu
    · refine htasks ?_
      rw [← hdata]
      refine Multiset.mem_map_of_mem _ (Multiset.mem_of_le ?_ hu)
      exact add_le_add_right (Finset.sum_le_sum fun i _ => (s.1.phases i).shadow_le_tasks) _
    · -- it was removed and not logged, but its batch is settled
      have hacked := Multiset.mem_of_le h.aligned.unwritten hu
      rw [honce u (Multiset.mem_coe.mp hacked) hdata] at hopen
      exact hopen hsettled

end Acked

/-! ### Runs with batches -/

/-- The conditions on the steps: the ids drawn are new, no `nack` takes a task out of a batch
between its verification and its removal, a batch is logged with all of its tasks in flight by the
log or none, and pushes and deliveries are logged in order. -/
def BatchSafe (s : Config ι α × History ι α) (l : ι × Env) : Prop :=
  Fresh s l ∧ SettlesOpen s l ∧ LeavesSettled s l ∧ InOrder s l ∧ DeliversClear s l

instance (s : Config ι α × History ι α) (l : ι × Env) : Decidable (BatchSafe s l) :=
  inferInstanceAs (Decidable (_ ∧ _ ∧ _ ∧ _ ∧ _))

/-- Along the runs of such steps. -/
structure Acknowledging (persistent : Bool) (entries : List (WalEntry α)) (calls : ι → Call α)
    (base : Multiset α) (s : Config ι α × History ι α) : Prop where
  serving : Serving calls s.1
  balanced : Balanced base s
  settled : Settled s
  offered : Offered calls s
  batches : Batches calls s
  traced : persistent = true → Traced entries base s

theorem acknowledging_run {persistent : Bool} {entries : List (WalEntry α)} {envs : ℕ → Env}
    {calls : ι → Call α} (hcalls : ∀ i name, calls i ≠ .createQueue name)
    {s : Config ι α × History ι α}
    (h : (recorded ι α).Reach BatchSafe (init (.boot persistent envs entries) calls) s) :
    Acknowledging persistent entries calls
      (InMemoryStorage.boot persistent envs entries).messages s := by
  refine h.invariant (Acknowledging persistent entries calls
    (InMemoryStorage.boot persistent envs entries).messages) ?_ ?_
  · refine ⟨serving_start _ _, balanced_init (InMemoryStorage.valid_boot ..) calls, settled_init _,
      (zero_add _).le, ?_, ?_⟩
    · exact fun i ids _ => Or.inl (Or.inl ⟨rfl, nofun⟩)
    · rintro rfl
      exact traced_init envs entries calls
  · rintro s l s' ha ⟨hfresh, hopen, hleaves, hin, hd⟩ hstep
    have hc := ha.serving.createsAbsent hcalls l
    obtain ⟨-, ⟨a, pc', hmove⟩, -⟩ := recorded_move hstep
    exact ⟨hmove.serving ha.serving, ha.balanced.step hfresh hc hstep,
      ha.settled.step ha.balanced.valid hopen hleaves hstep, ha.offered.step hstep,
      ha.batches.step ha.settled ha.balanced.valid ha.serving hstep,
      fun hp => (ha.traced hp).step hfresh hc hopen hleaves hin hd hstep⟩

/-- In the runs whose steps meet `ok`: when an `ack_batch` has returned `Ok`, no message that was
handed out under one of its ids is pending or in flight, in memory or in what a restart makes of
the log. -/
def Final (persistent : Bool) (entries : List (WalEntry Bytes)) (calls : ι → Call Bytes)
    (ok : Config ι (Tag ι × Bytes) × History ι (Tag ι × Bytes) → ι × Env → Prop) : Prop :=
  ∀ envs s, (recorded ι (Tag ι × Bytes)).Reach ok
      (init (.boot persistent envs (tagLog ι entries)) (tagCalls calls)) s →
    ∀ i ids, calls i = .ackBatch ids → s.1.Returned i → ∀ t ∈ s.2.handed, t.id ∈ ids →
      t.data ∉ s.1.store.messages ∧ (persistent = true → ∀ envs',
        t.data ∉ (InMemoryStorage.recover envs'
          (tagLog ι entries ++ s.1.store.written)).messages)

/-- **A successful batch acknowledgement is final**, in the runs of such steps. -/
theorem final_run (persistent : Bool) (entries : List (WalEntry Bytes)) {calls : ι → Call Bytes}
    (hcalls : ∀ i name, calls i ≠ .createQueue name) :
    Final persistent entries calls BatchSafe := by
  intro envs s hreach i ids hcall hreturned t ht hid
  have htagged : ∀ i name, tagCalls calls i ≠ .createQueue name := by
    intro i name h
    have hi := hcalls i
    rw [tagCalls] at h
    cases hc : calls i with
    | createQueue name' => exact hi name' hc
    | _ => rw [hc] at h; cases h
  have ha := acknowledging_run htagged hreach
  have hpast : Past s ids [] := by
    have hbatch : tagCalls calls i = .ackBatch ids := by
      rw [tagCalls, hcall]
      rfl
    rcases ha.batches i ids hbatch with (⟨-, hne⟩ | hphase) | ⟨todo, hpc, -⟩ | ⟨-, hpast⟩
    · exact absurd hreturned hne
    · rw [hreturned] at hphase
      cases hphase
    · rw [hreturned] at hpc
      cases hpc
    · exact hpast
  have hacked := ha.balanced.mem_acked ht ((hpast.acked _ hid).resolve_left List.not_mem_nil)
  -- the payloads are tagged, so all messages of the run differ
  have hn : ((InMemoryStorage.boot persistent envs (tagLog ι entries)).messages + s.2.pushed
      + ∑ i, ((s.1.pc i).offers : Multiset (Tag ι × Bytes))).Nodup := by
    refine Multiset.nodup_of_le ?_ (distinct_tagged entries calls)
    rw [add_assoc]
    exact add_le_add (InMemoryStorage.messages_boot_le persistent envs _) ha.offered
  obtain ⟨hpending, htasks, -, -⟩ := ha.balanced.data_notMem hn hacked
  refine ⟨fun hmem => ?_, ?_⟩
  · rcases Multiset.mem_add.mp hmem with hmem | hmem
    · exact hpending hmem
    · refine htasks (Multiset.mem_of_le (Multiset.map_le_map ?_) hmem)
      exact Multiset.le_add_right _ _
  · intro hp envs'
    have hsame := InMemoryStorage.recover_sameState envs' (tagLog ι entries ++ s.1.store.written)
    rw [List.map_append] at hsame
    rw [← hsame.messages]
    exact (ha.traced hp).data_notMem hn hacked (hpast.settled _ hid)

/-- A batch of one task. -/
theorem final_run_single :
    let entries : List (WalEntry Bytes) :=
      [⟨.createQueue "jobs", 0⟩, ⟨.enqueue "jobs" [0x68], 0⟩, ⟨.dequeued "jobs" "5b0f6f4e", 0⟩]
    let written : List (WalEntry (Tag (Fin 1) × Bytes)) := [⟨.ackBatch ["5b0f6f4e"], 0⟩]
    (.logged 1 0, [0x68]) ∉ (InMemoryStorage.recover (fun _ => Env.quiet [])
      (tagLog (Fin 1) entries ++ written)).messages := by
  intro entries written
  let calls : Fin 1 → Call Bytes := ![.ackBatch ["5b0f6f4e"]]
  let start := init (.boot true (fun _ => Env.quiet []) (tagLog (Fin 1) entries)) (tagCalls calls)
  let task : InFlightTask (Tag (Fin 1) × Bytes) :=
    InFlightTask.deliver "5b0f6f4e" "jobs" 0 ⟨(.logged 1 0, [0x68]), 0⟩
  obtain ⟨s, hreach, hwritten, hreturned, htask⟩ := System.Reach.exists_of_run
    (recorded (Fin 1) (Tag (Fin 1) × Bytes)) BatchSafe start
    (fun s => s.1.store.written = written ∧ s.1.Returned 0 ∧ task ∈ s.2.handed)
    ([0, 0, 0, 0, 0, 0, 0].map (·, Env.quiet [])) (by decide +kernel)
  have hfinal : Final true entries calls BatchSafe :=
    final_run true entries fun i name => by fin_cases i; simp [calls]
  rw [← hwritten]
  exact (hfinal _ s hreach 0 ["5b0f6f4e"] rfl hreturned task htask (List.mem_singleton_self _)).2
    rfl _

/-- A `nack` takes the task after it was verified: the batch is acknowledged, and then its message
is pending again. -/
theorem not_final_nack :
    ¬ ∀ (entries : List (WalEntry Bytes)) (calls : Fin 2 → Call Bytes),
      (∀ i name, calls i ≠ .createQueue name) → Final true entries calls Fresh := by
  intro h
  let entries : List (WalEntry Bytes) :=
    [⟨.createQueue "jobs", 0⟩, ⟨.enqueue "jobs" [0x68], 0⟩, ⟨.dequeued "jobs" "5b0f6f4e", 0⟩]
  let calls : Fin 2 → Call Bytes := ![.ackBatch ["5b0f6f4e"], .nack "5b0f6f4e"]
  let start := init (.boot true (fun _ => Env.quiet []) (tagLog (Fin 2) entries)) (tagCalls calls)
  let task : InFlightTask (Tag (Fin 2) × Bytes) :=
    InFlightTask.deliver "5b0f6f4e" "jobs" 0 ⟨(.logged 1 0, [0x68]), 0⟩
  obtain ⟨s, hreach, hreturned, htask, hback⟩ := System.Reach.exists_of_run
    (recorded (Fin 2) (Tag (Fin 2) × Bytes)) Fresh start
    (fun s => s.1.Returned 0 ∧ task ∈ s.2.handed ∧ task.data ∈ s.1.store.messages)
    ([0, 0, 0, 1, 0, 0, 0, 0, 1, 1, 1].map (·, Env.quiet [])) (by decide +kernel)
  have hfinal : Final true entries calls Fresh :=
    h entries calls fun i name => by fin_cases i <;> simp [calls]
  exact (hfinal _ s hreach 0 ["5b0f6f4e"] rfl hreturned task htask (List.mem_singleton_self _)).1
    hback

end Config

end Oxideq
