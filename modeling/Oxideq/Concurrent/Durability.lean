import Mathlib.Tactic.FinCases
import Oxideq.Concurrent.Order

/-!
# Durability

What a restart finds after a crash in the middle of a run: in the runs whose pushes and deliveries
are logged in order, every message that was pushed and not acknowledged (`Config.durable_run`).
Two enqueuers that push in the other order than they log lose a message to the next `ack`
(`Config.not_durable_swapped`).
-/

namespace Oxideq

variable {ι α : Type}

/-- The calls that neither create a queue nor acknowledge a batch. -/
def Call.Basic : Call α → Prop
  | .createQueue _ => False
  | .ackBatch _ => False
  | _ => True

theorem Call.Basic.relabel {β : Type} {c : Call α} (h : c.Basic) (f : ℕ → α → β) :
    (c.relabel f).Basic := by
  cases c <;> exact h

theorem Call.Basic.ne_ackBatch {c : Call α} (h : c.Basic) (ids : List String) :
    c ≠ .ackBatch ids := by
  rintro rfl
  exact h

theorem Call.Basic.ne_createQueue {c : Call α} (h : c.Basic) (name : String) :
    c ≠ .createQueue name := by
  rintro rfl
  exact h

theorem InMemoryStorage.mem_pendingData {s : InMemoryStorage α} {m : α} :
    m ∈ s.pendingData ↔ ∃ q, m ∈ (s.items q).map QueueItem.data := by
  rw [InMemoryStorage.pendingData, Table.mem_total]
  constructor
  · rintro ⟨q, items, hl, hm⟩
    refine ⟨q, ?_⟩
    rw [InMemoryStorage.items_of_lookup hl]
    exact hm
  · rintro ⟨q, hm⟩
    have hne : s.items q ≠ [] := by
      intro hnil
      rw [hnil] at hm
      cases hm
    exact ⟨q, s.items q, InMemoryStorage.lookup_of_items rfl hne, hm⟩

/-- What the work hands out was popped for it. -/
theorem Work.exists_popped {w : Work α} {t : InFlightTask α} (h : t ∈ w.delivered) :
    ∃ q, ∃ item ∈ w.popped q, item.data = t.data := by
  cases w with
  | dequeue name item taskId =>
    rw [List.mem_singleton.mp h]
    exact ⟨name, item, by simp [popped], rfl⟩
  | dequeueBatch name deliveries =>
    obtain ⟨p, hp, rfl⟩ := List.mem_map.mp h
    refine ⟨name, p.2, ?_, rfl⟩
    rw [popped, if_pos rfl]
    exact List.mem_map_of_mem hp
  | _ => cases h

/-- What the work returns is pushed to an end of a queue. -/
theorem Work.exists_push {w : Work α} {t : InFlightTask α} (h : t ∈ w.returned) :
    ∃ q item, (item ∈ w.frontPush q ∨ item ∈ w.backPush q) ∧ item.data = t.data := by
  cases w with
  | nack id task =>
    rw [List.mem_singleton.mp h]
    cases hex : task.exhausted with
    | true => exact ⟨dlqName task.queueName, task.item, by simp [backPush, hex], rfl⟩
    | false => exact ⟨task.queueName, task.item, by simp [frontPush, hex], rfl⟩
  | _ => cases h

namespace Config

section Traced

variable [Fintype ι] {entries : List (WalEntry α)} {base : Multiset α}
  {s : Config ι α × History ι α}

/-- The items of a queue of the replay are in the table, popped and not logged, or logged and not
pushed. -/
theorem Traced.mem_items (h : Traced entries base s) {q : String} {item : QueueItem α} :
    item ∈ (rebuilt entries s.1).items q ↔ item ∈ s.1.store.items q ∨
      (∃ i, item ∈ (s.1.phases i).popped q) ∨
        ∃ i, item ∈ (s.1.phases i).front q ∨ item ∈ (s.1.phases i).back q := by
  obtain ⟨popped, hheld, hitems⟩ := h.ordered.items q
  -- what is popped and not logged is in the hands of one call
  have hpopped : item ∈ popped ↔ ∃ i, item ∈ (s.1.phases i).popped q := by
    constructor
    · intro hmem
      obtain ⟨i, hi⟩ := hheld.of_ne (List.ne_nil_of_mem hmem)
      exact ⟨i, by rwa [hi]⟩
    · rintro ⟨i, hi⟩
      rwa [hheld.eq i (List.ne_nil_of_mem hi)] at hi
  -- who is about to push is between its append and its last step
  have hwaiting : ∀ i, (s.1.phases i).front q ≠ [] ∨ (s.1.phases i).back q ≠ [] →
      i ∈ s.2.waiting := by
    intro i hne
    rw [h.ordered.waiting]
    cases hp : s.1.phases i with
    | logged w => exact ⟨w, rfl⟩
    | _ => rw [hp] at hne; rcases hne with hne | hne <;> exact absurd rfl hne
  have hfronts : item ∈ fronts s q ↔ ∃ i, item ∈ (s.1.phases i).front q := by
    rw [fronts, List.mem_flatMap]
    constructor
    · rintro ⟨i, -, hi⟩
      exact ⟨i, hi⟩
    · rintro ⟨i, hi⟩
      exact ⟨i, List.mem_reverse.mpr (hwaiting i (Or.inl (List.ne_nil_of_mem hi))), hi⟩
  have hbacks : item ∈ backs s q ↔ ∃ i, item ∈ (s.1.phases i).back q := by
    rw [backs, List.mem_flatMap]
    constructor
    · rintro ⟨i, -, hi⟩
      exact ⟨i, hi⟩
    · rintro ⟨i, hi⟩
      exact ⟨i, hwaiting i (Or.inr (List.ne_nil_of_mem hi)), hi⟩
  rw [hitems, List.mem_append, List.mem_append, List.mem_append, hfronts, hpopped, hbacks,
    exists_or, or_comm (b := item ∈ s.1.store.items q), or_assoc,
    or_comm (a := ∃ i, item ∈ (s.1.phases i).front q), or_assoc]

/-- What a call has in hand is pending in a replay, or in flight by the log. -/
theorem Traced.mem_tasks (h : Traced entries base s) {i : ι} {t : InFlightTask α}
    (ht : t ∈ (s.1.phases i).tasks) :
    t.data ∈ (rebuilt entries s.1).pendingData ∨ t ∈ (s.1.phases i).shadow := by
  have hpending : ∀ q item, item.data = t.data → item ∈ (rebuilt entries s.1).items q →
      t.data ∈ (rebuilt entries s.1).pendingData := by
    intro q item hdata hitem
    rw [← hdata]
    exact InMemoryStorage.mem_pendingData.mpr ⟨q, List.mem_map_of_mem hitem⟩
  -- Before its append the replay has the message where the call took it from, after it where the
  -- call will put it.
  cases hp : s.1.phases i with
  | idle =>
    rw [hp] at ht
    cases ht
  | unlogged w =>
    rw [hp] at ht
    rcases List.mem_append.mp ht with hdelivered | hreturned
    · obtain ⟨q, item, hitem, hdata⟩ := Work.exists_popped hdelivered
      refine Or.inl (hpending q item hdata (h.mem_items.mpr (Or.inr (Or.inl ⟨i, ?_⟩))))
      rw [hp]
      exact hitem
    · exact Or.inr (Multiset.mem_coe.mpr hreturned)
  | logged w =>
    rw [hp] at ht
    rcases List.mem_append.mp ht with hdelivered | hreturned
    · exact Or.inr (Multiset.mem_coe.mpr hdelivered)
    · obtain ⟨q, item, hitem, hdata⟩ := Work.exists_push hreturned
      refine Or.inl (hpending q item hdata (h.mem_items.mpr (Or.inr (Or.inr ⟨i, ?_⟩))))
      rw [hp]
      exact hitem

/-- **What is not acknowledged is in a replay**, when no batch was. -/
theorem Traced.mem_messages (h : Traced entries base s) (hnone : s.2.settled = []) {m : α}
    (hm : m ∈ base + s.2.pushed) (hack : m ∉ s.2.acked.map InFlightTask.data) :
    m ∈ (rebuilt entries s.1).messages := by
  have hflight : ∀ t ∈ logTasks s, t.data ∈ (rebuilt entries s.1).messages := by
    intro t ht
    refine Multiset.mem_add.mpr (Or.inr (Multiset.mem_map_of_mem InFlightTask.data ?_))
    rw [h.aligned.tasks, hnone]
    exact Multiset.mem_filter.mpr ⟨ht, List.not_mem_nil⟩
  -- pending, in flight, in hand or acknowledged; the last is excluded
  rw [← h.balanced.data, Multiset.map_add, ← add_assoc, Multiset.mem_add] at hm
  have hm := hm.resolve_right fun hacked => hack hacked
  rcases Multiset.mem_add.mp hm with hpending | htask
  · obtain ⟨q, hq⟩ := InMemoryStorage.mem_pendingData.mp hpending
    obtain ⟨item, hitem, rfl⟩ := List.mem_map.mp hq
    refine Multiset.mem_add.mpr (Or.inl (InMemoryStorage.mem_pendingData.mpr ⟨q, ?_⟩))
    exact List.mem_map_of_mem (h.mem_items.mpr (Or.inl hitem))
  · obtain ⟨t, ht, rfl⟩ := Multiset.mem_map.mp htask
    rcases Multiset.mem_add.mp ht with htable | hhand
    · exact hflight t (Multiset.mem_add.mpr (Or.inl (Multiset.mem_add.mpr (Or.inl htable))))
    · obtain ⟨i, -, hi⟩ := Multiset.mem_sum.mp hhand
      rcases h.mem_tasks (Multiset.mem_coe.mp hi) with hpending | hshadow
      · exact Multiset.mem_add.mpr (Or.inl hpending)
      · refine hflight t (Multiset.mem_add.mpr (Or.inl (Multiset.mem_add.mpr (Or.inr ?_))))
        exact Multiset.mem_sum.mpr ⟨i, Finset.mem_univ i, hshadow⟩

end Traced

/-! ### Runs without batches -/

variable [Fintype ι] [DecidableEq ι]

/-- Along the runs of basic calls whose pushes and deliveries are logged in order. -/
theorem traced_run {entries : List (WalEntry α)} {envs : ℕ → Env} {calls : ι → Call α}
    (hcalls : ∀ i, (calls i).Basic) {s : Config ι α × History ι α}
    (h : (recorded ι α).Reach (fun s l => Fresh s l ∧ InOrder s l ∧ DeliversClear s l)
      (init (.boot true envs entries) calls) s) :
    Traced entries (InMemoryStorage.boot true envs entries).messages s ∧ s.2.settled = [] := by
  refine (h.invariant (fun s => Serving calls s.1 ∧
    Traced entries (InMemoryStorage.boot true envs entries).messages s ∧ s.2.settled = []) ?_ ?_).2
  · exact ⟨serving_start _ _, traced_init envs entries calls, rfl⟩
  · rintro s l s' ⟨hserving, ht, hnone⟩ ⟨hfresh, hin, hd⟩ hstep
    have hsettling := hserving.settling_eq_nil (fun i => (hcalls i).ne_ackBatch) l
    have hc := hserving.createsAbsent (fun i => (hcalls i).ne_createQueue) l
    have hopen : SettlesOpen s l := by
      rw [SettlesOpen, hsettling]
      simp
    have hleaves : LeavesSettled s l := by
      rw [LeavesSettled, hnone]
      simp
    obtain ⟨-, ⟨a, pc', hmove⟩, -⟩ := recorded_move hstep
    refine ⟨hmove.serving hserving, ht.step hfresh hc hopen hleaves hin hd hstep, ?_⟩
    rw [settled_step hstep, hsettling, hnone, List.nil_append]

/-- At every point of a run whose steps meet `ok`, a restart finds every message that was there at
the start or was pushed since, and not acknowledged. -/
def Durable (entries : List (WalEntry Bytes)) (calls : ι → Call Bytes)
    (ok : Config ι (Tag ι × Bytes) × History ι (Tag ι × Bytes) → ι × Env → Prop) : Prop :=
  ∀ envs s, (recorded ι (Tag ι × Bytes)).Reach ok
      (init (.boot true envs (tagLog ι entries)) (tagCalls calls)) s →
    ∀ m ∈ (InMemoryStorage.boot true envs (tagLog ι entries)).messages + s.2.pushed,
      m ∉ s.2.acked.map InFlightTask.data →
        ∀ envs', m ∈ (InMemoryStorage.recover envs'
          (tagLog ι entries ++ s.1.store.written)).messages

/-- **At-least-once durability**, in the runs whose pushes and deliveries are logged in order. -/
theorem durable_run (entries : List (WalEntry Bytes)) {calls : ι → Call Bytes}
    (hcalls : ∀ i, (calls i).Basic) :
    Durable entries calls fun s l => Fresh s l ∧ InOrder s l ∧ DeliversClear s l := by
  intro envs s hreach m hm hack envs'
  have htagged : ∀ i, (tagCalls calls i).Basic := fun i => (hcalls i).relabel _
  obtain ⟨ht, hnone⟩ := traced_run htagged hreach
  have hsame := InMemoryStorage.recover_sameState envs' (tagLog ι entries ++ s.1.store.written)
  rw [List.map_append] at hsame
  rw [← hsame.messages]
  exact ht.mem_messages hnone hm hack

/-- A message that is popped and not logged when the process stops. -/
theorem durable_run_popped :
    let entries : List (WalEntry Bytes) := [⟨.createQueue "jobs", 0⟩]
    let written : List (WalEntry (Tag (Fin 2) × Bytes)) :=
      [⟨.enqueue "jobs" (.called 0 0, [0x68]), 0⟩]
    (.called 0 0, [0x68]) ∈ (InMemoryStorage.recover (fun _ => Env.quiet [])
      (tagLog (Fin 2) entries ++ written)).messages := by
  intro entries written
  let calls : Fin 2 → Call Bytes := ![.queue "jobs" [0x68], .dequeue "jobs"]
  let start := init (.boot true (fun _ => Env.quiet []) (tagLog (Fin 2) entries)) (tagCalls calls)
  obtain ⟨s, hreach, hwritten, hpushed, hacked⟩ := System.Reach.exists_of_run
    (recorded (Fin 2) (Tag (Fin 2) × Bytes))
    (fun s l => Fresh s l ∧ InOrder s l ∧ DeliversClear s l) start
    (fun s => s.1.store.written = written ∧ (.called 0 0, [0x68]) ∈ s.2.pushed ∧ s.2.acked = [])
    ([0, 0, 0, 0, 1].map (·, Env.quiet ["5b0f6f4e"])) (by decide +kernel)
  rw [← hwritten]
  refine durable_run entries (fun i => by fin_cases i <;> trivial) _ s hreach _
    (Multiset.mem_add.mpr (Or.inr (Multiset.mem_coe.mpr hpushed))) ?_ _
  rw [hacked]
  exact List.not_mem_nil

/-- Two enqueuers push in the other order than they log. The `dequeue` gets the second message,
the replay pairs its id with the first one, and the `ack` removes that. -/
theorem not_durable_swapped :
    ¬ ∀ (entries : List (WalEntry Bytes)) (calls : Fin 4 → Call Bytes), (∀ i, (calls i).Basic) →
      Durable entries calls Fresh := by
  intro h
  let entries : List (WalEntry Bytes) := [⟨.createQueue "jobs", 0⟩]
  let calls : Fin 4 → Call Bytes :=
    ![.queue "jobs" [0x31], .queue "jobs" [0x32], .dequeue "jobs", .ack "5b0f6f4e"]
  let start := init (.boot true (fun _ => Env.quiet []) (tagLog (Fin 4) entries)) (tagCalls calls)
  let lost : Tag (Fin 4) × Bytes := (.called 0 0, [0x31])
  obtain ⟨s, hreach, hpushed, hacked, hlost⟩ := System.Reach.exists_of_run
    (recorded (Fin 4) (Tag (Fin 4) × Bytes)) Fresh start
    (fun s => lost ∈ s.2.pushed ∧ lost ∉ s.2.acked.map InFlightTask.data ∧
      lost ∉ (InMemoryStorage.recover (fun _ => Env.quiet [])
        (tagLog (Fin 4) entries ++ s.1.store.written)).messages)
    ([0, 0, 0, 1, 1, 1, 1, 0, 2, 2, 2, 2, 3, 3, 3, 3].map (·, Env.quiet ["5b0f6f4e"]))
    (by decide +kernel)
  exact hlost (h entries calls (fun i => by fin_cases i <;> trivial) _ s hreach lost
    (Multiset.mem_add.mpr (Or.inr (Multiset.mem_coe.mpr hpushed))) hacked _)

end Config

end Oxideq
