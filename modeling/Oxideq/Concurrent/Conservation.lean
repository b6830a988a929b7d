import Mathlib.Algebra.BigOperators.Fin
import Oxideq.Concurrent.Tagged

/-!
# Conservation

At every point of a run, every message that was pushed is in exactly one place: pending at one
position of one queue, in flight under one id, in the hands of one unfinished call, or removed by
an `ack` or `ack_batch` that named its id (`Config.existsUnique_place`). The runs are those with
fresh ids in which a `create_queue` is left alone between its check and its insert.
-/

namespace Oxideq

variable {ι α : Type}

/-! ### What the calls bring -/

/-- The payloads the work is about to push. -/
def Work.offers : Work α → List α
  | .queue _ item => [item]
  | .queueBatch _ items => items
  | _ => []

/-- The queue the work is about to create. -/
def Work.creates : Work α → Option String
  | .createQueue name => some name
  | _ => none

/-- The queue a `create_queue` between its check and its insert is about to create. -/
def Phase.creates : Phase α → Option String
  | .idle => none
  | .unlogged w => w.creates
  | .logged w => w.creates

namespace Pc

/-- The payloads the call has not pushed yet. -/
def offers : Pc α → List α
  | .start c => c.payloads
  | .waitWal w => w.offers
  | .appendWal w => w.offers
  | .restore w _ => w.offers
  | .apply w => w.offers
  | _ => []

theorem offers_afterLog (w : Work α) : (afterLog w).offers = w.offers := by
  cases w <;> rfl

theorem offers_toLog (s : InMemoryStorage α) (w : Work α) : (toLog s w).offers = w.offers := by
  unfold toLog
  split
  · rfl
  · exact offers_afterLog w

/-- What a step pushes was on offer. -/
theorem Move.pushes_add_offers_le {s : InMemoryStorage α} {env : Env} {pc pc' : Pc α} {a : Access α}
    (hm : Move s env pc a pc') :
    (pc.pushes s + pc'.offers : Multiset α) ≤ (pc.offers : Multiset α) := by
  cases hm with
  | createQueue h | queue h | queueBatch h | dequeue h | dequeueBatch h _ _ _ | ack h | nack h
  | extendVisibility h | verified =>
    rw [offers_toLog]
    exact (zero_add _).le
  | @appendFails w e h =>
    obtain hf | ⟨-, e', hf⟩ := failLog_cases e w
    · rw [hf]
      exact (zero_add _).le
    · rw [hf]
      exact Multiset.zero_le _
  | append h =>
    rw [offers_afterLog]
    exact (zero_add _).le
  | push h => simp [pushes, offers, Work.offers, h]
  | pushBatch h => simp [pushes, offers, Work.offers, h]
  | @lost w name e hw h =>
    -- the queue the payloads were meant for is not there, so none is pushed
    have hnone : pushes s (.apply w) = [] := by
      cases w with
      | queue name' item => cases hw; exact if_neg h
      | queueBatch name' items => cases hw; exact if_neg h
      | _ => rfl
    rw [hnone]
    exact Multiset.zero_le _
  | _ => simp [pushes, offers, Call.payloads, Work.offers]

theorem creates_toLog (s : InMemoryStorage α) (w : Work α) :
    (toLog s w).phase.creates = w.creates := by
  rw [phase_toLog]
  split <;> rfl

/-- Between its check and its insert, a `create_queue` left alone finds no queue of its name. -/
theorem Move.creates_notMem {s : InMemoryStorage α} {env : Env} {pc pc' : Pc α} {a : Access α}
    (hm : Move s env pc a pc') (h : ∀ name, pc.phase.creates = some name → name ∉ s.queues) :
    ∀ name, pc'.phase.creates = some name → name ∉ (a.run s env).queues := by
  intro name hname
  cases hm with
  | createQueue hn =>
    rw [creates_toLog] at hname
    cases hname
    exact hn
  | queue hq | queueBatch hq | dequeue hq | dequeueBatch hq _ _ _ | ack hq | nack hq
  | extendVisibility hq | verified =>
    rw [creates_toLog] at hname
    cases hname
  -- from here on the check lies behind: the hypothesis on the runs keeps its result
  | acquire => exact h name hname
  | append happ =>
    rw [phase_afterLog] at hname
    exact h name hname
  | @appendFails w e happ =>
    obtain hf | ⟨-, e', hf⟩ := failLog_cases e w
    · rw [hf] at hname
      exact h name hname
    · rw [hf] at hname
      cases hname
  | _ => cases hname

end Pc

namespace Config

variable [Fintype ι] [DecidableEq ι]

/-! ### Runs -/

/-- While a `create_queue` is between its check and its insert, no other call takes a step. -/
def CreatesAlone (s : Config ι α × History ι α) (l : ι × Env) : Prop :=
  ∀ j, j ≠ l.1 → (s.1.phases j).creates = none

/-- The start of the runs: the calls are about to be made on a rebuilt store. -/
def init (s : InMemoryStorage α) (calls : ι → Call α) : Config ι α × History ι α :=
  (start s calls, History.start s)

omit [DecidableEq ι] in
theorem balanced_init {s : InMemoryStorage α} (hs : s.Valid) (calls : ι → Call α) :
    Balanced s.messages (init s calls) := by
  have htasks : (init s calls).1.tasks + ((init s calls).2.acked : Multiset (InFlightTask α))
      = s.inFlightTasks := by
    have hsum : ∑ i, (((start s calls).phases i).tasks : Multiset (InFlightTask α)) = 0 :=
      Finset.sum_eq_zero fun i _ => rfl
    rw [tasks, init, hsum, add_zero]
    exact add_zero _
  constructor
  · exact hs
  · exact fun i => trivial
  · exact hs.nodup_ids
  · exact htasks.le
  · rw [htasks]
    exact (add_zero _).symm

/-- Queues about to be created do not exist yet. -/
def CreatingAbsent (s : Config ι α × History ι α) : Prop :=
  ∀ i name, (s.1.phases i).creates = some name → name ∉ s.1.store.queues

omit [Fintype ι] [DecidableEq ι] in
theorem CreatingAbsent.createsAbsent {s : Config ι α × History ι α} (h : CreatingAbsent s)
    (l : ι × Env) : CreatesAbsent s.1 l := by
  intro name hname
  refine h l.1 name ?_
  rw [hname]
  rfl

theorem CreatingAbsent.step {s s' : Config ι α × History ι α} {l : ι × Env}
    (h : CreatingAbsent s) (ha : CreatesAlone s l) (hs : (recorded ι α).step s l = some s') :
    CreatingAbsent s' := by
  obtain ⟨i, env⟩ := l
  obtain ⟨-, ⟨a, pc', hstep⟩, -⟩ := recorded_step hs
  intro j name hname
  rw [hstep.phases] at hname
  rw [hstep.store]
  by_cases hj : j = i
  · rw [hj, Function.update_self] at hname
    exact hstep.move.creates_notMem (h i) name hname
  -- no other call is in between, so none is affected by an insert of this one
  · rw [Function.update_of_ne hj, ha j hj] at hname
    cases hname

theorem offers_resume (loop : Option (List String × ℕ)) (pc : Pc α) :
    (Thread.resume loop pc).pc.offers = pc.offers := by
  have hnext : ∀ (count : ℕ) (ids : List String),
      (Thread.next count ids : Thread α).pc.offers = [] := by
    intro count ids
    cases ids <;> rfl
  unfold Thread.resume
  split
  · exact hnext _ _
  · exact hnext _ _
  · exact hnext _ _
  · rfl

/-- What was pushed, and what the calls have not pushed yet, are payloads of the calls. -/
def Offered (calls : ι → Call α) (s : Config ι α × History ι α) : Prop :=
  (s.2.pushed : Multiset α) + ∑ i, ((s.1.pc i).offers : Multiset α)
    ≤ ∑ i, ((calls i).payloads : Multiset α)

theorem Offered.step {calls : ι → Call α} {s s' : Config ι α × History ι α} {l : ι × Env}
    (h : Offered calls s) (hs : (recorded ι α).step s l = some s') : Offered calls s' := by
  obtain ⟨i, env⟩ := l
  obtain ⟨-, ⟨a, pc', hstep⟩, hrec⟩ := recorded_step hs
  have hpushed : (s'.2.pushed : Multiset α) = (s.1.pc i).pushes s.1.store + s.2.pushed := by
    rw [hrec, History.extend, Multiset.coe_add]
  have hsum : ((s.1.pc i).offers : Multiset α) + ∑ j, ((s'.1.pc j).offers : Multiset α)
      = pc'.offers + ∑ j, ((s.1.pc j).offers : Multiset α) := by
    -- only the offers of the thread that moves change
    have h := System.sum_update_add (fun t : Thread α => (t.pc.offers : Multiset α)) s.1.threads i
      (Thread.resume (s.1.threads i).loop pc')
    rw [← hstep.threads, offers_resume] at h
    exact h
  refine le_trans ?_ h
  refine le_of_add_le_add_left (a := ((s.1.pc i).offers : Multiset α)) ?_
  calc _ = ((s.1.pc i).offers : Multiset α) + (∑ j, ((s'.1.pc j).offers : Multiset α))
        + s'.2.pushed := by abel
    _ = (pc'.offers : Multiset α) + (∑ j, ((s.1.pc j).offers : Multiset α)) + s'.2.pushed := by
        rw [hsum]
    _ = ((s.1.pc i).pushes s.1.store + pc'.offers : Multiset α)
        + (s.2.pushed + ∑ j, ((s.1.pc j).offers : Multiset α)) := by rw [hpushed]; abel
    _ ≤ _ := add_le_add_left hstep.move.pushes_add_offers_le _

/-- Along the runs: the balance, what is about to be created, and what was on offer. -/
theorem balanced_run {s₀ : InMemoryStorage α} (hs : s₀.Valid) {calls : ι → Call α}
    {s : Config ι α × History ι α}
    (h : (recorded ι α).Reach (fun s l => Fresh s l ∧ CreatesAlone s l) (init s₀ calls) s) :
    Balanced s₀.messages s ∧ CreatingAbsent s ∧ Offered calls s := by
  refine h.invariant (fun s => Balanced s₀.messages s ∧ CreatingAbsent s ∧ Offered calls s)
    ?_ ?_
  · refine ⟨balanced_init hs calls, ?_, ?_⟩
    · intro i name hname
      cases hname
    · exact (zero_add _).le
  · rintro s l s' ⟨hb, hc, ho⟩ ⟨hf, ha⟩ hstep
    exact ⟨hb.step hf (hc.createsAbsent l) hstep, hc.step ha hstep, ho.step hstep⟩

end Config

/-! ### Places -/

/-- Where a message can be. -/
inductive Place (ι : Type) where
  | pending (queue : String) (position : ℕ)
  | inFlight (taskId : String)
  | held (i : ι)
  | removed (taskId : String)

def Place.kind : Place ι → Fin 4
  | .pending _ _ => 0
  | .inFlight _ => 1
  | .held _ => 2
  | .removed _ => 3

namespace Config

/-- Message `m` is at the given place. -/
def At (s : Config ι α × History ι α) (m : α) : Place ι → Prop
  | .pending queue position =>
    ∃ items, s.1.store.queues.lookup queue = some items ∧
      (items.map QueueItem.data)[position]? = some m
  | .inFlight taskId => ∃ task, s.1.store.inFlight.lookup taskId = some task ∧ task.data = m
  | .held i => m ∈ (s.1.phases i).tasks.map InFlightTask.data
  | .removed taskId => ∃ task ∈ s.2.acked, task.id = taskId ∧ task.data = m

section Places

variable [Fintype ι] {s : Config ι α × History ι α} {m : α}

/-- The messages at each of the four kinds of places. -/
def shares (s : Config ι α × History ι α) : Fin 4 → Multiset α
  | 0 => s.1.store.pendingData
  | 1 => s.1.store.inFlightTasks.map InFlightTask.data
  | 2 => ∑ i, ((s.1.phases i).tasks.map InFlightTask.data : Multiset α)
  | 3 => (s.2.acked.map InFlightTask.data : Multiset α)

theorem sum_shares (s : Config ι α × History ι α) :
    ∑ k, shares s k
      = s.1.store.pendingData + (s.1.tasks + s.2.acked).map InFlightTask.data := by
  have hheld : (∑ i, ((s.1.phases i).tasks : Multiset (InFlightTask α))).map InFlightTask.data
      = ∑ i, ((s.1.phases i).tasks.map InFlightTask.data : Multiset α) :=
    map_sum (Multiset.mapAddMonoidHom InFlightTask.data) _ _
  rw [Fin.sum_univ_four, tasks, Multiset.map_add, Multiset.map_add, hheld, ← add_assoc,
    ← add_assoc]
  rfl

/-- A message is counted at the kind of place where it is. -/
theorem At.mem_shares {p : Place ι} (h : At s m p) : m ∈ shares s p.kind := by
  cases p with
  | pending queue position =>
    obtain ⟨items, hl, hm⟩ := h
    exact (Table.mem_total _).mpr ⟨queue, items, hl, List.mem_of_getElem? hm⟩
  | inFlight taskId =>
    obtain ⟨task, hl, rfl⟩ := h
    have hmem := Multiset.mem_map_of_mem InFlightTask.data (InMemoryStorage.mem_inFlightTasks hl)
    exact hmem
  | held i => exact Multiset.mem_sum.mpr ⟨i, Finset.mem_univ i, h⟩
  | removed taskId =>
    obtain ⟨task, ht, -, rfl⟩ := h
    exact Multiset.mem_coe.mpr (List.mem_map_of_mem ht)

theorem exists_at_of_mem {k : Fin 4} (h : m ∈ shares s k) : ∃ p, At s m p := by
  match k with
  | 0 =>
    obtain ⟨queue, items, hl, hm⟩ := (Table.mem_total _).mp h
    obtain ⟨position, hp⟩ := List.mem_iff_getElem?.mp (Multiset.mem_coe.mp hm)
    exact ⟨.pending queue position, items, hl, hp⟩
  | 1 =>
    obtain ⟨t, ht, rfl⟩ := Multiset.mem_map.mp h
    obtain ⟨taskId, task, hl, hmem⟩ := (Table.mem_total _).mp ht
    rw [InMemoryStorage.taskShare, Multiset.mem_singleton] at hmem
    exact ⟨.inFlight taskId, task, hl, by rw [hmem, InFlightTask.untimed_data]⟩
  | 2 =>
    obtain ⟨i, -, hi⟩ := Multiset.mem_sum.mp h
    exact ⟨.held i, hi⟩
  | 3 =>
    obtain ⟨task, ht, hm⟩ := List.mem_map.mp (Multiset.mem_coe.mp h)
    exact ⟨.removed task.id, task, ht, rfl, hm⟩

/-- Without duplicates, a message is at one place only. -/
theorem At.eq (hn : (∑ k, shares s k).Nodup) {p p' : Place ι} (h : At s m p) (h' : At s m p') :
    p = p' := by
  -- Twice counted at two kinds of places is twice counted; at one kind the two places are the same.
  have hkind := System.eq_of_mem_of_nodup_sum hn h.mem_shares h'.mem_shares
  have hpart : ∀ k, (shares s k).Nodup := fun k =>
    Multiset.nodup_of_le (Finset.single_le_sum (fun _ _ => Multiset.zero_le _) (Finset.mem_univ k))
      hn
  cases p with
  | pending queue position =>
    cases p' with
    | pending queue' position' =>
      obtain ⟨items, hl, hm⟩ := h
      obtain ⟨items', hl', hm'⟩ := h'
      -- the same queue, and the same position in it
      have hqueue : queue = queue' := Table.key_eq_of_nodup _ (hpart 0) hl hl'
        (List.mem_of_getElem? hm) (List.mem_of_getElem? hm')
      subst hqueue
      rw [hl, Option.some_inj] at hl'
      subst hl'
      have hnd : (items.map QueueItem.data).Nodup :=
        Multiset.coe_nodup.mp (Multiset.nodup_of_le (Table.le_total _ hl) (hpart 0))
      have hpos :=
        (List.getElem?_inj (List.getElem?_eq_some_iff.mp hm).1 hnd).mp (hm.trans hm'.symm)
      rw [hpos]
    | _ => cases hkind
  | inFlight taskId =>
    cases p' with
    | inFlight taskId' =>
      obtain ⟨task, hl, hm⟩ := h
      obtain ⟨task', hl', hm'⟩ := h'
      have hnd := hpart 1
      rw [shares, InMemoryStorage.inFlightTasks_eq, Multiset.map_map] at hnd
      -- two entries of the table with one payload are one entry
      have hentry := Multiset.inj_on_of_nodup_map hnd _ (Finmap.lookup_eq_some_iff.mp hl) _
        (Finmap.lookup_eq_some_iff.mp hl') (hm.trans hm'.symm)
      cases hentry
      rfl
    | _ => cases hkind
  | held i =>
    cases p' with
    | held i' => exact congrArg _ (System.eq_of_mem_of_nodup_sum (hpart 2) h h')
    | _ => cases hkind
  | removed taskId =>
    cases p' with
    | removed taskId' =>
      obtain ⟨task, ht, rfl, hm⟩ := h
      obtain ⟨task', ht', rfl, hm'⟩ := h'
      have hnd : (s.2.acked.map InFlightTask.data).Nodup := Multiset.coe_nodup.mp (hpart 3)
      rw [List.inj_on_of_nodup_map hnd ht ht' (hm.trans hm'.symm)]
    | _ => cases hkind

end Places

/-! ### The conservation theorem -/

variable [Fintype ι] [DecidableEq ι]

/-- A message is in exactly one place, where no two messages are alike. -/
theorem existsUnique_place_of_distinct {entries : List (WalEntry α)} {calls : ι → Call α}
    (hd : Distinct entries calls) (persistent : Bool) (envs : ℕ → Env)
    {s : Config ι α × History ι α}
    (h : (recorded ι α).Reach (fun s l => Fresh s l ∧ CreatesAlone s l)
      (init (InMemoryStorage.boot persistent envs entries) calls) s) {m : α}
    (hm : m ∈ (InMemoryStorage.boot persistent envs entries).messages + s.2.pushed) :
    ∃! p, At s m p := by
  obtain ⟨hb, -, ho⟩ := balanced_run (InMemoryStorage.valid_boot persistent envs entries) h
  -- the balance: what was pushed is what is somewhere
  rw [← hb.data, ← sum_shares] at hm
  have hn : (∑ k, shares s k).Nodup := by
    rw [sum_shares, hb.data]
    -- the payloads come from the log and the calls, which have no two alike
    refine Multiset.nodup_of_le (add_le_add ?_ ?_) hd
    · exact InMemoryStorage.messages_boot_le persistent envs entries
    · exact (Multiset.le_add_right _ _).trans ho
  obtain ⟨k, -, hk⟩ := Multiset.mem_sum.mp hm
  obtain ⟨p, hp⟩ := exists_at_of_mem hk
  exact ⟨p, hp, fun p' hp' => hp'.eq hn hp⟩

/-- **Conservation.** At every point of a run with fresh ids in which every `create_queue` is left
alone between its check and its insert, every message pushed so far, or there at the start, is in
exactly one place. Appends may fail at will. -/
theorem existsUnique_place (persistent : Bool) (envs : ℕ → Env)
    (entries : List (WalEntry Bytes)) (calls : ι → Call Bytes)
    {s : Config ι (Tag ι × Bytes) × History ι (Tag ι × Bytes)}
    (h : (recorded ι (Tag ι × Bytes)).Reach (fun s l => Fresh s l ∧ CreatesAlone s l)
      (init (InMemoryStorage.boot persistent envs (tagLog ι entries)) (tagCalls calls)) s)
    {m : Tag ι × Bytes}
    (hm : m ∈ (InMemoryStorage.boot persistent envs (tagLog ι entries)).messages + s.2.pushed) :
    ∃! p, At s m p :=
  existsUnique_place_of_distinct (distinct_tagged entries calls) persistent envs h hm

/-- A message that `dequeue` has popped and not logged yet. -/
theorem existsUnique_place_popped :
    let calls : Fin 2 → Call Bytes := ![.dequeue "jobs", .dequeue "jobs"]
    let entries : List (WalEntry Bytes) := [⟨.createQueue "jobs", 0⟩, ⟨.enqueue "jobs" [0x68], 0⟩]
    let s := init (InMemoryStorage.boot true (fun _ => Env.quiet []) (tagLog (Fin 2) entries))
      (tagCalls calls)
    let l : Fin 2 × Env := (0, Env.quiet ["5b0f6f4e"])
    ∃! p, At (s.1.stepAt l.1 l.2, History.extend s.1 l s.2) (.logged 1 0, [0x68]) p := by
  intro calls entries s l
  refine existsUnique_place true (fun _ => Env.quiet []) entries calls
    (System.Reach.start.step (l := l) ⟨?_, ?_⟩ ?_) ?_
  · unfold Fresh
    decide
  · unfold CreatesAlone
    decide
  · rfl
  · decide

end Config

end Oxideq
