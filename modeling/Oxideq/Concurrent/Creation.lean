import Mathlib.Tactic.FinCases
import Oxideq.Concurrent.Alignment

/-!
# Creating queues

`create_queue` checks, logs and inserts in steps of their own, and the insert overwrites. While
each insert finds no queue of its name, at most one call per name returns `Ok`, no call of
`create_queue` changes a queue that is there, and when all calls have returned, the log rebuilds
every queue with the items it has (`Config.keepsQueues`). Two creators side by side destroy a
message (`Config.not_keepsQueues_creators`).
-/

namespace Oxideq

variable {ι α : Type}

/-- `create_queue`, and the calls that only add items. -/
def Call.Fills : Call α → Prop
  | .createQueue _ => True
  | .queue _ _ => True
  | .queueBatch _ _ => True
  | .nack _ => True
  | _ => False

/-- What the call is about to push to the queue. -/
def Phase.landing (q : String) : Phase α → Multiset (QueueItem α)
  | .logged w => w.frontPush q + w.backPush q
  | _ => 0

section Fills

variable {c : Call α}

theorem Work.Serves.popped_of_fills {w : Work α} (h : w.Serves c) (hc : c.Fills) (q : String) :
    w.popped q = [] := by
  cases h <;> first | rfl | exact hc.elim

theorem Work.Serves.settles_of_fills {w : Work α} (h : w.Serves c) (hc : c.Fills) :
    w.settles = [] := by
  cases h <;> first | rfl | exact hc.elim

theorem Pc.Serves.begun_of_fills {pc : Pc α} (h : pc.Serves c) (hc : c.Fills) (pc' : Pc α) :
    pc.begun pc' = [] := by
  unfold Pc.begun
  split
  · rw [h.eq_of_start (by simp)] at hc
    exact hc.elim
  · rw [h.eq_of_start (by simp)] at hc
    exact hc.elim
  · rfl

end Fills

/-! ### Creators -/

namespace Pc

/-- The steps of a `create_queue`: only the insert touches a table, and only after it the call
returns `Ok`. -/
theorem Move.of_createQueue {s : InMemoryStorage α} {env : Env} {pc pc' : Pc α} {a : Access α}
    (hm : Move s env pc a pc') {name : String} (h : pc.Serves (.createQueue name))
    (hlive : pc.finished = false) :
    (pc.phase = .logged (.createQueue name) ∧ a = .insertQueue name) ∨
      ((a = .look ∨ ∃ op, a = .log op) ∧ pc' ≠ .done (.ok .done)) := by
  have hwork : ∀ w : Work α, pc.phase = .unlogged w ∨ pc.phase = .logged w →
      w = .createQueue name := by
    intro w hw
    cases h.work hw
    rfl
  have hstart : ∀ c : Call α, pc = .start c → c = .createQueue name := by
    rintro c rfl
    obtain hc | ⟨id, t, -, hc⟩ := h.of_start
    · exact hc.symm
    · cases hc
  cases hm with
  | reject hr hack => exact Or.inr ⟨Or.inl rfl, fun h => hr (by cases h; rfl)⟩
  | createQueue hn =>
    refine Or.inr ⟨Or.inl rfl, ?_⟩
    unfold toLog
    split <;> simp [afterLog]
  | queue hq | queueBatch hq | dequeue hq | dequeueBatch hq _ _ _ | ack hq | nack hq
  | extendVisibility hq | ackBatch | scan => cases hstart _ rfl
  | verify | verified | unverified => cases h.of_verify
  | acquire => exact Or.inr ⟨Or.inl rfl, by simp⟩
  | @append w happ =>
    cases hwork w (Or.inl rfl)
    exact Or.inr ⟨Or.inr ⟨_, rfl⟩, by simp [afterLog]⟩
  | @appendFails w e happ =>
    cases hwork w (Or.inl rfl)
    exact Or.inr ⟨Or.inl rfl, by simp [failLog]⟩
  | undoDequeue | undoDequeueBatch | undoNack => cases hwork _ (Or.inl rfl)
  | undoNothing hw => exact Or.inr ⟨Or.inl rfl, by simp⟩
  | insertQueue =>
    cases hwork _ (Or.inr rfl)
    exact Or.inl ⟨rfl, rfl⟩
  | push hq | pushBatch hq | insertTask | bury hq | requeue hq _ | touch hq | untouched | acked
  | beginInsert | beginRemove | insertTasks | insertedTasks | removeTasks | removedTasks =>
    cases hwork _ (Or.inr rfl)
  | lost hw hq => exact Or.inr ⟨Or.inl rfl, by simp⟩
  | scanned =>
    obtain ⟨t, ht⟩ := h.of_scanned
    cases ht
  | done => cases hlive

end Pc

/-- The same items in every queue, up to their order, and the same tasks in flight, clock readings
aside. -/
structure SameContents (s r : InMemoryStorage α) : Prop where
  items : ∀ q, (s.items q).Perm (r.items q)
  tasks : s.inFlightTasks = r.inFlightTasks

namespace Config

variable [Fintype ι] [DecidableEq ι]

/-- Who created a queue: it is there, and no one else did. -/
structure Created (calls : ι → Call α) (σ : Config ι α) : Prop where
  mem : ∀ i name, calls i = .createQueue name → σ.Returned i → name ∈ σ.store.queues
  once : ∀ i j name, calls i = .createQueue name → calls j = .createQueue name → σ.Returned i →
    σ.Returned j → i = j

section Creators

variable {calls : ι → Call α} {σ σ' : Config ι α} {i : ι} {env : Env} {a : Access α} {pc' : Pc α}

omit [Fintype ι] in
/-- A step of a `create_queue` that inserts where nothing is leaves the queues alone. -/
theorem StepOf.lookup_of_createQueue (h : StepOf σ i env σ' a pc') (hs : Serving calls σ)
    (hc : CreatesAbsent σ (i, env)) (hlive : (σ.pc i).finished = false) {name : String}
    (hcall : calls i = .createQueue name) {q : String} (hq : q ∈ σ.store.queues) :
    σ'.store.queues.lookup q = σ.store.queues.lookup q := by
  have hserves := (hs i).pc
  rw [hcall] at hserves
  rw [h.store]
  obtain ⟨hphase, rfl⟩ | ⟨rfl | ⟨op, rfl⟩, -⟩ := h.move.of_createQueue hserves hlive
  · exact Finmap.lookup_insert_of_ne _ fun hqn => hc name hphase (hqn ▸ hq)
  · rfl
  · rfl

omit [Fintype ι] in
theorem Created.step (hcr : Created calls σ) (h : StepOf σ i env σ' a pc') (hs : Serving calls σ)
    (hc : CreatesAbsent σ (i, env)) (hlive : (σ.pc i).finished = false) : Created calls σ' := by
  have hother : ∀ j, j ≠ i → (σ'.Returned j ↔ σ.Returned j) := by
    intro j hj
    rw [Returned, Returned, h.pc_of_ne hj]
  have hmem : ∀ name ∈ σ.store.queues, name ∈ σ'.store.queues := by
    intro name hname
    rw [h.store]
    exact a.mem_queues_run hname env
  -- if the step makes a `create_queue` return, it is the insert
  have hinsert : ∀ name, calls i = .createQueue name → σ'.Returned i →
      name ∉ σ.store.queues ∧ name ∈ σ'.store.queues := by
    intro name hcall hret
    have hserves := (hs i).pc
    rw [hcall] at hserves
    obtain ⟨hphase, rfl⟩ | ⟨-, hne⟩ := h.move.of_createQueue hserves hlive
    · refine ⟨hc name hphase, ?_⟩
      rw [h.store]
      exact Finmap.mem_insert.mpr (Or.inl rfl)
    · have hsi := hs i
      rw [hcall] at hsi
      rw [Returned, h.pc_self hsi (by simp)] at hret
      exact absurd hret hne
  constructor
  · intro j name hcall hret
    by_cases hj : j = i
    · subst hj
      exact (hinsert name hcall hret).2
    · exact hmem name (hcr.mem j name hcall ((hother j hj).mp hret))
  · intro j k name hj hk hretj hretk
    by_cases hji : j = i
    · subst hji
      by_contra hjk
      have hk' := (hother k (Ne.symm hjk)).mp hretk
      exact (hinsert name hj hretj).1 (hcr.mem k name hk hk')
    · have hj' := (hother j hji).mp hretj
      by_cases hki : k = i
      · subst hki
        exact absurd (hcr.mem j name hj hj') (hinsert name hk hretk).1
      · exact hcr.once j k name hj hk hj' ((hother k hki).mp hretk)

end Creators

/-! ### The log and the queues -/

/-- Along the runs of calls that only fill queues, the log and the tables are aligned, and the
queues a replay makes hold what the queues hold and what is about to be pushed. -/
structure Filled (entries : List (WalEntry α)) (calls : ι → Call α) (base : Multiset α)
    (s : Config ι α × History ι α) : Prop where
  serving : Serving calls s.1
  balanced : Balanced base s
  settled : Settled s
  aligned : Aligned entries s
  none_acked : s.2.acked = []
  none_settled : s.2.settled = []
  items : ∀ q, ((rebuilt entries s.1).items q : Multiset (QueueItem α))
    = s.1.store.items q + ∑ i, (s.1.phases i).landing q

section Filling

variable {entries : List (WalEntry α)} {calls : ι → Call α} {base : Multiset α}
  {s s' : Config ι α × History ι α} {l : ι × Env} {acks : List (InFlightTask α)}
  {ops : List (WalOp α)} {p p' : Phase α}

theorem Passes.landings (h : Passes s s' l acks ops p p') (q : String) :
    p.landing q + ∑ i, (s'.1.phases i).landing q
      = p'.landing q + ∑ i, (s.1.phases i).landing q := by
  rw [← h.before, h.phases]
  exact System.sum_update_add (Phase.landing q) s.1.phases l.1 p'

omit [Fintype ι] [DecidableEq ι] in
/-- What the calls of these runs have in hand takes nothing and acknowledges nothing. -/
theorem Serving.of_fills (hs : Serving calls s.1) (hfills : ∀ i, (calls i).Fills) {i : ι}
    {w : Work α} (hw : s.1.phases i = .unlogged w ∨ s.1.phases i = .logged w) :
    (∀ q, w.popped q = []) ∧ w.settles = [] :=
  have hserves := (hs i).pc.work hw
  ⟨hserves.popped_of_fills (hfills i), hserves.settles_of_fills (hfills i)⟩

/-- The queues after a step. -/
theorem Filled.items_step (hf : Filled entries calls base s) (hfills : ∀ i, (calls i).Fills)
    (hserving : Serving calls s'.1) (h : Passes s s' l acks ops p p') (q : String) :
    ((rebuilt entries s'.1).items q : Multiset (QueueItem α))
      = s'.1.store.items q + ∑ i, (s'.1.phases i).landing q := by
  have hlandings := h.landings q
  have hitems := hf.items q
  have hquiet : ops = [] →
      (s'.1.store.items q : Multiset (QueueItem α)) + ∑ i, (s'.1.phases i).landing q
        = s.1.store.items q + ∑ i, (s.1.phases i).landing q →
      ((rebuilt entries s'.1).items q : Multiset (QueueItem α))
        = s'.1.store.items q + ∑ i, (s'.1.phases i).landing q := by
    intro hops hsame
    rw [h.rebuilt, hops, InMemoryStorage.effects, List.foldl_nil, hitems, hsame]
  have hbefore := h.before
  have hafter : s'.1.phases l.1 = p' := by rw [h.phases, Function.update_self]
  cases h.turn with
  | rest hq ht ha ho => exact hquiet ho (by rw [hq, add_left_cancel hlandings])
  | enter hq ht ha hack ho =>
    have hpop := (hserving.of_fills hfills (Or.inl hafter)).1 q
    refine hquiet ho ?_
    rw [hq, hpop, List.nil_append, add_left_cancel hlandings]
  | wait hq ht ha ho => exact hquiet ho (by rw [hq, add_left_cancel hlandings])
  | undo hq ht ha ho =>
    have hpop := (hf.serving.of_fills hfills (Or.inl hbefore)).1 q
    refine hquiet ho ?_
    rw [hq, hpop, List.nil_append, add_left_cancel hlandings]
  | @log w hq ht ha ho =>
    have hpop := (hf.serving.of_fills hfills (Or.inl hbefore)).1 q
    have hvalid := hf.balanced.phases l.1
    rw [hbefore] at hvalid
    have heffect := InMemoryStorage.items_effect
      ⟨fun hq => hf.aligned.keys _ (hvalid.target_mem hq), hvalid.id_eq⟩
      (valid_rebuilt entries s.1) (hf.aligned.returns hf.balanced hf.settled hbefore)
      (fun _ => 0) q
    have hland : ∑ i, (s'.1.phases i).landing q
        = (w.frontPush q + w.backPush q : Multiset (QueueItem α))
          + ∑ i, (s.1.phases i).landing q := by
      rw [← zero_add (∑ i, (s'.1.phases i).landing q)]
      exact hlandings
    rw [hpop, List.length_nil, List.drop_zero] at heffect
    rw [h.rebuilt, ho, InMemoryStorage.effects, List.foldl_cons, List.foldl_nil, heffect,
      ← Multiset.coe_add, ← Multiset.coe_add, hitems, hq, hland]
    abel
  | go hq ht hfront hback ha ho hm =>
    refine hquiet ho ?_
    rw [Phase.landing, Phase.landing, (hfront q).1, (hfront q).2, (hback q).1, (hback q).2]
      at hlandings
    rw [hq, add_left_cancel hlandings]
  | @finish w hq ht ha ho =>
    refine hquiet ho ?_
    have hland : (w.frontPush q + w.backPush q : Multiset (QueueItem α))
        + ∑ i, (s'.1.phases i).landing q = ∑ i, (s.1.phases i).landing q := by
      rw [← zero_add (∑ i, (s.1.phases i).landing q)]
      exact hlandings
    rw [hq, ← Multiset.coe_add, ← Multiset.coe_add, ← hland]
    abel

theorem Filled.step (hf : Filled entries calls base s) (hfills : ∀ i, (calls i).Fills)
    (hc : CreatesAbsent s.1 l) (hstep : (recorded ι α).step s l = some s') :
    Filled entries calls base s' := by
  obtain ⟨acks, ops, p, p', h⟩ := hf.balanced.passes hf.aligned.persistent hc hstep
  have hserving : Serving calls s'.1 := by
    obtain ⟨-, ⟨a, pc', hmove⟩, -⟩ := recorded_move hstep
    exact hmove.serving hf.serving
  have hafter : s'.1.phases l.1 = p' := by rw [h.phases, Function.update_self]
  have hacks : acks = [] := by
    refine List.eq_nil_iff_forall_not_mem.mpr fun t ht => ?_
    cases h.turn with
    | enter hq _ ha hack ho =>
      have hnone := (hserving.of_fills hfills (Or.inl hafter)).2
      rw [ha t ht] at hnone
      cases hnone
    | go hq _ hfront hback ha ho hm =>
      obtain ⟨todo, rfl⟩ := ha t ht
      have hnone := (hf.serving.of_fills hfills (Or.inr h.before)).2
      cases hnone
    | rest _ _ ha _ | wait _ _ ha _ | undo _ _ ha _ | log _ _ ha _ | finish _ _ ha _ =>
      rw [ha] at ht
      cases ht
  have hsettling : settling s l = [] := by
    refine hf.serving.settling_eq_nil (fun i ids hcall => ?_) l
    have hi := hfills i
    rw [hcall] at hi
    exact hi
  have hopen : SettlesOpen s l := by
    rw [SettlesOpen, hsettling]
    simp
  have hleaves : LeavesSettled s l := by
    rw [LeavesSettled, hf.none_settled]
    simp
  have hfresh : Fresh s l := by
    have hbegun : ∀ pc', (s.1.pc l.1).begun pc' = [] :=
      (hf.serving l.1).pc.begun_of_fills (hfills l.1)
    simp [Fresh, hbegun]
  have hpairs : Pairs entries s l := by
    intro w hw _ q
    rw [(hf.serving.of_fills hfills (Or.inl hw)).1]
    exact ⟨_, rfl⟩
  exact ⟨hserving, hf.balanced.step hfresh hc hstep,
    hf.settled.step hf.balanced.valid hopen hleaves hstep,
    hf.aligned.step hf.balanced hf.settled hc hopen hpairs hstep,
    by rw [h.acked, hacks, hf.none_acked, List.nil_append],
    by rw [settled_step hstep, hsettling, hf.none_settled, List.nil_append],
    hf.items_step hfills hserving h⟩

omit [DecidableEq ι] in
/-- At rest, the log rebuilds the items of every queue and the tasks in flight. -/
theorem Filled.rebuilds (hf : Filled entries calls base s) (hrest : ∀ i, (s.1.pc i).finished)
    (envs : ℕ → Env) : SameContents
      (InMemoryStorage.recover envs (entries ++ s.1.store.written)) s.1.store := by
  have hidle : ∀ i, s.1.phases i = .idle := by
    intro i
    have hdone := hrest i
    rw [phases]
    cases hpc : s.1.pc i with
    | done r => rfl
    | _ => rw [hpc] at hdone; cases hdone
  have hsame := InMemoryStorage.recover_sameState envs (entries ++ s.1.store.written)
  rw [List.map_append] at hsame
  constructor
  · intro q
    have hitems := hf.items q
    rw [Finset.sum_eq_zero fun i _ => by rw [hidle i]; rfl, add_zero] at hitems
    rw [← hsame.items q]
    exact Multiset.coe_eq_coe.mp hitems
  · have htasks := hf.aligned.tasks
    have hunwritten : s.2.unwritten = [] := by
      have hle := hf.aligned.unwritten
      rw [hf.none_acked] at hle
      exact Multiset.coe_eq_zero _ |>.mp (Multiset.le_zero.mp hle)
    rw [logTasks, Finset.sum_eq_zero fun i _ => by rw [hidle i]; rfl, hunwritten,
      hf.none_settled, Multiset.filter_eq_self.mpr fun t _ => List.not_mem_nil,
      Multiset.coe_nil, add_zero, add_zero] at htasks
    rw [← hsame.inFlightTasks]
    exact htasks

end Filling

/-! ### What `create_queue` owes the queues -/

/-- In the runs whose steps meet `ok`: at most one `create_queue` per name returns `Ok`, none of
its steps changes a queue that is there, and when all calls have returned, the log rebuilds what
the tables hold. -/
structure KeepsQueues (persistent : Bool) (envs : ℕ → Env) (entries : List (WalEntry α))
    (calls : ι → Call α) (ok : Config ι α → ι × Env → Prop) : Prop where
  once : ∀ {σ}, (machine ι α).Reach ok (start (.boot persistent envs entries) calls) σ →
    ∀ i j name, calls i = .createQueue name → calls j = .createQueue name →
      σ.Returned i → σ.Returned j → i = j
  keeps : ∀ {σ σ' l}, (machine ι α).Reach ok (start (.boot persistent envs entries) calls) σ →
    ok σ l → (machine ι α).step σ l = some σ' → ∀ name, calls l.1 = .createQueue name →
      ∀ q ∈ σ.store.queues, σ'.store.queues.lookup q = σ.store.queues.lookup q
  rebuilds : persistent = true → ∀ {σ},
    (machine ι α).Reach ok (start (.boot persistent envs entries) calls) σ →
      (∀ i, (σ.pc i).finished) → ∀ envs',
        SameContents (InMemoryStorage.recover envs' (entries ++ σ.store.written)) σ.store

theorem serving_created {s : InMemoryStorage α} {calls : ι → Call α} {σ : Config ι α}
    (h : (machine ι α).Reach CreatesAbsent (start s calls) σ) :
    Serving calls σ ∧ Created calls σ := by
  refine h.invariant (fun σ => Serving calls σ ∧ Created calls σ) ?_ ?_
  · refine ⟨serving_start s calls, ?_, ?_⟩
    · intro i name _ hret
      cases hret
    · intro i j name _ _ hret
      cases hret
  · rintro σ ⟨i, env⟩ σ' ⟨hs, hcr⟩ hc hstep
    obtain ⟨henabled, a, pc', hmove⟩ := machine_step hstep
    exact ⟨hmove.serving hs, hcr.step hmove hs hc henabled.1⟩

omit [DecidableEq ι] in
theorem filled_init {calls : ι → Call α} (envs : ℕ → Env) (entries : List (WalEntry α)) :
    Filled entries calls (InMemoryStorage.boot true envs entries).messages
      (init (.boot true envs entries) calls) := by
  refine ⟨serving_start _ _, balanced_init (InMemoryStorage.valid_boot ..) calls, settled_init _,
    aligned_init, rfl, rfl, fun q => ?_⟩
  have hland : ∑ i, ((init (.boot true envs entries) calls).1.phases i).landing q = 0 :=
    Finset.sum_eq_zero fun i _ => rfl
  rw [hland, add_zero]
  exact congrArg _ ((rebuilt_init _ _ _).items q)

/-- **`create_queue` keeps the queues**, in the runs in which no insert meets a queue of its
name. -/
theorem keepsQueues (persistent : Bool) (envs : ℕ → Env) (entries : List (WalEntry α))
    {calls : ι → Call α} (hfills : ∀ i, (calls i).Fills) :
    KeepsQueues persistent envs entries calls CreatesAbsent := by
  constructor
  · exact fun hreach => (serving_created hreach).2.once
  · rintro σ σ' ⟨i, env⟩ hreach hc hstep name hcall q hq
    obtain ⟨henabled, a, pc', hmove⟩ := machine_step hstep
    exact hmove.lookup_of_createQueue (serving_created hreach).1 hc henabled.1 hcall hq
  · rintro rfl σ hreach hrest envs'
    obtain ⟨g, hrecorded⟩ := hreach.exists_record (r := History.extend)
      (History.start (InMemoryStorage.boot true envs entries))
    have hf := hrecorded.invariant
      (Filled entries calls (InMemoryStorage.boot true envs entries).messages)
      (filled_init envs entries) fun s l s' hf hc hstep => hf.step hfills hc hstep
    exact hf.rebuilds hrest envs'

/-- A creator and an enqueuer. -/
theorem keepsQueues_pair :
    KeepsQueues true (fun _ => Env.quiet []) []
      (![.createQueue "jobs", .queue "jobs" [0x68]] : Fin 2 → Call Bytes) CreatesAbsent :=
  keepsQueues true _ [] fun i => by fin_cases i <;> trivial

/-- Two creators pass the check; the second insert destroys a message that was queued behind the
first one. -/
theorem not_keepsQueues_creators :
    ¬ ∀ (calls : Fin 3 → Call Bytes), (∀ i, (calls i).Fills) →
      KeepsQueues true (fun _ => Env.quiet []) [] calls fun _ _ => True := by
  intro h
  let calls : Fin 3 → Call Bytes :=
    ![.createQueue "jobs", .createQueue "jobs", .queue "jobs" [0x68]]
  -- the second creator is in front of its insert
  obtain ⟨σ, hreach, hq, hlost⟩ := System.Reach.exists_of_run (machine (Fin 3) Bytes)
    (fun _ _ => True) (start (.boot true (fun _ => Env.quiet []) []) calls)
    (fun σ => "jobs" ∈ σ.store.queues ∧
      ((machine (Fin 3) Bytes).step σ (1, Env.quiet [])).any fun σ' =>
        σ'.store.queues.lookup "jobs" ≠ σ.store.queues.lookup "jobs")
    ([0, 1, 0, 0, 0, 2, 2, 2, 2, 1, 1].map (·, Env.quiet [])) (by decide +kernel)
  obtain ⟨σ', hstep, hne⟩ := (Option.any_eq_true _ _).mp hlost
  have hkeeps := (h calls fun i => by fin_cases i <;> trivial).keeps hreach trivial hstep
  exact of_decide_eq_true hne (hkeeps "jobs" rfl "jobs" hq)

end Config

end Oxideq
