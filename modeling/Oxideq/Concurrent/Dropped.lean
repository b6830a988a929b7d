import Oxideq.Concurrent.Cancel
import Oxideq.Concurrent.Expiry
import Oxideq.Concurrent.Threads

/-!
# Runs in which calls are dropped

When a client disconnects, the future of its handler is dropped at the await where it stands:
the guards it holds are released, and its local values are gone. `Oxideq.Concurrent.Cancel` says
what that does to a call on its own; here any number of calls run interleaved, and any of them may
be dropped at any of its awaits while the others go on (`Config.dropping`).

The messages are still accounted for (`Config.existsUnique_whereabouts`). Each is in one of the
four kinds of places of `Oxideq.Concurrent.Conservation`, or it was in the hands of one call when
that call was dropped, which then is a `dequeue`, a `dequeue_batch` or a `nack`. No other call takes
a message with it, and no message is lost for a call that is dropped elsewhere.

A drop moves what a call has in hand to the tasks that have left the store, so the balance of
`Oxideq.Concurrent.History` is kept with the lost tasks counted as removed ones
(`Attended.whole`). What an interrupted append leaves in the file is not looked at.
-/

namespace Oxideq

variable {ι α : Type}

instance : DecidablePred (Pc.Awaits (α := α)) := fun pc => by
  cases pc <;> unfold Pc.Awaits <;> infer_instance

/-- The calls that have a message in hand while they wait for the log. -/
def Call.carries : Call α → Bool
  | .dequeue _ => true
  | .dequeueBatch _ _ => true
  | .nack _ => true
  | _ => false

namespace Config

/-- A step of a call, or the end of a call whose future is dropped. -/
inductive Incident (ι : Type) where
  | step (i : ι) (env : Env)
  | drop (i : ι)

/-- A run with its record, and what the calls that were dropped had in hand. -/
structure Attended (ι α : Type) where
  config : Config ι α
  history : History ι α
  lost : List (ι × InFlightTask α)

/-- The configuration in which the call of thread `i` is no more. Its guards are those of its
counter, so they are released. -/
def dropAt [DecidableEq ι] (σ : Config ι α) (i : ι) : Config ι α :=
  { σ with threads := Function.update σ.threads i Thread.vacant }

variable [Fintype ι] [DecidableEq ι]

/-- **The interleaved store with calls that are dropped.** -/
def dropping (ι α : Type) [Fintype ι] [DecidableEq ι] : System (Attended ι α) (Incident ι) where
  step s l :=
    match l with
    | .step i env =>
      ((recorded ι α).step (s.config, s.history) (i, env)).map fun s' => ⟨s'.1, s'.2, s.lost⟩
    | .drop i =>
      if (s.config.pc i).Awaits then
        some ⟨s.config.dropAt i, s.history, (s.config.phases i).tasks.map (i, ·) ++ s.lost⟩
      else none

/-- Ids are fresh, a `create_queue` is left alone between its check and its insert, and the
background worker is not dropped. -/
def Orderly (calls : ι → Call α) (s : Attended ι α) : Incident ι → Prop
  | .step i env =>
    Fresh (s.config, s.history) (i, env) ∧ CreatesAlone (s.config, s.history) (i, env)
  | .drop i => (calls i).isCleanup = false

instance (calls : ι → Call α) (s : Attended ι α) :
    ∀ l, Decidable (Orderly calls s l)
  | .step i env =>
    inferInstanceAs (Decidable (Fresh (s.config, s.history) (i, env) ∧
      ∀ j, j ≠ i → (s.config.phases j).creates = none))
  | .drop i => inferInstanceAs (Decidable ((calls i).isCleanup = false))

/-- The start of the runs. -/
def attended (s : InMemoryStorage α) (calls : ι → Call α) : Attended ι α :=
  ⟨start s calls, History.start s, []⟩

/-! ### Whereabouts -/

/-- Where a message can be when calls are dropped. -/
inductive Whereabouts (ι : Type) where
  | place (p : Place ι)
  | lost (i : ι)

omit [Fintype ι] [DecidableEq ι] in
/-- Message `m` is in the place, or was in the hands of the call when it was dropped. -/
def Attended.At (s : Attended ι α) (m : α) : Whereabouts ι → Prop
  | .place p => Config.At (s.config, s.history) m p
  | .lost i => ∃ task, (i, task) ∈ s.lost ∧ task.data = m

omit [Fintype ι] [DecidableEq ι] in
/-- The record with the lost tasks among the removed ones. -/
def Attended.whole (s : Attended ι α) : Config ι α × History ι α :=
  (s.config, { s.history with acked := s.lost.map Prod.snd ++ s.history.acked })

omit [DecidableEq ι] in
/-- The order in which tasks were removed does not matter to the balance. -/
theorem Balanced.of_acked {base : Multiset α} {σ : Config ι α} {g g' : History ι α}
    (h : Balanced base (σ, g)) (hhanded : g'.handed = g.handed) (hpushed : g'.pushed = g.pushed)
    (hacked : (g'.acked : Multiset (InFlightTask α)) = g.acked) : Balanced base (σ, g') := by
  refine ⟨h.valid, h.phases, ?_, ?_, ?_⟩
  · rw [hhanded]
    exact h.distinct
  · rw [hhanded, hacked]
    exact h.handed
  · rw [hpushed, hacked]
    exact h.data

/-! ### Drops -/

section Drop

variable {calls : ι → Call α} {σ : Config ι α} {g : History ι α} {i : ι}

omit [Fintype ι] in
@[simp] theorem threads_dropAt_self (σ : Config ι α) (i : ι) :
    (σ.dropAt i).threads i = Thread.vacant := Function.update_self ..

omit [Fintype ι] in
theorem threads_dropAt_of_ne (σ : Config ι α) {i j : ι} (hj : j ≠ i) :
    (σ.dropAt i).threads j = σ.threads j := Function.update_of_ne hj ..

omit [Fintype ι] in
theorem phases_dropAt (σ : Config ι α) (i : ι) :
    (σ.dropAt i).phases = Function.update σ.phases i .idle := by
  funext j
  by_cases hj : j = i
  · rw [hj, Function.update_self, Config.phases, pc, threads_dropAt_self]
    rfl
  · rw [Function.update_of_ne hj, Config.phases, pc, threads_dropAt_of_ne σ hj]
    rfl

/-- What the call has in hand goes with it. -/
theorem tasks_dropAt (σ : Config ι α) (i : ι) :
    (σ.dropAt i).tasks + ((σ.phases i).tasks : Multiset (InFlightTask α)) = σ.tasks := by
  have hsum := System.sum_update_add
    (fun p : Phase α => (p.tasks : Multiset (InFlightTask α))) σ.phases i .idle
  simp only [Phase.tasks_idle, Multiset.coe_nil, zero_add] at hsum
  unfold tasks
  rw [phases_dropAt, add_assoc, add_comm (Finset.sum _ _), hsum]
  rfl

/-- **A drop keeps the balance**: the tasks in hand have left the store. -/
theorem Balanced.drop {base : Multiset α} (h : Balanced base (σ, g)) (i : ι) :
    Balanced base (σ.dropAt i, { g with acked := (σ.phases i).tasks ++ g.acked }) := by
  have htasks : (σ.dropAt i).tasks
      + ((σ.phases i).tasks ++ g.acked : List (InFlightTask α)) = σ.tasks + g.acked := by
    rw [← Multiset.coe_add, ← add_assoc, tasks_dropAt]
  refine ⟨h.valid, fun j => ?_, h.distinct, ?_, ?_⟩
  · rw [phases_dropAt]
    by_cases hj : j = i
    · rw [hj, Function.update_self]
      trivial
    · rw [Function.update_of_ne hj]
      exact h.phases j
  · rw [htasks]
    exact h.handed
  · rw [htasks]
    exact h.data

omit [Fintype ι] in
theorem CreatingAbsent.drop (h : CreatingAbsent (σ, g)) (i : ι) (g' : History ι α) :
    CreatingAbsent (σ.dropAt i, g') := by
  intro j name hname
  rw [phases_dropAt] at hname
  by_cases hj : j = i
  · rw [hj, Function.update_self] at hname
    cases hname
  · rw [Function.update_of_ne hj] at hname
    exact h j name hname

/-- A call that is dropped does not push what it had to offer. -/
theorem Offered.drop (h : Offered calls (σ, g)) (i : ι) : Offered calls (σ.dropAt i, g) := by
  refine (add_le_add_right (Finset.sum_le_sum fun j _ => ?_) _).trans h
  by_cases hj : j = i
  · rw [hj, pc, threads_dropAt_self]
    exact Multiset.zero_le _
  · rw [pc, threads_dropAt_of_ne σ hj]
    exact le_refl _

omit [Fintype ι] in
theorem Serving.drop (h : Serving calls σ) (i : ι) : Serving calls (σ.dropAt i) := by
  intro j
  by_cases hj : j = i
  · rw [hj, threads_dropAt_self]
    exact Thread.serves_vacant _
  · rw [threads_dropAt_of_ne σ hj]
    exact h j

omit [Fintype ι] [DecidableEq ι] in
/-- Only some calls have messages in hand when they wait. -/
theorem Serving.carries (h : Serving calls σ) (hawaits : (σ.pc i).Awaits)
    (hclient : (calls i).isCleanup = false) {task : InFlightTask α}
    (htask : task ∈ (σ.phases i).tasks) : (calls i).carries = true := by
  obtain ⟨w, hw⟩ : ∃ w, (σ.pc i).phase = .unlogged w := by
    cases hpc : σ.pc i with
    | waitWal w => exact ⟨w, rfl⟩
    | appendWal w => exact ⟨w, rfl⟩
    | _ =>
      rw [hpc] at hawaits
      exact absurd hawaits (by simp [Pc.Awaits])
  rw [Config.phases, hw] at htask
  have hserves := (h i).pc.work (Or.inl hw)
  generalize calls i = c at hserves hclient
  cases hserves with
  | dequeue => rfl
  | dequeueBatch => rfl
  | nack => rfl
  | expired => cases hclient
  | _ => exact absurd htask List.not_mem_nil

end Drop

/-! ### Runs -/

/-- Along the runs: the balance with what was lost, and whose hands it was in. -/
structure Attending (base : Multiset α) (calls : ι → Call α) (s : Attended ι α) : Prop where
  balanced : Balanced base s.whole
  creating : CreatingAbsent (s.config, s.history)
  offered : Offered calls (s.config, s.history)
  serving : Serving calls s.config
  carriers : ∀ i task, (i, task) ∈ s.lost → (calls i).carries = true

omit [DecidableEq ι] in
theorem attending_start {s : InMemoryStorage α} (hs : s.Valid) (calls : ι → Call α) :
    Attending s.messages calls (attended s calls) := by
  refine ⟨balanced_init hs calls, fun i name h => ?_, ?_, serving_start s calls,
    fun i task h => ?_⟩
  · cases h
  · exact (zero_add _).le
  · cases h

theorem Attending.step {base : Multiset α} {calls : ι → Call α} {s s' : Attended ι α}
    {l : Incident ι} (h : Attending base calls s) (hok : Orderly calls s l)
    (hs : (dropping ι α).step s l = some s') : Attending base calls s' := by
  cases l with
  | step i env =>
    obtain ⟨⟨σ', g'⟩, hrec, rfl⟩ := Option.map_eq_some_iff.mp hs
    obtain ⟨-, ⟨a, pc', hstep⟩, hg⟩ := recorded_step hrec
    refine ⟨?_, h.creating.step hok.2 hrec, h.offered.step hrec, hstep.serving h.serving,
      h.carriers⟩
    -- the same step of the run whose record counts the lost tasks as removed
    have hwhole : (recorded ι α).step s.whole (i, env)
        = some (σ', History.extend s.config (i, env) s.whole.2) := by
      obtain ⟨hmachine, -⟩ := System.recording_step.mp hrec
      exact System.recording_step.mpr ⟨hmachine, rfl⟩
    have hnext := h.balanced.step hok.1 (h.creating.createsAbsent (i, env)) hwhole
    have hg' : g' = History.extend s.config (i, env) s.history := hg
    refine hnext.of_acked (by rw [hg']; rfl) (by rw [hg']; rfl) ?_
    rw [hg']
    exact Multiset.coe_eq_coe.mpr (List.perm_append_comm_assoc _ _ _)
  | drop i =>
    simp only [dropping, Option.ite_none_right_eq_some, Option.some_inj] at hs
    obtain ⟨hawaits, rfl⟩ := hs
    refine ⟨?_, h.creating.drop i _, h.offered.drop i, h.serving.drop i, fun j task hlost => ?_⟩
    · have hdrop := h.balanced.drop i
      refine hdrop.of_acked rfl rfl ?_
      simp only [List.map_append, List.map_map, Function.comp_def, List.map_id',
        List.append_assoc]
    · rcases List.mem_append.mp hlost with hnew | hold
      · obtain ⟨task', htask, heq⟩ := List.mem_map.mp hnew
        cases heq
        exact h.serving.carries hawaits hok htask
      · exact h.carriers j task hold

omit [Fintype ι] [DecidableEq ι] in
/-- What was removed in the whole record was acknowledged or lost. -/
theorem Attended.at_whole {s : Attended ι α} {m : α} {p : Place ι} (h : Config.At s.whole m p) :
    (∃ i, s.At m (.lost i)) ∨ s.At m (.place p) := by
  cases p with
  | removed taskId =>
    obtain ⟨task, ht, hid, hm⟩ := h
    rcases List.mem_append.mp ht with hlost | hacked
    · obtain ⟨⟨i, task'⟩, hmem, rfl⟩ := List.mem_map.mp hlost
      exact Or.inl ⟨i, task', hmem, hm⟩
    · exact Or.inr ⟨task, hacked, hid, hm⟩
  | _ => exact Or.inr h

omit [Fintype ι] [DecidableEq ι] in
/-- A message that is somewhere is in one place of the whole record; a lost one is removed there. -/
theorem Attended.place_whole {s : Attended ι α} {m : α} {p : Place ι} (h : s.At m (.place p)) :
    Config.At s.whole m p := by
  cases p with
  | removed taskId =>
    obtain ⟨task, ht, hid, hm⟩ := h
    exact ⟨task, List.mem_append_right _ ht, hid, hm⟩
  | _ => exact h

omit [DecidableEq ι] in
/-- **No message is in two places**, where no two messages are alike. -/
theorem Attended.At.eq {s : Attended ι α} (hn : (∑ k, shares s.whole k).Nodup) {m : α}
    {w w' : Whereabouts ι} (h : s.At m w) (h' : s.At m w') : w = w' := by
  have hremoved : ((s.lost.map Prod.snd ++ s.history.acked).map InFlightTask.data).Nodup :=
    Multiset.coe_nodup.mp (Multiset.nodup_of_le (Finset.single_le_sum (f := shares s.whole)
      (fun _ _ => Multiset.zero_le _) (Finset.mem_univ 3)) hn)
  -- a lost message is not found anywhere in the store
  have hlost : ∀ {i : ι} {p : Place ι}, s.At m (.lost i) → ¬ s.At m (.place p) := by
    rintro i p ⟨task, hmem, hm⟩ hp
    have hin : Config.At s.whole m (.removed task.id) :=
      ⟨task, List.mem_append_left _ (List.mem_map_of_mem hmem), rfl, hm⟩
    cases hin.eq hn (place_whole hp)
    obtain ⟨task', ht', -, hm'⟩ := hp
    rw [List.map_append, List.nodup_append'] at hremoved
    refine hremoved.2.2 (List.mem_map_of_mem (List.mem_map_of_mem hmem)) ?_
    exact List.mem_map.mpr ⟨task', ht', hm'.trans hm.symm⟩
  cases w with
  | place p =>
    cases w' with
    | place p' => exact congrArg _ ((place_whole h).eq hn (place_whole h'))
    | lost i' => exact absurd h (hlost h')
  | lost i =>
    cases w' with
    | place p' => exact absurd h' (hlost h)
    | lost i' =>
      obtain ⟨task, hmem, hm⟩ := h
      obtain ⟨task', hmem', hm'⟩ := h'
      rw [List.map_append, List.map_map] at hremoved
      have hpair := List.inj_on_of_nodup_map (List.nodup_append'.mp hremoved).1 hmem hmem'
        (hm.trans hm'.symm)
      cases hpair
      rfl

/-- A message is in exactly one place, where no two messages are alike. -/
theorem existsUnique_whereabouts_of_distinct {entries : List (WalEntry α)} {calls : ι → Call α}
    (hd : Distinct entries calls) (persistent : Bool) (envs : ℕ → Env) {s : Attended ι α}
    (h : (dropping ι α).Reach (Orderly calls)
      (attended (InMemoryStorage.boot persistent envs entries) calls) s) {m : α}
    (hm : m ∈ (InMemoryStorage.boot persistent envs entries).messages + s.history.pushed) :
    (∃! w, s.At m w) ∧ ∀ i, s.At m (.lost i) → (calls i).carries = true := by
  have hw : Attending (InMemoryStorage.boot persistent envs entries).messages calls s :=
    h.invariant _ (attending_start (InMemoryStorage.valid_boot persistent envs entries) calls)
      fun _ _ _ hw hok hs => hw.step hok hs
  have hdata := hw.balanced.data
  have hn : (∑ k, shares s.whole k).Nodup := by
    rw [sum_shares, hdata]
    refine Multiset.nodup_of_le (add_le_add ?_ ?_) hd
    · exact InMemoryStorage.messages_boot_le persistent envs entries
    · exact (Multiset.le_add_right _ _).trans hw.offered
  have hmem : m ∈ ∑ k, shares s.whole k := by
    rw [sum_shares, hdata]
    exact hm
  obtain ⟨k, -, hk⟩ := Multiset.mem_sum.mp hmem
  obtain ⟨p, hp⟩ := exists_at_of_mem hk
  refine ⟨?_, fun i ⟨task, hlost, _⟩ => hw.carriers i task hlost⟩
  rcases Attended.at_whole hp with ⟨i, hi⟩ | hplace
  · exact ⟨.lost i, hi, fun w' hw' => hw'.eq hn hi⟩
  · exact ⟨.place p, hplace, fun w' hw' => hw'.eq hn hplace⟩

/-- **Conservation with dropped calls.** At every point of a run in which any calls are dropped at
any of their awaits, every message pushed so far, or there at the start, is in exactly one place of
the store or with one unfinished call, or was in the hands of exactly one call that was dropped;
and that call is a `dequeue`, a `dequeue_batch` or a `nack`. -/
theorem existsUnique_whereabouts (persistent : Bool) (envs : ℕ → Env)
    (entries : List (WalEntry Bytes)) (calls : ι → Call Bytes)
    {s : Attended ι (Tag ι × Bytes)}
    (h : (dropping ι (Tag ι × Bytes)).Reach (Orderly (tagCalls calls))
      (attended (InMemoryStorage.boot persistent envs (tagLog ι entries)) (tagCalls calls)) s)
    {m : Tag ι × Bytes}
    (hm : m ∈ (InMemoryStorage.boot persistent envs (tagLog ι entries)).messages
      + s.history.pushed) :
    (∃! w, s.At m w) ∧ ∀ i, s.At m (.lost i) → (tagCalls calls i).carries = true :=
  existsUnique_whereabouts_of_distinct (distinct_tagged entries calls) persistent envs h hm

/-- A `dequeue` that is dropped while it waits for the log, and an enqueue that goes on. -/
theorem existsUnique_whereabouts_waiting :
    let calls : Fin 2 → Call Bytes := ![.dequeue "jobs", .queue "jobs" [0x69]]
    let entries : List (WalEntry Bytes) := [⟨.createQueue "jobs", 0⟩, ⟨.enqueue "jobs" [0x68], 0⟩]
    let s₀ := attended (InMemoryStorage.boot true (fun _ => Env.quiet []) (tagLog (Fin 2) entries))
      (tagCalls calls)
    ∃ s, (dropping (Fin 2) (Tag (Fin 2) × Bytes)).Reach (Orderly (tagCalls calls)) s₀ s ∧
      ((∃! w, s.At (.logged 1 0, [0x68]) w) ∧
        ∀ i, s.At (.logged 1 0, [0x68]) (.lost i) → (tagCalls calls i).carries = true) := by
  intro calls entries s₀
  let env := Env.quiet ["5b0f6f4e"]
  obtain ⟨s, hreach, hm⟩ := System.Reach.exists_of_run (dropping (Fin 2) (Tag (Fin 2) × Bytes))
    (Orderly (tagCalls calls)) s₀
    (fun s => (Tag.logged 1 0, [0x68]) ∈ (InMemoryStorage.boot true (fun _ => Env.quiet [])
      (tagLog (Fin 2) entries)).messages + s.history.pushed)
    [.step 0 env, .drop 0, .step 1 env, .step 1 env] (by decide +kernel)
  exact ⟨s, hreach, existsUnique_whereabouts true (fun _ => Env.quiet []) entries calls hreach hm⟩

end Config

end Oxideq
