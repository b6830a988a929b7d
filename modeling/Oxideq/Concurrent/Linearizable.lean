import Oxideq.Concurrent.Atomic
import Oxideq.Lib.Linearization

/-!
# Linearizable runs

Whole runs of the interleaved store against a sequential one. The sequential store makes each call
at the step where it takes effect, and `Tracks` relates the two stores all along: what one call
holds no other does, the stores agree on what nobody has veiled, and every call stands where
`Pc.Stands` says. A step of one call is a `Local.step` on the places no other call holds; the other
calls do not notice it.

The calls must leave each other's tasks alone: no step may reach for a task that another call has
taken from the table or verified, and no queue may come into being that another call has found
missing and is about to create (`Config.Uncontested`). With two acknowledgements of one id, or two
deliveries from one queue, the store sorts the calls out by itself; nothing is asked for there.
-/

namespace Oxideq

open Linearization

variable {ι α : Type}

/-! ### What a step touches -/

namespace Pc

variable {s t : InMemoryStorage α} {env : Env} {c : Call α} {pc pc' : Pc α} {a : Access α}

theorem mem_holds_queue {name : String} : Slot.queue name ∈ pc.holds ↔ pc.queueGuard = some name :=
  Iff.rfl

theorem mem_holds_task {id : String} :
    Slot.task id ∈ pc.holds ↔ pc.taskGuard = some id ∨ id ∈ pc.keeps := Iff.rfl

theorem veils_subset_holds (pc : Pc α) : pc.veils ⊆ pc.holds := by
  intro k hk
  cases k with
  | queue name => exact hk
  | task id =>
    have hhides : id ∈ pc.hides := hk
    suffices id ∈ pc.keeps from Or.inr this
    cases pc with
    | verify ids todo missing => cases hhides
    | waitWal w | appendWal w =>
      cases w with
      | ackBatch ids => cases hhides
      | _ => exact hhides
    | _ => exact hhides

/-- A step changes what the call holds, or reaches for. -/
theorem Move.framed (hm : Move s env pc a pc') :
    Framed InMemoryStorage.slot (pc.holds ∪ pc.reaches) s (a.run s env) := by
  have hqueue : ∀ {name : String} (items : List (QueueItem α)),
      pc.queueGuard = some name ∨ pc.queueAccess = some name →
      Framed InMemoryStorage.slot (pc.holds ∪ pc.reaches) s (s.setQueue name items) :=
    fun items h => s.framed_slot_setQueue h items
  have hreach : ∀ {id : String} (task : InFlightTask α), pc.taskAccess = some id →
      Framed InMemoryStorage.slot (pc.holds ∪ pc.reaches) s (s.insertTask id task) :=
    fun task h => s.framed_slot_insertTask (Or.inr h) task
  have hdrop : ∀ {id : String}, pc.taskAccess = some id →
      Framed InMemoryStorage.slot (pc.holds ∪ pc.reaches) s (s.dropTask id) :=
    fun h => s.framed_slot_dropTask (Or.inr h)
  cases hm with
  | dequeue h => exact hqueue _ (Or.inr rfl)
  | dequeueBatch h => exact hqueue _ (Or.inr rfl)
  | ack h => exact hdrop rfl
  | nack h => exact hdrop rfl
  | append h => exact InMemoryStorage.framed_of_tables rfl rfl
  | undoDequeue => exact hqueue _ (Or.inl rfl)
  | undoDequeueBatch => exact hqueue _ (Or.inl rfl)
  | undoNack => exact hreach _ rfl
  | insertQueue => exact hqueue _ (Or.inr rfl)
  | push h => exact hqueue _ (Or.inr rfl)
  | pushBatch h => exact hqueue _ (Or.inr rfl)
  | insertTask => exact hreach _ rfl
  | bury h => exact hqueue _ (Or.inr (by rw [queueAccess, if_pos h]))
  | requeue h hq =>
    exact hqueue _ (Or.inr (by rw [queueAccess, if_neg (by rw [h]; exact Bool.false_ne_true)]))
  | @touch id duration task h =>
    have hheld : Slot.task id ∈ (Pc.apply (.extendVisibility id duration) : Pc α).holds :=
      Or.inl rfl
    exact s.framed_slot_insertTask (Or.inl hheld) _
  | insertTasks => exact hreach _ rfl
  | removeTasks => exact hdrop rfl
  | _ => exact .refl s

theorem holds_afterLog (w : Work α) : (afterLog w).holds = (waitWal w).holds := by
  cases w <;> ext k <;> cases k <;> rfl

theorem holds_toLog (s : InMemoryStorage α) (w : Work α) :
    (toLog s w).holds = (waitWal w).holds := by
  unfold toLog
  split
  · rfl
  · exact holds_afterLog w

theorem holds_failLog (e : String) (w : Work α) : (failLog e w).holds ⊆ (waitWal w).holds := by
  intro k hk
  cases w <;> cases k <;> first | exact hk | (rcases hk with hk | hk <;> cases hk)

theorem holds_done (r : Outcome (Reply α)) : (done r).holds = ∅ := by
  ext k
  cases k <;> simp [mem_holds_queue, mem_holds_task, queueGuard, taskGuard, keeps]

/-- The first step of a call gets it what it reaches for. -/
theorem holds_begin (s : InMemoryStorage α) (env : Env) (c : Call α) :
    (begin s env c).2.holds ⊆ (start c).reaches := by
  have hmove := move_begin s env c
  generalize begin s env c = x at hmove
  obtain ⟨a, pc'⟩ := x
  simp only at hmove ⊢
  have hwork : ∀ {w : Work α}, (waitWal w).holds ⊆ (start c).reaches →
      (toLog s w).holds ⊆ (start c).reaches := fun h => by rwa [holds_toLog]
  cases hmove with
  | reject hr hack =>
    rw [holds_done]
    exact Set.empty_subset _
  | scan | ackBatch =>
    intro k hk
    cases k <;> simp [mem_holds_queue, mem_holds_task, queueGuard, taskGuard, keeps] at hk
  | dequeue h | dequeueBatch h =>
    refine hwork fun k hk => ?_
    cases k with
    | queue name => exact hk
    | task id => simp [mem_holds_task, taskGuard, keeps, Work.taskGuard, Work.keeps] at hk
  | @nack id task h =>
    refine hwork fun k hk => ?_
    cases k with
    | queue name => cases hk
    | task id' =>
      have heq : id' = id := by
        simpa [mem_holds_task, taskGuard, keeps, Work.taskGuard, Work.keeps] using hk
      exact congrArg some heq.symm
  | extendVisibility h =>
    refine hwork fun k hk => ?_
    cases k with
    | queue name => cases hk
    | task id => exact hk.resolve_right List.not_mem_nil
  | _ =>
    refine hwork fun k hk => ?_
    cases k <;> simp [mem_holds_queue, mem_holds_task, queueGuard, taskGuard, keeps,
      Work.queueGuard, Work.taskGuard, Work.keeps] at hk

/-- **A step adds to what the call holds only what it reaches for.** -/
theorem Stands.holds_step (h : pc.Stands s t c) (env : Env) :
    (pc.step s env).2.holds ⊆ pc.holds ∪ pc.reaches := by
  cases h with
  | start hc => exact (holds_begin s env c).trans Set.subset_union_right
  | @verify seen todo =>
    cases todo with
    | nil =>
      simp only [step]
      split
      · rw [holds_toLog]
        intro k hk
        cases k with
        | queue name => cases hk
        | task id =>
          refine Or.inl (Or.inr ?_)
          simpa [mem_holds_task, taskGuard, Work.taskGuard, keeps, Work.keeps] using hk
      · rw [holds_done]
        exact Set.empty_subset _
    | cons id todo =>
      intro k hk
      cases k with
      | queue name => cases hk
      | task id' =>
        have hkeep : id' ∈ seen ∨ id' = id := by
          have hlen : seen.length + (todo.length + 1) - todo.length = seen.length + 1 := by omega
          have hall : seen.take (seen.length + 1) = seen := List.take_of_length_le (by omega)
          simpa [step, mem_holds_task, taskGuard, keeps, hlen, List.take_append, hall,
            or_comm] using hk
        rcases hkeep with hseen | rfl
        · exact Or.inl (Or.inr (by simpa [keeps] using hseen))
        · exact Or.inr rfl
  | waitWal hwal hw => exact Set.subset_union_left
  | @appendWal c w hwal hw =>
    refine Set.Subset.trans ?_ Set.subset_union_left
    have hsame : (Pc.appendWal w).holds = (Pc.waitWal w).holds := by
      ext k
      cases k <;> rfl
    simp only [step, hsame]
    split
    · exact (holds_afterLog w).subset
    · exact holds_failLog _ w
  | @restore c w e hwal hw hback =>
    have hdone : ∃ r, (undo e w).2 = .done r := by cases w <;> exact ⟨_, rfl⟩
    obtain ⟨r, hr⟩ := hdone
    simp only [step, hr, holds_done]
    exact Set.empty_subset _
  | @apply c w hw hafter =>
    have hdone : ∃ r, (commit s env w).2 = .done r := by
      cases hw with
      | dequeueBatch => cases hafter
      | ackBatch => cases hafter
      | createQueue | dequeue | ack => exact ⟨_, rfl⟩
      | queue | queueBatch | extendVisibility => simp only [commit]; split <;> exact ⟨_, rfl⟩
      | nack => simp only [commit]; split <;> [skip; split] <;> exact ⟨_, rfl⟩
    obtain ⟨r, hr⟩ := hdone
    simp only [step, hr, holds_done]
    exact Set.empty_subset _
  | @insertTasks name count made todo rest env₀ hs ht hb hin =>
    cases todo with
    | nil =>
      simp only [step, holds_done]
      exact Set.empty_subset _
    | cons p todo =>
      intro k hk
      cases k with
      | queue name => exact Or.inl hk
      | task id =>
        have hkeep : id ∈ (handOut env₀ name 1 made).map InFlightTask.id ∨ id = p.1 := by
          simpa [step, mem_holds_task, taskGuard, keeps, InFlightTask.deliver] using hk
        rcases hkeep with hold | rfl
        · exact Or.inl (Or.inr hold)
        · exact Or.inr rfl
  | @removeTasks ids todo ht =>
    cases todo with
    | nil =>
      simp only [step, holds_done]
      exact Set.empty_subset _
    | cons id todo =>
      intro k hk
      cases k with
      | queue name => cases hk
      | task id' =>
        rcases hk with hk | hk
        · cases hk
        · exact Or.inl (Or.inr (List.mem_cons_of_mem _ hk))
  | done =>
    simp only [step, holds_done]
    exact Set.empty_subset _

end Pc

/-- The call has not begun. -/
def Pc.starting : Pc α → Bool
  | .start _ => true
  | _ => false

theorem Pc.passed_of_finished {pc : Pc α} (h : pc.finished = true) : pc.passed = true := by
  cases pc with
  | done r => rfl
  | _ => cases h

theorem Pc.passed_of_starting {pc : Pc α} (h : pc.starting = true) : pc.passed = false := by
  cases pc with
  | start c => rfl
  | _ => cases h

/-! ### The run of the sequential store -/

/-- The calls made one after the other. -/
def InMemoryStorage.runCall (calls : ι → Call α) (i : ι) (env : Env) (t : InMemoryStorage α) :
    Outcome (Reply α) × InMemoryStorage α := t.call (fun _ => env) (calls i)

theorem SameTables.respected {calls : ι → Call α}
    (hcalls : ∀ i t, calls i ≠ .cleanupExpiredTasks t) :
    Respected SameTables (InMemoryStorage.runCall calls) where
  refl := .refl
  trans := .trans
  answers i e h := (h.call e (hcalls i)).1
  states i e h := (h.call e (hcalls i)).2

/-- The tables behind an `ack` do not depend on what becomes of its entry. -/
theorem InMemoryStorage.sameTables_ack (t : InMemoryStorage α) (env env' : Env) (id : String) :
    SameTables (t.call (fun _ => env) (.ack id)).2 (t.call (fun _ => env') (.ack id)).2 := by
  have hdrop : ∀ {env : Env} {task : InFlightTask α}, t.inFlight.lookup id = some task →
      SameTables (t.dropTask id) (t.call (fun _ => env) (.ack id)).2 := by
    intro env task hl
    simp only [call, ack, hl]
    rcases (t.dropTask id).logOp_cases env (.ack id) with hlog | ⟨e, hlog⟩
    · rw [hlog]
      exact .logged ..
    · rw [hlog]
      exact .refl _
  cases hl : t.inFlight.lookup id with
  | none =>
    have hsame : ∀ env, (t.call (fun _ => env) (.ack id)).2 = t := fun env => by
      simp only [call, ack, hl]
      rfl
    rw [hsame, hsame]
    exact .refl t
  | some task => exact (hdrop hl).symm.trans (hdrop hl)

/-- What is known of an answer does not depend on the log. -/
theorem Pc.Answers.same {r r' : InMemoryStorage α} {env : Env} {c : Call α} {pc : Pc α}
    (h : pc.Answers r env c) (hrr : SameTables r r') (hc : ∀ t, c ≠ .cleanupExpiredTasks t) :
    pc.Answers r' env c := by
  have hcall := (hrr.call env hc).1
  have hack : ∀ id, (c = .ack id ∧ r.wal.isSome ∧ (r.slot (.task id)).isSome ∧
      (r.call (fun _ => env) c).1 = .ok .done) →
      (c = .ack id ∧ r'.wal.isSome ∧ (r'.slot (.task id)).isSome ∧
        (r'.call (fun _ => env) c).1 = .ok .done) := by
    rintro id ⟨hid, hwal, hin, hr⟩
    refine ⟨hid, hrr.wal ▸ hwal, ?_, hcall ▸ hr⟩
    rwa [InMemoryStorage.slot_task, ← hrr.inFlight]
  cases pc with
  | waitWal w | appendWal w =>
    cases w with
    | ack id => exact hack id h
    | _ => trivial
  | apply w =>
    cases w with
    | ack id => exact hcall.symm.trans h
    | _ => trivial
  | removeTasks todo => exact hcall.symm.trans h
  | done x => exact hcall.symm.trans h
  | _ => trivial

/-- An `ack` whose entry cannot be written. -/
theorem InMemoryStorage.ack_of_error {r : InMemoryStorage α} {env : Env} {id e : String}
    {task : InFlightTask α} (hl : r.inFlight.lookup id = some task) (hwal : r.wal.isSome)
    (happ : env.append = .error e) :
    (r.call (fun _ => env) (.ack id)).1 = .err (walWriteFailed e) := by
  have hlog : (r.dropTask id).logOp env (.ack id) = .error e :=
    logOp_error happ (by exact hwal) _
  simp only [call, ack, hl, hlog]
  rfl

namespace Config

variable {calls : ι → Call α} {σ σ' : Config ι α} {s t t' : InMemoryStorage α} {i : ι}

/-- **The sequential store keeps up with the run.** -/
structure Tracks (calls : ι → Call α) (σ : Config ι α) (t : InMemoryStorage α) : Prop where
  apart : ∀ i j, i ≠ j → ∀ k ∈ (σ.pc i).holds, k ∉ (σ.pc j).holds
  wal : t.wal.isSome = σ.store.wal.isSome
  queues : ∀ name, name ∈ t.queues ↔ name ∈ σ.store.queues
  agree : ∀ k, (∀ i, k ∉ (σ.pc i).veils) → t.slot k = σ.store.slot k
  stands : ∀ i, (σ.pc i).Stands σ.store t (calls i)

/-- The places no other call holds. -/
def own (σ : Config ι α) (i : ι) : Set Slot := {k | ∀ j, j ≠ i → k ∉ (σ.pc j).holds}

theorem tracks_start (hcalls : ∀ i t, calls i ≠ .cleanupExpiredTasks t) (s : InMemoryStorage α) :
    Tracks calls (start s calls) s where
  apart i j _ k _ := by
    cases k <;> simp [start, pc, Thread.call, Pc.mem_holds_queue, Pc.mem_holds_task,
      Pc.queueGuard, Pc.taskGuard, Pc.keeps]
  wal := rfl
  queues _ := Iff.rfl
  agree _ _ := rfl
  stands i := .start (hcalls i)

/-- No call is on its way. -/
def AtRest (σ : Config ι α) : Prop :=
  ∀ i, (σ.pc i).finished = true ∨ (σ.pc i).starting = true

namespace Tracks

theorem toLocal (h : Tracks calls σ t) (i : ι) : Local (σ.own i) σ.store t (calls i) (σ.pc i) := by
  refine ⟨h.wal, h.queues, fun k hk hv => h.agree k fun j hj => ?_, h.stands i⟩
  by_cases hji : j = i
  · exact hv (hji ▸ hj)
  · exact hk j hji ((σ.pc j).veils_subset_holds hj)

theorem holds_subset (h : Tracks calls σ t) (i : ι) : (σ.pc i).holds ⊆ σ.own i :=
  fun k hk j hj hkj => h.apart i j (Ne.symm hj) k hk hkj

/-- Stores with the same tables are as good. -/
theorem same (h : Tracks calls σ t) (htt : SameTables t t') : Tracks calls σ t' := by
  have hslot : ∀ k, t'.slot k = t.slot k := fun k => by
    cases k <;> simp only [InMemoryStorage.slot, htt.queues, htt.inFlight]
  refine ⟨h.apart, htt.wal.symm.trans h.wal, fun name => ?_,
    fun k hk => (hslot k).trans (h.agree k hk), fun i => ?_⟩
  · rw [← htt.queues]
    exact h.queues name
  · exact (h.stands i).frame rfl (fun _ _ => rfl) (fun k _ => hslot k) (fun _ => id)
      fun _ _ => id

theorem tables (h : Tracks calls σ t) (hrest : σ.AtRest) :
    t.queues = σ.store.queues ∧ t.inFlight = σ.store.inFlight := by
  have hslot : ∀ k, t.slot k = σ.store.slot k := by
    refine fun k => h.agree k fun i hi => ?_
    have hquiet := hrest i
    generalize σ.pc i = pc at hi hquiet
    cases pc with
    | start c | done r => cases k <;> cases hi
    | _ => simp [Pc.finished, Pc.starting] at hquiet
  exact ⟨Finmap.ext_lookup fun name => hslot (.queue name),
    Finmap.ext_lookup fun id => hslot (.task id)⟩

end Tracks

section Step

variable [DecidableEq ι]

/-- The step leaves the tasks of the other calls alone, and makes no queue that one of them is
about to create. -/
def Uncontested (σ : Config ι α) (l : ι × Env) : Prop :=
  (∀ id ∈ (σ.pc l.1).taskAccess, ∀ j, j ≠ l.1 → id ∉ (σ.pc j).keeps) ∧
    ∀ j, j ≠ l.1 → ∀ name ∈ (σ.pc j).creating,
      name ∈ (σ.stepAt l.1 l.2).store.queues → name ∈ σ.store.queues

instance [Fintype ι] (σ : Config ι α) (l : ι × Env) : Decidable (σ.Uncontested l) :=
  inferInstanceAs (Decidable (_ ∧ _))

/-- What a step reaches for is held by no other call. -/
theorem Uncontested.reaches {env : Env} (h : σ.Uncontested (i, env)) (he : σ.Enabled i) :
    (σ.pc i).reaches ⊆ σ.own i := by
  intro k hk j hj hheld
  have hfree := he.2 j hj
  simp only [Pc.BlockedBy, not_or] at hfree
  cases k with
  | queue name => exact hfree.1 ⟨name, hk, hheld⟩
  | task id =>
    rcases hheld with hguard | hkeep
    · exact hfree.2.1 ⟨id, hk, hguard⟩
    · exact h.1 id hk j hj hkeep

variable {env : Env} {a : Access α} {pc' : Pc α}

/-- **A step of one call, which the sequential store follows on the places no other call holds.** -/
theorem Tracks.step (h : Tracks calls σ t) (hs : StepOf σ i env σ' a pc')
    (hpc : σ'.pc i = pc') (he : σ.Enabled i) (hu : σ.Uncontested (i, env))
    (hl : Local (σ.own i) σ'.store t' (calls i) pc')
    (ht : Framed InMemoryStorage.slot (σ.own i) t t') : Tracks calls σ' t' := by
  have hreach := hu.reaches he
  have hholds : pc'.holds ⊆ (σ.pc i).holds ∪ (σ.pc i).reaches := by
    have hstep := (h.stands i).holds_step env
    rwa [hs.eq] at hstep
  have hown : pc'.holds ⊆ σ.own i :=
    hholds.trans (Set.union_subset (h.holds_subset i) hreach)
  -- what another call holds is left alone on both sides
  have hother : ∀ j, j ≠ i → ∀ k ∈ (σ.pc j).holds, k ∉ σ.own i :=
    fun j hj k hk hmem => hmem j hj hk
  have hstore : ∀ j, j ≠ i → ∀ k ∈ (σ.pc j).holds, σ'.store.slot k = σ.store.slot k := by
    intro j hj k hk
    rw [hs.store]
    exact hs.move.framed k fun hmem =>
      hother j hj k hk (Set.union_subset (h.holds_subset i) hreach hmem)
  have hseq : ∀ j, j ≠ i → ∀ k ∈ (σ.pc j).holds, t'.slot k = t.slot k :=
    fun j hj k hk => ht k (hother j hj k hk)
  have hwal : σ'.store.wal.isSome = σ.store.wal.isSome := by
    rw [hs.store]
    exact Access.wal_run ..
  refine ⟨fun j k hjk => ?_, hl.wal, hl.queues, fun k hk => ?_, fun j => ?_⟩
  · by_cases hj : j = i
    · have hk : k ≠ i := fun hk => hjk (hj.trans hk.symm)
      rw [hj, hpc, hs.pc_of_ne hk]
      exact fun x hx hxk => hother k hk x hxk (hown hx)
    · rw [hs.pc_of_ne hj]
      by_cases hk : k = i
      · rw [hk, hpc]
        exact fun x hx hxk => hother j hj x hx (hown hxk)
      · rw [hs.pc_of_ne hk]
        exact h.apart j k hjk
  · by_cases hmem : k ∈ σ.own i
    · exact hl.agree k hmem (hpc ▸ hk i)
    · obtain ⟨j, hj, hheld⟩ : ∃ j, j ≠ i ∧ k ∈ (σ.pc j).holds := by
        simpa [own] using hmem
      rw [hseq j hj k hheld, hstore j hj k hheld]
      refine h.agree k fun m hm => ?_
      by_cases hmi : m = i
      · exact hmem (h.holds_subset i ((σ.pc i).veils_subset_holds (hmi ▸ hm)))
      · exact hk m (by rwa [hs.pc_of_ne hmi])
  · by_cases hj : j = i
    · rw [hj, hpc]
      exact hl.stands
    · rw [hs.pc_of_ne hj]
      refine (h.stands j).frame hwal (hstore j hj) (hseq j hj) (fun name hname => ?_)
        fun name hname hmissing hmade => ?_
      · rw [hs.store]
        exact Access.mem_queues_run hname env a
      · refine hmissing (hu.2 j hj name hname ?_)
        show name ∈ (((σ.pc i).step σ.store env).1.run σ.store env).queues
        rw [hs.eq, ← hs.store]
        exact hmade

/-! ### The order -/

/-- A step that begins a call marks it as invoked, one that ends it as returned. -/
def mark (σ : Config ι α) (l : ι × Env) (marks : List (Mark ι)) : List (Mark ι) :=
  marks ++ (if (σ.pc l.1).starting then [.invoked l.1] else [])
    ++ if ((σ.pc l.1).step σ.store l.2).2.finished then [.returned l.1] else []

/-- The order in which the calls have taken effect, and what they received from outside. -/
structure Explains (calls : ι → Call α) (s : InMemoryStorage α) (x : Config ι α × List (Mark ι))
    (order : List ι) (envs : ι → Env) : Prop where
  time : RespectsTime x.2 order
  passed : ∀ i, i ∈ order ↔ (x.1.pc i).passed = true
  tracks : Tracks calls x.1 (after (InMemoryStorage.runCall calls) envs s order)
  answers : ∀ i ∈ order, (x.1.pc i).Answers
    (before (InMemoryStorage.runCall calls) envs s order i) (envs i) (calls i)

/-- The calls are explained, and marked when they have begun. -/
structure Explained (calls : ι → Call α) (s : InMemoryStorage α)
    (x : Config ι α × List (Mark ι)) : Prop where
  serving : Serving calls x.1
  invoked : ∀ i, (x.1.pc i).starting = false → .invoked i ∈ x.2
  explains : ∃ order envs, Explains calls s x order envs

theorem explained_start (hcalls : ∀ i t, calls i ≠ .cleanupExpiredTasks t)
    (s : InMemoryStorage α) : Explained calls s (start s calls, []) where
  serving := serving_start s calls
  invoked i h := by cases h
  explains := by
    refine ⟨[], fun _ => .quiet [], .nil, fun i => ?_, tracks_start hcalls s,
      fun i hi => absurd hi List.not_mem_nil⟩
    exact iff_of_false List.not_mem_nil (by simp [start, pc, Thread.call, Pc.passed])

section Marks

variable {order order' : List ι} {envs envs' : ι → Env} {x x' : Config ι α × List (Mark ι)}

/-- The marks with the beginning of the call that takes the step, if it is one. -/
def begun (x : Config ι α × List (Mark ι)) (i : ι) : List (Mark ι) :=
  x.2 ++ if (x.1.pc i).starting then [.invoked i] else []

theorem Explained.mem_begun (h : Explained calls s x) (i : ι) : .invoked i ∈ begun x i := by
  unfold begun
  cases hstart : (x.1.pc i).starting with
  | true => exact List.mem_append_right _ (List.mem_singleton_self _)
  | false => exact List.mem_append_left _ (h.invoked i hstart)

theorem Explains.time_begun (h : Explains calls s x order envs) (i : ι) :
    RespectsTime (begun x i) order := by
  unfold begun
  split
  · next hstart =>
    refine h.time.invoke fun hmem => ?_
    have hpassed := (h.passed i).mp hmem
    rw [Pc.passed_of_starting hstart] at hpassed
    cases hpassed
  · rw [List.append_nil]
    exact h.time

/-- A step of the call `i` leaves the other calls explained as they are. -/
theorem Explains.next (h : Explains calls s x order envs) (hs : StepOf x.1 i env x'.1 a pc')
    (hpc : x'.1.pc i = pc')
    (hmarks : x'.2 = begun x i ++ if pc'.finished then [.returned i] else [])
    (htime : RespectsTime (begun x i) order') (hi : i ∈ order' ↔ pc'.passed = true)
    (hmem : ∀ j, j ≠ i → (j ∈ order' ↔ j ∈ order))
    (htracks : Tracks calls x'.1 (after (InMemoryStorage.runCall calls) envs' s order'))
    (hself : i ∈ order' → pc'.Answers
      (before (InMemoryStorage.runCall calls) envs' s order' i) (envs' i) (calls i))
    (hother : ∀ j, j ≠ i → j ∈ order → (x.1.pc j).Answers
      (before (InMemoryStorage.runCall calls) envs' s order' j) (envs' j) (calls j)) :
    Explains calls s x' order' envs' := by
  refine ⟨?_, fun j => ?_, htracks, fun j hj => ?_⟩
  · rw [hmarks]
    split
    · next hfin => exact htime.finish (hi.mpr (Pc.passed_of_finished hfin))
    · rw [List.append_nil]
      exact htime
  · by_cases hji : j = i
    · rw [hji, hpc]
      exact hi
    · rw [hs.pc_of_ne hji, hmem j hji]
      exact h.passed j
  · by_cases hji : j = i
    · rw [hji, hpc]
      exact hself (hji ▸ hj)
    · rw [hs.pc_of_ne hji]
      exact hother j hji ((hmem j hji).mp hj)

end Marks

variable [Fintype ι]

/-- **The calls stay explained.** -/
theorem Explained.step (hcalls : ∀ i t, calls i ≠ .cleanupExpiredTasks t)
    {x x' : Config ι α × List (Mark ι)} {l : ι × Env} (h : Explained calls s x)
    (hu : x.1.Uncontested l) (hs : ((machine ι α).recording mark).step x l = some x') :
    Explained calls s x' := by
  obtain ⟨i, env⟩ := l
  obtain ⟨hstep, hmarks⟩ := System.recording_step.mp hs
  obtain ⟨he, a, pc', hof⟩ := machine_step hstep
  have hpc : x'.1.pc i = pc' := hof.pc_self (h.serving i) (hcalls i)
  have hmarks' : x'.2 = begun x i ++ if pc'.finished then [.returned i] else [] := by
    rw [hmarks, mark, hof.eq]
    rfl
  have hinv : ∀ j, (x'.1.pc j).starting = false → .invoked j ∈ x'.2 := by
    intro j hj
    rw [hmarks']
    refine List.mem_append_left _ ?_
    by_cases hji : j = i
    · rw [hji]
      exact h.mem_begun i
    · rw [hof.pc_of_ne hji] at hj
      exact List.mem_append_left _ (h.invoked j hj)
  refine ⟨hof.serving h.serving, hinv, ?_⟩
  obtain ⟨order, envs, hx⟩ := h.explains
  have hfollows : Follows (x.1.own i) x'.1.store
      (after (InMemoryStorage.runCall calls) envs s order) (calls i) (x.1.pc i) pc' := by
    have hstep := (hx.tracks.toLocal i).step (hu.reaches he) (hx.tracks.holds_subset i) he.1
      env
    rwa [hof.eq, ← hof.store] at hstep
  have hnotin : (x.1.pc i).passed = false → i ∉ order := fun hp hmem => by
    rw [(hx.passed i).mp hmem] at hp
    cases hp
  cases hfollows with
  | rest hpassed hl ha =>
    -- nothing happens to the sequential store
    refine ⟨order, envs, hx.next hof hpc hmarks' (hx.time_begun i) ?_ (fun _ _ => Iff.rfl) ?_ ?_ ?_⟩
    · rw [hpassed]
      exact hx.passed i
    · exact hx.tracks.step hof hpc he hu hl (.refl _)
    · exact fun hmem => ha _ _ (hx.answers i hmem)
    · exact fun j _ hmem => hx.answers j hmem
  | take env' hpassed hpassed' hl hframe ha =>
    -- the call is the next one of the sequential store
    have hi := hnotin hpassed
    have hstore : after (InMemoryStorage.runCall calls) (Function.update envs i env') s
        (order ++ [i]) = (InMemoryStorage.runCall calls i env'
          (after (InMemoryStorage.runCall calls) envs s order)).2 := by
      rw [after_concat, Function.update_self, after_update hi]
    have htime := (hx.time_begun i).take hi (h.mem_begun i)
    refine ⟨order ++ [i], Function.update envs i env',
      hx.next hof hpc hmarks' htime ?_ (fun j hj => ?_) ?_ ?_ ?_⟩
    · exact iff_of_true (List.mem_append_right _ (List.mem_singleton_self _)) hpassed'
    · simp [hj]
    · rw [hstore]
      exact hx.tracks.step hof hpc he hu hl hframe
    · intro _
      rw [before_concat_self hi, after_update hi, Function.update_self]
      exact ha
    · intro j hj hmem
      rw [before_concat_of_mem hmem, before_update hi, Function.update_of_ne hj]
      exact hx.answers j hmem
  | @refuse id e hwas hl hnow =>
    -- the `ack` that has taken effect turns out to fail
    have hmem : i ∈ order := (hx.passed i).mpr (by rw [hwas]; rfl)
    have hans := hx.answers i hmem
    rw [hwas] at hans
    obtain ⟨hcall, hwal, hin, -⟩ := hans
    let env' := (Env.quiet []).withAppend (.error e)
    have hswap : ∀ j t, SameTables (InMemoryStorage.runCall calls j (envs j) t).2
        (InMemoryStorage.runCall calls j (Function.update envs i env' j) t).2 := by
      refine (SameTables.respected hcalls).same_update fun t => ?_
      unfold InMemoryStorage.runCall
      rw [hcall]
      exact t.sameTables_ack ..
    have hbefore : ∀ j, SameTables (before (InMemoryStorage.runCall calls) envs s order j)
        (before (InMemoryStorage.runCall calls) (Function.update envs i env') s order j) :=
      fun j => (SameTables.respected hcalls).same_before (fun k _ => hswap k) s j
    refine ⟨order, Function.update envs i env',
      hx.next hof hpc hmarks' (hx.time_begun i) ?_ (fun _ _ => Iff.rfl) ?_ ?_ ?_⟩
    · exact iff_of_true hmem (by rw [hnow]; rfl)
    · refine (hx.tracks.step hof hpc he hu hl (.refl _)).same ?_
      exact (SameTables.respected hcalls).same_after (fun k _ => hswap k) (.refl s)
    · intro _
      have hsame := hbefore i
      obtain ⟨task, htask⟩ := Option.isSome_iff_exists.mp hin
      rw [hnow, Function.update_self, hcall]
      rw [InMemoryStorage.slot_task, hsame.inFlight] at htask
      exact InMemoryStorage.ack_of_error htask (hsame.wal ▸ hwal) rfl
    · intro j hj hmemj
      rw [Function.update_of_ne hj]
      exact (hx.answers j hmemj).same (hbefore j) (hcalls j)

/-! ### The theorem -/

/-- What the call of thread `i` has returned. -/
def outcome (σ : Config ι α) (i : ι) : Option (Outcome (Reply α)) := (σ.pc i).outcome

/-- **Linearizability.** In every run of calls that leave each other's tasks alone, the calls have
returned what they return when each is made at once, at one moment between its beginning and its
end; and when no call is on its way, the tables are those these calls leave. -/
theorem linearizable_run (s : InMemoryStorage α) {calls : ι → Call α}
    (hcalls : ∀ i t, calls i ≠ .cleanupExpiredTasks t) {σ : Config ι α} {marks : List (Mark ι)}
    (hr : ((machine ι α).recording mark).Reach (fun x l => x.1.Uncontested l)
      (start s calls, []) (σ, marks)) :
    Linearizable (InMemoryStorage.runCall calls) s marks σ.outcome fun t =>
      σ.AtRest → t.queues = σ.store.queues ∧ t.inFlight = σ.store.inFlight := by
  have hexplained : Explained calls s (σ, marks) :=
    hr.invariant (Explained calls s) (explained_start hcalls s)
      fun x l x' hx hu hs => hx.step hcalls hu hs
  obtain ⟨order, envs, hx⟩ := hexplained.explains
  refine ⟨order, envs, hx.time, fun i r hout => ?_, hx.tracks.tables⟩
  have hdone : σ.pc i = .done r := Pc.outcome_eq_some.mp hout
  have hmem : i ∈ order := (hx.passed i).mpr (by rw [hdone]; rfl)
  have hans := hx.answers i hmem
  rw [hdone] at hans
  exact ⟨hmem, hans⟩

/-- A delivery, a push to the same queue and a `nack` that fails, all of them on their way at the
same time. -/
theorem linearizable_run_overlapping :
    let calls : Fin 3 → Call Bytes := ![.dequeue "jobs", .queue "jobs" [0x69], .nack "a"]
    let entries : List (WalEntry Bytes) := [⟨.createQueue "jobs", 0⟩, ⟨.enqueue "jobs" [0x67], 0⟩,
      ⟨.dequeued "jobs" "a", 0⟩, ⟨.enqueue "jobs" [0x68], 0⟩]
    let s := InMemoryStorage.boot true (fun _ => Env.quiet []) entries
    ∃ x : Config (Fin 3) Bytes × List (Mark (Fin 3)), (∀ i, (x.1.pc i).finished = true) ∧
      Linearizable (InMemoryStorage.runCall calls) s x.2 x.1.outcome fun t =>
        x.1.AtRest → t.queues = x.1.store.queues ∧ t.inFlight = x.1.store.inFlight := by
  intro calls entries s
  let env := Env.quiet ["b"]
  let steps : List (Fin 3 × Env) := [(1, env), (2, env), (0, env), (2, env),
    (2, env.withAppend (.error "disk full")), (2, env), (1, env), (1, env), (0, env), (0, env),
    (0, env), (1, env)]
  obtain ⟨⟨σ, marks⟩, hr, hdone⟩ := System.Reach.exists_of_run
    ((machine (Fin 3) Bytes).recording mark) (fun x l => x.1.Uncontested l) (start s calls, [])
    (fun x => ∀ i, (x.1.pc i).finished = true) steps (by decide +kernel)
  refine ⟨(σ, marks), hdone, linearizable_run s (fun i t => ?_) hr⟩
  match i with
  | 0 | 1 | 2 => simp [calls]

end Step

end Config

end Oxideq
