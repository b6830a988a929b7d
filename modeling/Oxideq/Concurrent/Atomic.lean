import Oxideq.Concurrent.Ownership

/-!
# Calls that take effect at once

A call of the interleaved store is compared with the same call of a sequential store, step by step.
The two stores agree on every entry of the tables but those that a running call holds (`Pc.holds`):
the queue it has locked, and the tasks it has taken from the table or made sure of. Until it takes
effect, a call holds what it has changed, so the difference is nobody's business; the step at
which it takes effect is the one where the sequential store makes the whole call (`Follows`).

* A delivery takes effect when its last task is in the table, or when its items are back: up to
  then the guard on the queue hides that they are gone.
* `nack` takes effect when it pushes. The task it has taken out of the table is missed by whoever
  looks for it before that.
* `ack_batch` takes effect when its verification fails or its entry is written. The tasks it has
  verified, and those it has not removed yet, are in its hands.
* `ack` takes effect with its first access, before it is known what it returns.
-/

namespace Oxideq

variable {α : Type}

/-! ### A call and the sequential store -/

/-- The two stores as the call `c` sees them, which has the places `T` to itself: they agree there
on everything the call has not changed. -/
structure Local (T : Set Slot) (s t : InMemoryStorage α) (c : Call α) (pc : Pc α) : Prop where
  wal : t.wal.isSome = s.wal.isSome
  queues : ∀ name, name ∈ t.queues ↔ name ∈ s.queues
  agree : AgreeOn T pc.veils s t
  stands : pc.Stands s t c

/-- What is known of the answer of a call that has taken effect in the store `r`: at its end that
it is the answer of the call made there, before that as much as is decided. -/
def Pc.Answers (r : InMemoryStorage α) (env : Env) (c : Call α) : Pc α → Prop
  | .done x => (r.call (fun _ => env) c).1 = x
  | .waitWal (.ack id) => c = .ack id ∧ r.wal.isSome ∧ (r.slot (.task id)).isSome ∧
    (r.call (fun _ => env) c).1 = .ok .done
  | .appendWal (.ack id) => c = .ack id ∧ r.wal.isSome ∧ (r.slot (.task id)).isSome ∧
    (r.call (fun _ => env) c).1 = .ok .done
  | .apply (.ack _) => (r.call (fun _ => env) c).1 = .ok .done
  | .removeTasks _ => (r.call (fun _ => env) c).1 = .ok .done
  | _ => True

/-- **What a step of the call does to the sequential store**: nothing, the whole call, or nothing
but to settle that an `ack` which has taken effect fails. -/
inductive Follows (T : Set Slot) (s t : InMemoryStorage α) (c : Call α) (pc pc' : Pc α) : Prop
  | rest (hpassed : pc'.passed = pc.passed) (h : Local T s t c pc')
    (ha : ∀ r env, pc.Answers r env c → pc'.Answers r env c)
  | take (env : Env) (hpassed : pc.passed = false) (hpassed' : pc'.passed = true)
    (h : Local T s (t.call (fun _ => env) c).2 c pc')
    (hframe : Framed InMemoryStorage.slot T t (t.call (fun _ => env) c).2)
    (ha : pc'.Answers t env c)
  | refuse {id e : String} (hpc : pc = .appendWal (.ack id)) (h : Local T s t c pc')
    (hpc' : pc' = .done (.err (walWriteFailed e)))

/-! ### The calls on the sequential store -/

/-- An environment in which the append ends as `io` says. -/
def Env.withAppend (env : Env) (io : Except String Unit) : Env := { env with append := io }

/-- The text of the error a failed append leads to. -/
def Work.failure (e : String) : Work α → String
  | .ack _ => walWriteFailed e
  | .nack _ _ => walWriteFailed e
  | _ => e

namespace InMemoryStorage

variable {s t : InMemoryStorage α} {e : String}

theorem logOp_error {env : Env} (happ : env.append = .error e) (hwal : t.wal.isSome)
    (op : WalOp α) : t.logOp env op = .error e := by
  obtain ⟨m, hm⟩ := Option.isSome_iff_exists.mp hwal
  simp only [logOp, hm, WalManager.append, happ]

theorem mem_queues_iff {name : String} : name ∈ s.queues ↔ (s.slot (.queue name)).isSome := by
  rw [slot_queue, Option.isSome_iff_exists, Finmap.mem_iff]

theorem mem_inFlight_iff {id : String} : id ∈ s.inFlight ↔ (s.slot (.task id)).isSome := by
  rw [slot_task, Option.isSome_iff_exists, Finmap.mem_iff]

theorem isNone_slot (id : String) : (s.slot (.task id)).isNone = decide (id ∉ s.inFlight) := by
  rw [Bool.eq_iff_iff, decide_eq_true_eq, mem_inFlight_iff, Option.isNone_iff_eq_none,
    Option.not_isSome_iff_eq_none]

/-- **A call whose append fails returns the error and leaves the store as it was**, but for
`ack`. -/
theorem call_of_error (env : Env) {c : Call α} {w : Work α} (hw : w.Stands s t c)
    (hack : ∀ id, w ≠ .ack id)
    (hqueues : ∀ name, name ∈ t.queues ↔ name ∈ s.queues)
    (htasks : ∀ id ∈ w.keeps, t.slot (.task id) = s.slot (.task id) ∨ ∃ task, w = .nack id task)
    (happ : env.append = .error e) (hwal : t.wal.isSome) :
    t.call (fun _ => env) c = (.err (w.failure e), t) := by
  cases hw with
  | createQueue h =>
    rw [← hqueues] at h
    simp only [call, createQueue, if_neg h, logOp_error happ hwal]
    rfl
  | queue h =>
    rw [← hqueues] at h
    simp only [call, queue, if_neg (not_not.mpr h), logOp_error happ hwal]
    rfl
  | queueBatch h =>
    rw [← hqueues] at h
    simp only [call, queueBatch, if_neg (not_not.mpr h), logOp_error happ hwal]
    rfl
  | @dequeue name id item rest hs ht =>
    have hl : t.queues.lookup name = some (item :: rest) := ht
    have herr : (t.setQueue name rest).logOp env (.dequeued name (env.uuid 0)) = .error e :=
      logOp_error happ (by exact hwal) _
    simp only [call, dequeue, hl, herr, setQueue_setQueue, setQueue_self hl]
    rfl
  | @dequeueBatch name count deliveries rest hs ht h =>
    have hl : t.queues.lookup name = some (deliveries.map Prod.snd ++ rest) := ht
    have hne : ¬ (deliveries.map Prod.snd ++ rest).isEmpty = true := by simp [h.ne]
    have hne' : ¬ (deliveries.map Prod.snd).isEmpty = true := by simp [h.ne]
    have herr : ∀ op, (t.setQueue name rest).logOp env op = .error e :=
      logOp_error happ (by exact hwal)
    simp only [call, dequeueBatch, hl, if_neg hne, h.fits, h.take, h.drop, if_neg hne', herr,
      setQueue_setQueue, foldl_cons_reverse, setQueue_self hl]
    rfl
  | ack => exact absurd rfl (hack _)
  | @nack id task hs ht =>
    have hl : t.inFlight.lookup id = some task := ht
    have herr : (t.dropTask id).logOp env (.nack id) = .error e :=
      logOp_error happ (by exact hwal) _
    simp only [call, nack, hl, herr, insert_dropTask hl]
    rfl
  | @extendVisibility id duration task hs ht =>
    have hl : t.inFlight.lookup id = some task := ht
    simp only [call, extendVisibility, hl, logOp_error happ hwal]
    rfl
  | @ackBatch ids hs =>
    have hmissing : ids.filter (· ∉ t.inFlight) = [] := by
      rw [List.filter_eq_nil_iff]
      intro id hid
      rcases htasks id hid with heq | ⟨task, hne⟩
      · rw [decide_eq_true_eq, not_not, mem_inFlight_iff, heq]
        exact hs id hid
      · cases hne
    simp only [call, ackBatch, hmissing, ne_eq, not_true_eq_false, if_false,
      logOp_error happ hwal]
    rfl

end InMemoryStorage

/-! ### Up to the log -/

section Steps

variable {T : Set Slot} {s t : InMemoryStorage α} {env : Env} {c : Call α} {pc pc' : Pc α}
  {w : Work α}

theorem Pc.answers_of_not_passed (h : pc.passed = false) (r : InMemoryStorage α) (env : Env)
    (c : Call α) : pc.Answers r env c := by
  cases pc with
  | waitWal w | appendWal w | apply w => cases w <;> trivial
  | removeTasks todo => cases h
  | done x => cases h
  | _ => trivial

/-- The call goes on without having taken effect. -/
theorem Follows.wait (h : Local T s t c pc') (hp : pc.passed = false) (hp' : pc'.passed = false) :
    Follows T s t c pc pc' :=
  .rest (hp'.trans hp.symm) h fun r env _ => Pc.answers_of_not_passed hp' r env c

/-- The call takes effect: the sequential store makes it. -/
theorem Follows.of_call {r : Outcome (Reply α)} {t' : InMemoryStorage α} (env : Env)
    (hcall : t.call (fun _ => env) c = (r, t')) (hp : pc.passed = false)
    (hp' : pc'.passed = true) (h : Local T s t' c pc')
    (hframe : Framed InMemoryStorage.slot T t t')
    (ha : (t.call (fun _ => env) c).1 = r → pc'.Answers t env c) : Follows T s t c pc pc' := by
  have hstore : (t.call (fun _ => env) c).2 = t' := congrArg Prod.snd hcall
  refine .take env hp hp' ?_ ?_ (ha (congrArg Prod.fst hcall))
  · rw [hstore]
    exact h
  · rw [hstore]
    exact hframe

/-- The two stores as a call with its work in hand sees them. -/
structure Work.Local (T : Set Slot) (s t : InMemoryStorage α) (c : Call α) (w : Work α) :
    Prop where
  wal : t.wal.isSome = s.wal.isSome
  queues : ∀ name, name ∈ t.queues ↔ name ∈ s.queues
  agree : AgreeOn T (Pc.waitWal w).veils s t
  stands : w.Stands s t c

namespace Work.Local

theorem afterLog (h : w.Local T s t c) (hack : ∀ id, w ≠ .ack id)
    (hbatch : ∀ ids, w ≠ .ackBatch ids) :
    Oxideq.Local T s t c (Pc.afterLog w) ∧ (Pc.afterLog w).passed = false := by
  obtain ⟨hwal, hqueues, hagree, hstands⟩ := h
  cases hstands with
  | ack => exact absurd rfl (hack _)
  | ackBatch => exact absurd rfl (hbatch _)
  | @dequeueBatch name count deliveries rest hs ht h =>
    refine ⟨⟨hwal, hqueues, hagree, ?_⟩, rfl⟩
    exact .insertTasks count [] deliveries rest (Env.quiet []) hs ht h fun id hid => nomatch hid
  | createQueue h => exact ⟨⟨hwal, hqueues, hagree, .apply (.createQueue h) rfl⟩, rfl⟩
  | queue h => exact ⟨⟨hwal, hqueues, hagree, .apply (.queue h) rfl⟩, rfl⟩
  | queueBatch h => exact ⟨⟨hwal, hqueues, hagree, .apply (.queueBatch h) rfl⟩, rfl⟩
  | dequeue hs ht => exact ⟨⟨hwal, hqueues, hagree, .apply (.dequeue hs ht) rfl⟩, rfl⟩
  | nack hs ht => exact ⟨⟨hwal, hqueues, hagree, .apply (.nack hs ht) rfl⟩, rfl⟩
  | extendVisibility hs ht =>
    exact ⟨⟨hwal, hqueues, hagree, .apply (.extendVisibility hs ht) rfl⟩, rfl⟩

theorem waitWal (h : w.Local T s t c) (hwal : s.wal.isSome) :
    Oxideq.Local T s t c (.waitWal w) := ⟨h.wal, h.queues, h.agree, .waitWal hwal h.stands⟩

theorem passed_waitWal (hack : ∀ id, w ≠ .ack id) : (Pc.waitWal w).passed = false := by
  cases w with
  | ack id => exact absurd rfl (hack id)
  | _ => rfl

theorem toLog (h : w.Local T s t c) (hack : ∀ id, w ≠ .ack id)
    (hbatch : ∀ ids, w ≠ .ackBatch ids) :
    Oxideq.Local T s t c (Pc.toLog s w) ∧ (Pc.toLog s w).passed = false := by
  unfold Pc.toLog
  split
  · next hwal => exact ⟨h.waitWal hwal, passed_waitWal hack⟩
  · exact h.afterLog hack hbatch

end Work.Local

namespace Local

/-- The first step reads the same in both stores. -/
theorem begin_eq (h : Local T s t c (.start c)) (hreach : (Pc.start c).reaches ⊆ T) (env : Env) :
    Pc.begin t env c = Pc.begin s env c := by
  have hlog : ∀ w, Pc.toLog t w = Pc.toLog s w := by
    intro w
    unfold Pc.toLog
    rw [h.wal]
  have hqueue : ∀ name, (Pc.start c).queueAccess = some name →
      t.queues.lookup name = s.queues.lookup name := fun name hname =>
    h.agree (.queue name) (hreach hname) fun hv => by cases hv
  have htask : ∀ id, (Pc.start c).taskAccess = some id →
      t.inFlight.lookup id = s.inFlight.lookup id := fun id hid =>
    h.agree (.task id) (hreach hid) fun hv => by cases hv
  cases c with
  | createQueue name => simp only [Pc.begin, h.queues, hlog]
  | queue name item => simp only [Pc.begin, h.queues, hlog]
  | queueBatch name items => simp only [Pc.begin, h.queues, hlog]
  | dequeue name => simp only [Pc.begin, hqueue name rfl, hlog]
  | dequeueBatch name count => simp only [Pc.begin, hqueue name rfl, hlog]
  | ack id => simp only [Pc.begin, htask id rfl, hlog]
  | ackBatch ids => rfl
  | nack id => simp only [Pc.begin, htask id rfl, hlog]
  | extendVisibility id duration => simp only [Pc.begin, htask id rfl, hlog]
  | cleanupExpiredTasks timeout =>
    cases h.stands with
    | start hc => exact absurd rfl (hc timeout)

/-- A call that ends with its first step takes effect there. -/
theorem reject {r : Outcome (Reply α)} (h : Local T s t c (.start c))
    (hreach : (Pc.start c).reaches ⊆ T) (hbegin : Pc.begin s env c = (.look, .done r)) :
    Follows T s t c (.start c) (.done r) := by
  have hc : ∀ timeout, c ≠ .cleanupExpiredTasks timeout := by
    cases h.stands with
    | start hc => exact hc
  obtain ⟨hstore, hreply⟩ :=
    (ends_call env t hc).unique (ends_reject ((h.begin_eq hreach env).trans hbegin))
  exact .of_call env (Prod.ext hreply hstore) rfl rfl ⟨h.wal, h.queues, h.agree, .done⟩ (.refl t) id

/-- The first step of a call whose work takes effect later. -/
theorem enter {s' : InMemoryStorage α} (h : Local T s t c (.start c))
    (hwal : s'.wal.isSome = s.wal.isSome) (hqueues : ∀ name, name ∈ s'.queues ↔ name ∈ s.queues)
    (hframe : Framed InMemoryStorage.slot (Pc.waitWal w).veils s s') (hw : w.Stands s' t c)
    (hack : ∀ id, w ≠ .ack id) (hbatch : ∀ ids, w ≠ .ackBatch ids) :
    Follows T s' t c (.start c) (Pc.toLog s w) := by
  have hlog : Pc.toLog s w = Pc.toLog s' w := by
    unfold Pc.toLog
    rw [hwal]
  have hveils : (Pc.start c).veils ⊆ (Pc.waitWal w).veils := by
    intro k hk
    cases k <;> cases hk
  have hwork : w.Local T s' t c :=
    ⟨h.wal.trans hwal.symm, fun name => (h.queues name).trans (hqueues name).symm,
      h.agree.veil hveils hframe, hw⟩
  obtain ⟨hlocal, hpassed⟩ := hwork.toLog hack hbatch
  rw [hlog]
  exact .wait hlocal rfl hpassed

theorem mem_setQueue {name : String} (h : name ∈ s.queues) (items : List (QueueItem α))
    (name' : String) : name' ∈ (s.setQueue name items).queues ↔ name' ∈ s.queues := by
  rw [InMemoryStorage.setQueue, Finmap.mem_insert]
  constructor
  · rintro (rfl | h')
    · exact h
    · exact h'
  · exact Or.inr

/-- What an `ack` returns is decided by its append, but the tables are what they will be. -/
theorem start_ack {id : String} {task : InFlightTask α}
    (h : Local T s t (.ack id) (.start (.ack id))) (hT : Slot.task id ∈ T)
    (hl : t.inFlight.lookup id = some task) :
    Follows T (s.dropTask id) t (.ack id) (.start (.ack id)) (Pc.toLog s (.ack id)) := by
  let env := (Env.quiet []).withAppend (.ok ())
  let t' := (t.dropTask id).logged env (.ack id)
  have hcall : t.call (fun _ => env) (.ack id) = (.ok .done, t') := by
    simp only [InMemoryStorage.call, InMemoryStorage.ack, hl,
      InMemoryStorage.logOp_ok (show env.append = .ok () from rfl)]
    rfl
  have hsame : SameTables (t.dropTask id) t' := SameTables.logged ..
  have hagree : AgreeOn T ∅ (s.dropTask id) t' := by
    refine AgreeOn.of_tables ((h.agree.dropTask id).mono ?_) (.refl _) hsame
    rintro k ⟨hk, -⟩
    cases k <;> cases hk
  have hwal : t'.wal.isSome = (s.dropTask id).wal.isSome := hsame.wal.symm.trans h.wal
  have hframe : Framed InMemoryStorage.slot T t t' :=
    (t.framed_slot_dropTask hT).trans (InMemoryStorage.framed_of_tables rfl rfl)
  unfold Pc.toLog
  split
  · next hlog =>
    refine .of_call env hcall rfl rfl
      ⟨hwal, h.queues, hagree.mono (Set.empty_subset _), .waitWal hlog .ack⟩ hframe fun hr => ?_
    exact ⟨rfl, h.wal.trans hlog, by rw [InMemoryStorage.slot_task, hl]; rfl, hr⟩
  · exact .of_call env hcall rfl rfl
      ⟨hwal, h.queues, hagree.mono (Set.empty_subset _), .apply .ack rfl⟩ hframe fun hr => hr

/-- **The first step of a call.** -/
theorem start (h : Local T s t c (.start c)) (hreach : (Pc.start c).reaches ⊆ T) :
    Follows T ((Pc.begin s env c).1.run s env) t c (.start c) (Pc.begin s env c).2 := by
  have hc : ∀ timeout, c ≠ .cleanupExpiredTasks timeout := by
    cases h.stands with
    | start hc => exact hc
  have hslot : ∀ k ∈ (Pc.start c).reaches, t.slot k = s.slot k := fun k hk =>
    h.agree k (hreach hk) fun hv => by cases k <;> cases hv
  have hmove := Pc.move_begin s env c
  generalize hbegin : Pc.begin s env c = x at hmove
  obtain ⟨a, pc'⟩ := x
  simp only at hmove ⊢
  cases hmove with
  | reject hr hack => exact h.reject hreach hbegin
  | scan => exact absurd rfl (hc _)
  | createQueue hname =>
    exact h.enter rfl (fun _ => Iff.rfl) (.refl s) (.createQueue hname) (by simp) (by simp)
  | queue hname =>
    exact h.enter rfl (fun _ => Iff.rfl) (.refl s) (.queue hname) (by simp) (by simp)
  | queueBatch hname =>
    exact h.enter rfl (fun _ => Iff.rfl) (.refl s) (.queueBatch hname) (by simp) (by simp)
  | @dequeue name item rest hl =>
    have hmem : name ∈ s.queues := Finmap.mem_of_lookup_eq_some hl
    have hrun : (Access.pop name 1).run s env = s.setQueue name rest := by
      rw [Access.run, InMemoryStorage.items_of_lookup hl, List.drop_one, List.tail_cons]
    rw [hrun]
    have hveil : Slot.queue name ∈ (Pc.waitWal (.dequeue name item (env.uuid 0))).veils := rfl
    refine h.enter rfl (mem_setQueue hmem rest) (s.framed_slot_setQueue hveil rest) ?_ (by simp)
      (by simp)
    exact .dequeue (Finmap.lookup_insert _) ((hslot (.queue name) rfl).trans hl)
  | @dequeueBatch name count items deliveries hl hcap hitems hne =>
    have hmem : name ∈ s.queues := Finmap.mem_of_lookup_eq_some hl
    let rest := items.drop count.toNat
    have hall : deliveries.map Prod.snd ++ rest = items := by
      rw [hitems, List.take_append_drop]
    have hrun : (Access.pop name count.toNat).run s env = s.setQueue name rest := by
      rw [Access.run, InMemoryStorage.items_of_lookup hl]
    rw [hrun]
    have hveil : Slot.queue name ∈ (Pc.waitWal (.dequeueBatch name deliveries)).veils := rfl
    refine h.enter rfl (mem_setQueue hmem rest) (s.framed_slot_setQueue hveil rest) ?_ (by simp)
      (by simp)
    refine .dequeueBatch (Finmap.lookup_insert _) ?_ ⟨hcap, hne, ?_, ?_⟩
    · rw [hall]
      exact (hslot (.queue name) rfl).trans hl
    · rw [hall, hitems]
    · rw [hall]
  | @ack id task hl =>
    exact h.start_ack (hreach (show Slot.task id ∈ (Pc.start (.ack id)).reaches from rfl))
      ((hslot (.task id) rfl).trans hl)
  | @nack id task hl =>
    refine h.enter rfl (fun _ => Iff.rfl) (s.framed_slot_dropTask ?_) ?_ (by simp) (by simp)
    · exact List.mem_singleton_self id
    · exact .nack (Finmap.lookup_erase ..) ((hslot (.task id) rfl).trans hl)
  | @extendVisibility id duration task hl =>
    refine h.enter rfl (fun _ => Iff.rfl) (.refl s) ?_ (by simp) (by simp)
    exact .extendVisibility hl ((hslot (.task id) rfl).trans hl)
  | @ackBatch ids =>
    exact .wait ⟨h.wal, h.queues, h.agree, .verify [] ids⟩ rfl rfl

end Local

/-! ### The log -/

theorem Pc.veils_appendWal (w : Work α) : (Pc.appendWal w).veils = (Pc.waitWal w).veils := by
  ext k
  cases k with
  | queue name => rfl
  | task id => cases w <;> rfl

namespace Work.Local

/-- The entry of the call is written. -/
theorem logged (h : w.Local T s t c) (env : Env) (op : WalOp α) :
    w.Local T (s.logged env op) t c := by
  have hsame : SameTables s (s.logged env op) := SameTables.logged s env op
  have hslot : ∀ k, (s.logged env op).slot k = s.slot k := fun k => by cases k <;> rfl
  exact ⟨h.wal.trans hsame.wal, h.queues, h.agree.of_tables hsame (.refl t),
    h.stands.frame (fun k _ => hslot k) (fun k _ => rfl) (fun _ => id) fun _ _ => id⟩

/-- `ack_batch` removes its tasks from the sequential store at once. -/
theorem takeBatch {ids : List String} (h : (Work.ackBatch ids).Local T s t (.ackBatch ids))
    (hT : ∀ id ∈ ids, Slot.task id ∈ T) (hp : pc.passed = false) :
    Follows T s t (.ackBatch ids) pc (.removeTasks ids) := by
  let env := (Env.quiet []).withAppend (.ok ())
  let t' := ids.foldl InMemoryStorage.dropTask (t.logged env (.ackBatch ids))
  have hall : ∀ id ∈ ids, id ∈ t.inFlight := by
    intro id hid
    cases h.stands with
    | ackBatch hs =>
      rw [InMemoryStorage.mem_inFlight_iff, h.agree (.task id) (hT id hid) fun hv => by cases hv]
      exact hs id hid
  have hmissing : ids.filter (· ∉ t.inFlight) = [] := by
    rw [List.filter_eq_nil_iff]
    intro id hid
    simpa using hall id hid
  have hcall : t.call (fun _ => env) (.ackBatch ids) = (.ok .done, t') := by
    simp only [InMemoryStorage.call, InMemoryStorage.ackBatch, hmissing, ne_eq, not_true_eq_false,
      if_false, InMemoryStorage.logOp_ok (show env.append = .ok () from rfl)]
    rfl
  have hslot : ∀ id, id ∉ ids → t'.slot (.task id) = t.slot (.task id) := by
    intro id hid
    rw [InMemoryStorage.slot_task, InMemoryStorage.lookup_foldl_dropTask, if_neg hid]
    rfl
  have hgone : ∀ id ∈ ids, t'.slot (.task id) = none := by
    intro id hid
    rw [InMemoryStorage.slot_task, InMemoryStorage.lookup_foldl_dropTask, if_pos hid]
  have hqueue : ∀ name, t'.slot (.queue name) = t.slot (.queue name) := fun name => by
    rw [InMemoryStorage.slot_queue, InMemoryStorage.foldl_dropTask_queues]
    rfl
  have hwal : t'.wal.isSome = s.wal.isSome := by
    rw [InMemoryStorage.foldl_dropTask_wal]
    exact (SameTables.logged t env (.ackBatch ids)).wal.symm.trans h.wal
  refine .of_call env hcall hp rfl ⟨hwal, fun name => ?_, fun k hk hv => ?_, .removeTasks hgone⟩
    (fun k hk => ?_) fun hr => hr
  · rw [InMemoryStorage.mem_queues_iff, hqueue, ← InMemoryStorage.mem_queues_iff]
    exact h.queues name
  · cases k with
    | queue name => exact (hqueue name).trans (h.agree _ hk fun hv => by cases hv)
    | task id => exact (hslot id hv).trans (h.agree _ hk fun hv => by cases hv)
  · cases k with
    | queue name => exact hqueue name
    | task id => exact hslot id fun hid => hk (hT id hid)

end Work.Local

namespace Local

theorem work (h : Local T s t c (.waitWal w)) : w.Local T s t c ∧ s.wal.isSome := by
  obtain ⟨hwal, hqueues, hagree, hstands⟩ := h
  cases hstands with
  | waitWal hlog hw => exact ⟨⟨hwal, hqueues, hagree, hw⟩, hlog⟩

/-- The mutex of the log is acquired. -/
theorem acquire (h : Local T s t c (.waitWal w)) :
    Follows T s t c (.waitWal w) (.appendWal w) := by
  have hpassed : (Pc.appendWal w).passed = (Pc.waitWal w).passed := by cases w <;> rfl
  refine .rest hpassed ⟨h.wal, h.queues, ?_, ?_⟩ fun r env ha => ?_
  · rw [Pc.veils_appendWal]
    exact h.agree
  · exact .appendWal h.work.2 h.work.1.stands
  · cases w <;> exact ha

/-- **The entry of the call is written.** `ack_batch` takes effect here. -/
theorem append (h : Local T s t c (.appendWal w)) (hholds : (Pc.appendWal w).holds ⊆ T) :
    Follows T (s.logged env w.op) t c (.appendWal w) (Pc.afterLog w) := by
  obtain ⟨hwal, hqueues, hagree, hstands⟩ := h
  rw [Pc.veils_appendWal] at hagree
  have hw : w.Stands s t c := by cases hstands; assumption
  have hlocal : w.Local T (s.logged env w.op) t c :=
    Work.Local.logged ⟨hwal, hqueues, hagree, hw⟩ env w.op
  cases w with
  | ack id =>
    refine .rest rfl ⟨hlocal.wal, hlocal.queues, hlocal.agree, .apply hlocal.stands rfl⟩ ?_
    exact fun r env ha => ha.2.2.2
  | ackBatch ids =>
    obtain rfl : c = .ackBatch ids := by cases hw; rfl
    exact hlocal.takeBatch (fun id hid => hholds (Or.inr hid)) rfl
  | _ =>
    obtain ⟨hafter, hpassed⟩ := hlocal.afterLog (by simp) (by simp)
    exact .wait hafter rfl hpassed

/-- The call ends with the error of its append, having changed nothing. -/
theorem fail {s' : InMemoryStorage α} {e : String} (hw : w.Stands s t c) (hack : ∀ id, w ≠ .ack id)
    (hqueues : ∀ name, name ∈ t.queues ↔ name ∈ s.queues)
    (htasks : ∀ id ∈ w.keeps, t.slot (.task id) = s.slot (.task id) ∨ ∃ task, w = .nack id task)
    (hwal : t.wal.isSome) (hp : pc.passed = false)
    (h : Local T s' t c (.done (.err (w.failure e)) : Pc α)) :
    Follows T s' t c pc (.done (.err (w.failure e))) := by
  let env := (Env.quiet []).withAppend (.error e)
  have hcall := InMemoryStorage.call_of_error env hw hack hqueues htasks rfl hwal
  exact .of_call env hcall hp rfl h (.refl t) fun hr => hr

/-- **The append fails.** -/
theorem appendFails {e : String} (h : Local T s t c (.appendWal w))
    (hholds : (Pc.appendWal w).holds ⊆ T) :
    Follows T s t c (.appendWal w) (Pc.failLog e w) := by
  obtain ⟨hwal, hqueues, hagree, hstands⟩ := h
  rw [Pc.veils_appendWal] at hagree
  obtain ⟨hw, hlog⟩ : w.Stands s t c ∧ s.wal.isSome := by cases hstands; exact ⟨‹_›, ‹_›⟩
  cases w with
  | dequeue name item id =>
    exact .wait ⟨hwal, hqueues, hagree, .restore hlog hw rfl⟩ rfl rfl
  | dequeueBatch name deliveries =>
    exact .wait ⟨hwal, hqueues, hagree, .restore hlog hw rfl⟩ rfl rfl
  | nack id task =>
    exact .wait ⟨hwal, hqueues, hagree, .restore hlog hw rfl⟩ rfl rfl
  | ack id => exact .refuse rfl ⟨hwal, hqueues, hagree, .done⟩ rfl
  | ackBatch ids =>
    refine fail hw (by simp) hqueues (fun id hid => Or.inl ?_) (hwal.trans hlog) rfl
      ⟨hwal, hqueues, hagree, .done⟩
    exact hagree (.task id) (hholds (Or.inr hid)) fun hv => by cases hv
  | _ =>
    exact fail hw (by simp) hqueues (fun id hid => nomatch hid) (hwal.trans hlog) rfl
      ⟨hwal, hqueues, hagree, .done⟩

/-- **A removal is undone.** The delivery or the `nack` takes effect as one that has failed. -/
theorem restore {e : String} (h : Local T s t c (.restore w e)) :
    Follows T ((Pc.undo e w).1.run s env) t c (.restore w e) (Pc.undo e w).2 := by
  obtain ⟨hwal, hqueues, hagree, hstands⟩ := h
  obtain ⟨hw, hlog, hback⟩ : w.Stands s t c ∧ s.wal.isSome ∧ Pc.failLog e w = .restore w e := by
    cases hstands
    exact ⟨‹_›, ‹_›, ‹_›⟩
  -- the queue has its items back, as the sequential store has them
  have hqueue : ∀ {name items rest}, s.slot (.queue name) = some rest →
      t.slot (.queue name) = some (items ++ rest) → (Pc.restore w e).queueGuard = some name →
      (Pc.restore w e).hides = [] →
      Local T ((Access.pushFront name items).run s env) t c (.done (.err (w.failure e))) := by
    intro name items rest hs ht hguard hhides
    have hmem : name ∈ s.queues := Finmap.mem_of_lookup_eq_some hs
    have hrun : (Access.pushFront name items).run s env = s.setQueue name (items ++ rest) := by
      rw [Access.run, InMemoryStorage.items_of_lookup hs]
    rw [hrun]
    refine ⟨hwal, fun name' => (hqueues name').trans (mem_setQueue hmem _ name').symm, ?_, .done⟩
    have hset := hagree.setQueue name (items ++ rest)
    rw [InMemoryStorage.setQueue_self ht] at hset
    refine hset.mono ?_
    rintro k ⟨hk, hne⟩
    cases k with
    | queue name' =>
      refine absurd ?_ hne
      rw [Set.mem_singleton_iff, Slot.queue.injEq]
      exact Option.some_inj.mp (Eq.trans (Eq.symm hk) hguard)
    | task id =>
      have hid : id ∈ (Pc.restore w e).hides := hk
      rw [hhides] at hid
      cases hid
  cases hw with
  | dequeue hs ht =>
    exact fail (.dequeue hs ht) (by simp) hqueues (fun id hid => absurd hid List.not_mem_nil)
      (hwal.trans hlog) rfl (hqueue hs ht rfl rfl)
  | dequeueBatch hs ht h =>
    exact fail (.dequeueBatch hs ht h) (by simp) hqueues
      (fun id hid => absurd hid List.not_mem_nil) (hwal.trans hlog) rfl (hqueue hs ht rfl rfl)
  | @nack id task hs ht =>
    refine fail (.nack hs ht) (by simp) hqueues (fun id' hid => Or.inr ?_) (hwal.trans hlog) rfl
      ⟨hwal, hqueues, ?_, .done⟩
    · rw [List.mem_singleton.mp hid]
      exact ⟨task, rfl⟩
    · have hset := hagree.insertTask id task
      have hself : t.insertTask id task = t := by
        rw [InMemoryStorage.insertTask, ← Table.insert_erase_insert, Table.insert_erase ht]
      rw [hself] at hset
      refine hset.mono ?_
      rintro k ⟨hk, hne⟩
      cases k with
      | queue name => cases hk
      | task id' =>
        have hid : id' ∈ [id] := hk
        exact absurd (congrArg Slot.task (List.mem_singleton.mp hid)) hne
  | _ => cases hback

/-- A call takes effect that replaces the items of a queue. -/
theorem finishQueue {t₁ : InMemoryStorage α} {name : String} {items : List (QueueItem α)}
    {V : Set Slot} (h : Local T s t c pc) (hp : pc.passed = false) (hT : Slot.queue name ∈ T)
    (env : Env) (hcall : t.call (fun _ => env) c = (.ok .done, t₁.setQueue name items))
    (hagree : AgreeOn T V s t₁) (hV : V ⊆ {.queue name})
    (hframe : Framed InMemoryStorage.slot T t t₁) (hqueues : t₁.queues = t.queues)
    (hwal : t₁.wal.isSome = t.wal.isSome) :
    Follows T (s.setQueue name items) t c pc (.done (.ok .done)) := by
  refine .of_call env hcall hp rfl ⟨hwal.trans h.wal, fun name' => ?_, ?_, .done⟩
    (hframe.trans (t₁.framed_slot_setQueue hT items)) fun hr => hr
  · simp only [InMemoryStorage.setQueue, Finmap.mem_insert, hqueues, h.queues]
  · refine (hagree.setQueue name items).mono ?_
    rintro k ⟨hk, hne⟩
    exact absurd (hV hk) hne

theorem items_congr {name : String} (h : t.slot (.queue name) = s.slot (.queue name)) :
    t.items name = s.items name := congrArg (Option.getD · []) h

/-- A delivery takes effect when its task is in the table. -/
theorem commit_dequeue {name id : String} {item : QueueItem α}
    (h : Local T s t (.dequeue name) (.apply (.dequeue name item id))) (now : Int)
    (hT : Slot.task id ∈ T) (hT' : Slot.queue name ∈ T) :
    Follows T (s.insertTask id (.deliver id name now item)) t (.dequeue name)
      (.apply (.dequeue name item id))
      (.done (.ok (.delivered (some (.deliver id name now item))))) := by
  obtain ⟨rest, hs, ht⟩ : ∃ rest, s.queues.lookup name = some rest ∧
      t.queues.lookup name = some (item :: rest) := by
    cases h.stands with
    | apply hw hafter => cases hw with
      | dequeue hs ht => exact ⟨_, hs, ht⟩
  let env : Env := { Env.quiet [] with uuid := fun _ => id, now := fun _ => now }
  let t₁ := (t.setQueue name rest).logged env (.dequeued name id)
  let task := InFlightTask.deliver id name now item
  have hlog : (t.setQueue name rest).logOp env (.dequeued name (env.uuid 0)) = .ok t₁ :=
    InMemoryStorage.logOp_ok rfl _ _
  have hcall : t.call (fun _ => env) (.dequeue name)
      = (.ok (.delivered (some task)), t₁.insertTask id task) := by
    simp only [InMemoryStorage.call, InMemoryStorage.dequeue, ht, hlog]
    rfl
  -- the queue is what it became when the item was popped
  have hagree : AgreeOn T ∅ s t₁ := by
    have hset := h.agree.setQueue name rest
    rw [InMemoryStorage.setQueue_self hs] at hset
    refine (hset.of_tables (.refl s) (SameTables.logged ..)).mono ?_
    rintro k ⟨hk, hne⟩
    cases k with
    | queue name' => exact absurd (congrArg Slot.queue (Option.some_inj.mp hk)).symm hne
    | task id' => cases hk
  have hmem : name ∈ t.queues := Finmap.mem_of_lookup_eq_some ht
  refine .of_call env hcall rfl rfl ⟨?_, fun name' => ?_, ?_, .done⟩ ?_ fun hr => hr
  · exact (SameTables.logged (t.setQueue name rest) env (.dequeued name id)).wal.symm.trans h.wal
  · exact (mem_setQueue hmem rest name').trans (h.queues name')
  · exact (hagree.insertTask id task).mono (fun k hk => absurd hk.1 (Set.notMem_empty k))
  · exact ((t.framed_slot_setQueue hT' rest).trans (InMemoryStorage.framed_of_tables rfl rfl)).trans
      (t₁.framed_slot_insertTask hT task)

/-- A `nack` takes effect when it pushes, or finds no queue to push to. -/
theorem commit_nack {id : String} {task : InFlightTask α}
    (h : Local T s t (.nack id) (.apply (.nack id task)))
    (hreach : (Pc.apply (.nack id task)).reaches ⊆ T) (hT : Slot.task id ∈ T) :
    Follows T ((Pc.commit s env (.nack id task)).1.run s env) t (.nack id)
      (.apply (.nack id task)) (Pc.commit s env (.nack id task)).2 := by
  obtain ⟨hs, ht⟩ : s.inFlight.lookup id = none ∧ t.inFlight.lookup id = some task := by
    cases h.stands with
    | apply hw hafter => cases hw with
      | nack hs ht => exact ⟨hs, ht⟩
  let env' := Env.quiet []
  let t₁ := (t.dropTask id).logged env' (.nack id)
  have hlog : (t.dropTask id).logOp env' (.nack id) = .ok t₁ := InMemoryStorage.logOp_ok rfl _ _
  have hagree : AgreeOn T ∅ s t₁ := by
    have hdrop := h.agree.both (.task id) (.refl s)
      (t.framed_slot_dropTask (Set.mem_singleton (Slot.task id)))
      ((Finmap.lookup_erase ..).trans hs.symm)
    refine (hdrop.of_tables (.refl s) (SameTables.logged ..)).mono ?_
    rintro k ⟨hk, hne⟩
    cases k with
    | queue name => cases hk
    | task id' => exact absurd (congrArg Slot.task (List.mem_singleton.mp hk)) hne
  have hwal : t₁.wal.isSome = t.wal.isSome :=
    (SameTables.logged (t.dropTask id) env' (.nack id)).wal.symm
  have hframe : Framed InMemoryStorage.slot T t t₁ :=
    (t.framed_slot_dropTask hT).trans (InMemoryStorage.framed_of_tables rfl rfl)
  by_cases hex : task.exhausted
  · -- the dead-letter queue, whether or not it exists
    have hq : Slot.queue (dlqName task.queueName) ∈ T := hreach (by
      show (Pc.apply (.nack id task)).queueAccess = _
      rw [Pc.queueAccess, if_pos hex])
    simp only [Pc.commit, if_pos hex]
    refine h.finishQueue rfl hq env' ?_ hagree (Set.empty_subset _) hframe rfl hwal
    have hitems := items_congr (hagree _ hq (Set.notMem_empty _))
    simp only [InMemoryStorage.call, InMemoryStorage.nack, ht, hlog, InMemoryStorage.requeue,
      if_pos hex, ← hitems]
    rfl
  · have hq : Slot.queue task.queueName ∈ T := hreach (by
      show (Pc.apply (.nack id task)).queueAccess = _
      rw [Pc.queueAccess, if_neg hex])
    have hslot : t₁.queues.lookup task.queueName = s.queues.lookup task.queueName :=
      hagree _ hq (Set.notMem_empty _)
    cases hl : s.queues.lookup task.queueName with
    | none =>
      have hname : task.queueName ∉ s.queues := Finmap.lookup_eq_none.mp hl
      have hcall : t.call (fun _ => env') (.nack id)
          = (.err (originalQueueNotFound task.queueName), t₁) := by
        simp only [InMemoryStorage.call, InMemoryStorage.nack, ht, hlog, InMemoryStorage.requeue,
          if_neg hex, hslot.trans hl]
        rfl
      simp only [Pc.commit, if_neg hex, if_neg hname]
      exact .of_call env' hcall rfl rfl
        ⟨hwal.trans h.wal, h.queues, hagree.mono (Set.empty_subset _), .done⟩ hframe fun hr => hr
    | some q =>
      have hname : task.queueName ∈ s.queues := Finmap.mem_of_lookup_eq_some hl
      simp only [Pc.commit, if_neg hex, if_pos hname]
      refine h.finishQueue rfl hq env' ?_ hagree (Set.empty_subset _) hframe rfl hwal
      simp only [InMemoryStorage.call, InMemoryStorage.nack, ht, hlog, InMemoryStorage.requeue,
        if_neg hex, hslot.trans hl, InMemoryStorage.items_of_lookup hl]
      rfl

/-- A heartbeat takes effect when it resets the clock of its task. -/
theorem commit_extendVisibility {id : String} {duration : UInt64} {task : InFlightTask α}
    (h : Local T s t (.extendVisibility id duration) (.apply (.extendVisibility id duration)))
    (now : Int) (hT : Slot.task id ∈ T) (ht : t.inFlight.lookup id = some task) :
    Follows T (s.insertTask id { task with consumedAt := now }) t (.extendVisibility id duration)
      (.apply (.extendVisibility id duration)) (.done (.ok .done)) := by
  let env : Env := { Env.quiet [] with now := fun _ => now }
  let t₁ := t.logged env (.extendVisibility id duration)
  have hlog : t.logOp env (.extendVisibility id duration) = .ok t₁ :=
    InMemoryStorage.logOp_ok rfl _ _
  have hcall : t.call (fun _ => env) (.extendVisibility id duration)
      = (.ok .done, t₁.insertTask id { task with consumedAt := now }) := by
    simp only [InMemoryStorage.call, InMemoryStorage.extendVisibility, ht, hlog]
    rfl
  have hagree := h.agree.of_tables (.refl s)
    (SameTables.logged t env (.extendVisibility id duration))
  refine .of_call env hcall rfl rfl ⟨?_, h.queues, ?_, .done⟩ ?_ fun hr => hr
  · exact (SameTables.logged t env (.extendVisibility id duration)).wal.symm.trans h.wal
  · refine (hagree.insertTask id _).mono ?_
    rintro k ⟨hk, -⟩
    cases k <;> cases hk
  · exact (InMemoryStorage.framed_of_tables rfl rfl).trans (t₁.framed_slot_insertTask hT _)

/-- **The access that follows the append.** -/
theorem commit (h : Local T s t c (.apply w)) (hreach : (Pc.apply w).reaches ⊆ T)
    (hholds : (Pc.apply w).holds ⊆ T) :
    Follows T ((Pc.commit s env w).1.run s env) t c (.apply w) (Pc.commit s env w).2 := by
  obtain ⟨hw, hafter⟩ : w.Stands s t c ∧ Pc.afterLog w = .apply w := by
    cases h.stands
    exact ⟨‹_›, ‹_›⟩
  let env' := Env.quiet []
  have hwal : (t.logged env' w.op).wal.isSome = t.wal.isSome :=
    (SameTables.logged t env' w.op).wal.symm
  have hagree : AgreeOn T (Pc.apply w).veils s (t.logged env' w.op) :=
    h.agree.of_tables (.refl s) (SameTables.logged ..)
  have hframe : Framed InMemoryStorage.slot T t (t.logged env' w.op) :=
    InMemoryStorage.framed_of_tables rfl rfl
  have hlog : t.logOp env' w.op = .ok (t.logged env' w.op) := InMemoryStorage.logOp_ok rfl _ _
  cases hw with
  | @createQueue name hname =>
    have hname' : name ∉ t.queues := fun hmem => hname ((h.queues name).mp hmem)
    have hlog' : t.logOp env' (.createQueue name) = _ := hlog
    refine h.finishQueue rfl (hreach (show Slot.queue name ∈ _ from rfl)) env' ?_ hagree ?_ hframe
      rfl hwal
    · simp only [InMemoryStorage.call, InMemoryStorage.createQueue, if_neg hname', hlog']
      rfl
    · intro k hk
      cases k <;> cases hk
  | @queue name item hname =>
    have hname' := (h.queues name).mpr hname
    have hlog' : t.logOp env' (.enqueue name item) = _ := hlog
    obtain ⟨q, hq⟩ := Finmap.mem_iff.mp hname
    have hq' : t.queues.lookup name = some q :=
      (h.agree (.queue name) (hreach (show Slot.queue name ∈ _ from rfl)) fun hv => by
        cases hv).trans hq
    simp only [Pc.commit, if_pos hname, Access.run, InMemoryStorage.items_of_lookup hq]
    refine h.finishQueue rfl (hreach (show Slot.queue name ∈ _ from rfl)) env' ?_ hagree ?_ hframe
      rfl hwal
    · simp only [InMemoryStorage.call, InMemoryStorage.queue, if_neg (not_not.mpr hname'), hlog',
        InMemoryStorage.pushBack, InMemoryStorage.logged_queues, hq']
      rfl
    · intro k hk
      cases k <;> cases hk
  | @queueBatch name items hname =>
    have hname' := (h.queues name).mpr hname
    have hlog' : t.logOp env' (.enqueueBatch name items) = _ := hlog
    obtain ⟨q, hq⟩ := Finmap.mem_iff.mp hname
    have hq' : t.queues.lookup name = some q :=
      (h.agree (.queue name) (hreach (show Slot.queue name ∈ _ from rfl)) fun hv => by
        cases hv).trans hq
    simp only [Pc.commit, if_pos hname, Access.run, InMemoryStorage.items_of_lookup hq]
    refine h.finishQueue rfl (hreach (show Slot.queue name ∈ _ from rfl)) env' ?_ hagree ?_ hframe
      rfl hwal
    · simp only [InMemoryStorage.call, InMemoryStorage.queueBatch, if_neg (not_not.mpr hname'),
        hlog', InMemoryStorage.pushBack, InMemoryStorage.logged_queues, hq']
      rfl
    · intro k hk
      cases k <;> cases hk
  | @dequeue name id item rest hs ht =>
    exact h.commit_dequeue (env.now 0) (hreach (show Slot.task id ∈ _ from rfl))
      (hholds (show Slot.queue name ∈ _ from rfl))
  | ack => exact .rest rfl ⟨h.wal, h.queues, h.agree, .done⟩ fun r env ha => ha
  | @nack id task hs ht =>
    exact h.commit_nack hreach (hholds (Or.inr (List.mem_singleton_self id)))
  | @extendVisibility id duration task hs ht =>
    have hs' : s.inFlight.lookup id = some task := hs
    simp only [Pc.commit, hs']
    exact h.commit_extendVisibility (env.now 0) (hholds (Or.inl rfl)) ht
  | _ => cases hafter

/-! ### The loops -/

/-- The tasks of an `ack_batch` are looked for one by one. It takes effect when one is missing, or
when all are there and there is no log to write to. -/
theorem verify {ids todo missing : List String} (h : Local T s t c (.verify ids todo missing))
    (hreach : (Pc.verify ids todo missing : Pc α).reaches ⊆ T)
    (hholds : (Pc.verify ids todo missing : Pc α).holds ⊆ T) :
    Follows T (((Pc.verify ids todo missing).step s env).1.run s env) t c
      (.verify ids todo missing) ((Pc.verify ids todo missing).step s env).2 := by
  obtain ⟨hwal, hqueues, hagree, hstands⟩ := h
  cases hstands with
  | @verify seen todo =>
  cases todo with
  | cons id todo =>
    have hids : seen ++ id :: todo = (seen ++ [id]) ++ todo := by simp
    have hmissing : (if id ∈ s.inFlight then seen.filter fun id => (s.slot (.task id)).isNone
        else (seen.filter fun id => (s.slot (.task id)).isNone) ++ [id])
        = (seen ++ [id]).filter fun id => (s.slot (.task id)).isNone := by
      rw [List.filter_append, List.filter_singleton, InMemoryStorage.isNone_slot]
      by_cases hid : id ∈ s.inFlight <;> simp [hid]
    simp only [Pc.step, hmissing, Access.run_look, hids]
    exact .wait ⟨hwal, hqueues, hagree, .verify (seen ++ [id]) todo⟩ rfl rfl
  | nil =>
    rw [List.append_nil] at hreach hholds hagree ⊢
    have hT : ∀ id ∈ seen, Slot.task id ∈ T := fun id hid =>
      hholds (Or.inr (by simpa [Pc.keeps] using hid))
    have hslot : ∀ id ∈ seen, t.slot (.task id) = s.slot (.task id) := fun id hid =>
      hagree _ (hT id hid) fun hv => by cases hv
    have hmissing : seen.filter (· ∉ t.inFlight)
        = seen.filter fun id => (s.slot (.task id)).isNone := by
      refine List.filter_congr fun id hid => ?_
      rw [← hslot id hid, InMemoryStorage.isNone_slot]
    simp only [Pc.step]
    by_cases hnone : (seen.filter fun id => (s.slot (.task id)).isNone) = []
    · have hall : ∀ id ∈ seen, (s.slot (.task id)).isSome := by
        intro id hid
        have hsome := List.filter_eq_nil_iff.mp hnone id hid
        rw [InMemoryStorage.isNone_slot, decide_eq_true_eq, not_not] at hsome
        exact InMemoryStorage.mem_inFlight_iff.mp hsome
      rw [hnone]
      simp only [List.isEmpty_nil, if_true, Access.run_look]
      have hwork : (Work.ackBatch seen).Local T s t (.ackBatch seen) :=
        ⟨hwal, hqueues, hagree, .ackBatch hall⟩
      unfold Pc.toLog
      split
      · next hlog => exact .wait (hwork.waitWal hlog) rfl rfl
      · exact hwork.takeBatch hT rfl
    · have hne : ¬ (seen.filter fun id => (s.slot (.task id)).isNone).isEmpty = true := by
        rwa [List.isEmpty_iff]
      rw [if_neg hne]
      simp only [Access.run_look]
      let env' := Env.quiet []
      have hcall : t.call (fun _ => env') (.ackBatch seen)
          = (.err (tasksNotFound (seen.filter fun id => (s.slot (.task id)).isNone)), t) := by
        simp only [InMemoryStorage.call, InMemoryStorage.ackBatch, hmissing, ne_eq, if_pos hnone]
        rfl
      exact .of_call env' hcall rfl rfl ⟨hwal, hqueues, hagree, .done⟩ (.refl t) fun hr => hr

/-- One more reading of the clock for one more task. -/
theorem handOut_concat (env : Env) (name : String) (made : List (String × QueueItem α))
    (p : String × QueueItem α) (now : Int) :
    ∃ env' : Env, handOut env' name 1 (made ++ [p])
      = handOut env name 1 made ++ [InFlightTask.deliver p.1 name now p.2] := by
  let env' : Env := { env with now := fun k => if k ≤ made.length then env.now k else now }
  refine ⟨env', ?_⟩
  have hold : handOut env' name 1 made = handOut env name 1 made := by
    refine List.mapIdx_eq_mapIdx_iff.mpr fun i hi => ?_
    have hle : i + 1 ≤ made.length := hi
    simp only [env', if_pos hle]
  have hnew : env'.now (0 + made.length + 1) = now := by
    have hlt : ¬ 0 + made.length + 1 ≤ made.length := by omega
    simp only [env', if_neg hlt]
  rw [handOut, List.mapIdx_append, List.mapIdx_singleton, hnew]
  exact congrArg (· ++ _) hold

/-- `dequeue_batch` inserts its tasks one by one, and takes effect behind the last one. -/
theorem insertTasks {name : String} {todo : List (String × QueueItem α)}
    {tasks : List (InFlightTask α)} (h : Local T s t c (.insertTasks name todo tasks))
    (hreach : (Pc.insertTasks name todo tasks).reaches ⊆ T)
    (hholds : (Pc.insertTasks name todo tasks).holds ⊆ T) :
    Follows T (((Pc.insertTasks name todo tasks).step s env).1.run s env) t c
      (.insertTasks name todo tasks) ((Pc.insertTasks name todo tasks).step s env).2 := by
  obtain ⟨hwal, hqueues, hagree, hstands⟩ := h
  cases hstands with
  | @insertTasks name count made todo rest env₀ hs ht hbatch hin =>
  cases todo with
  | cons p todo =>
    obtain ⟨id, item⟩ := p
    let task := InFlightTask.deliver id name (env.now 0) item
    obtain ⟨env₁, hmade⟩ := handOut_concat env₀ name made (id, item) (env.now 0)
    have hsplit : made ++ (id, item) :: todo = (made ++ [(id, item)]) ++ todo := by simp
    have hframe : Framed InMemoryStorage.slot {Slot.task id} s (s.insertTask id task) :=
      s.framed_slot_insertTask (Set.mem_singleton _) task
    simp only [Pc.step, Access.run, ← hmade]
    refine .wait ⟨hwal, hqueues, ?_,
      .insertTasks count (made ++ [(id, item)]) todo rest env₁ ?_ ?_ ?_ ?_⟩
      rfl rfl
    · -- the new task is one of those where the stores may differ
      refine hagree.veil (fun k hk => ?_) (hframe.mono ?_)
      · cases k with
        | queue name' => exact hk
        | task id' =>
          show id' ∈ (handOut env₁ name 1 (made ++ [(id, item)])).map InFlightTask.id
          rw [hmade, List.map_append]
          exact List.mem_append_left _ hk
      · rintro k rfl
        show id ∈ (handOut env₁ name 1 (made ++ [(id, item)])).map InFlightTask.id
        rw [hmade, List.map_append]
        exact List.mem_append_right _ (List.mem_singleton_self id)
    · exact hs
    · rw [← hsplit]
      exact ht
    · rw [← hsplit]
      exact hbatch
    · intro id' hid'
      rw [hmade, List.foldl_concat]
      by_cases heq : id' = id
      · subst heq
        simp only [InMemoryStorage.slot_task, InMemoryStorage.insertTask, InMemoryStorage.putTask,
          InFlightTask.deliver, Finmap.lookup_insert]
      · rw [hmade, List.map_append, List.mem_append] at hid'
        have hold := hid'.resolve_right fun h => heq (List.mem_singleton.mp h)
        have hput : ∀ r : InMemoryStorage α,
            (r.insertTask id task).slot (.task id') = r.slot (.task id') :=
          fun r => r.framed_slot_insertTask (Set.mem_singleton _) task _ fun h =>
            heq (Slot.task.inj h)
        exact (hput s).trans ((hin id' hold).trans (hput _).symm)
  | nil =>
    rw [List.append_nil] at ht hbatch
    have ht' : t.queues.lookup name = some (made.map Prod.snd ++ rest) := ht
    -- the draws and the readings of the clock the tasks were made of
    let env' : Env := { env₀ with uuid := fun k => (made.map Prod.fst).getD k "", append := .ok () }
    have huuid : (List.range (made.map Prod.snd).length).map env'.uuid = made.map Prod.fst := by
      refine List.ext_getElem (by simp) fun k hk hk' => ?_
      simp only [List.getElem_map, List.getElem_range, env', List.getD_eq_getElem?_getD,
        List.getElem?_eq_getElem hk', Option.getD_some]
    have htasks : InMemoryStorage.batchTasks env' name count (made.map Prod.snd ++ rest)
        = handOut env₀ name 1 made := by
      have hzip : (made.map Prod.fst).zip (made.map Prod.snd) = made :=
        (List.zip_of_prod rfl rfl).symm
      rw [InMemoryStorage.batchTasks, hbatch.take, huuid, InMemoryStorage.deliverAll, hzip]
      rfl
    have hfits : ¬ t.Overflows name count := fun h =>
      Bool.false_ne_true (hbatch.fits.symm.trans h.2)
    obtain ⟨wal, hdeq⟩ := InMemoryStorage.dequeueBatch_eq ht' hfits
      (show t.wal = none ∨ env'.append = .ok () from Or.inr rfl)
    rw [htasks, hbatch.drop] at hdeq
    let tasks := handOut env₀ name 1 made
    let t₁ := tasks.foldl InMemoryStorage.putTask (t.setQueue name rest)
    have hcall : t.call (fun _ => env') (.dequeueBatch name count)
        = (.ok (.deliveredBatch tasks), { t₁ with wal := wal }) := by
      simp only [InMemoryStorage.call, hdeq]
      rfl
    have hwal' : ({ t₁ with wal := wal } : InMemoryStorage α).wal.isSome = t.wal.isSome := by
      have hsome := isSome_wal_call env' t (c := .dequeueBatch name count) (by simp)
      rwa [hcall] at hsome
    have hqueue : ∀ name', t₁.queues.lookup name' = (t.setQueue name rest).queues.lookup name' :=
      fun name' => by rw [InMemoryStorage.foldl_putTask_queues]
    have hother : ∀ id, id ∉ tasks.map InFlightTask.id →
        t₁.inFlight.lookup id = t.inFlight.lookup id :=
      fun id hid => InMemoryStorage.lookup_foldl_putTask_of_notMem hid
    have hmem : name ∈ t.queues := Finmap.mem_of_lookup_eq_some ht'
    refine .of_call env' hcall rfl rfl ⟨hwal'.trans hwal, fun name' => ?_, fun k hk _ => ?_, .done⟩
      (fun k hk => ?_) fun hr => hr
    · show name' ∈ t₁.queues ↔ _
      rw [InMemoryStorage.foldl_putTask_queues, mem_setQueue hmem]
      exact hqueues name'
    · cases k with
      | queue name' =>
        refine (hqueue name').trans ?_
        by_cases hname : name' = name
        · subst hname
          exact (Finmap.lookup_insert _).trans hs.symm
        · exact (Finmap.lookup_insert_of_ne _ hname).trans (hagree (.queue name') hk fun hv =>
            hname (Option.some_inj.mp hv).symm)
      | task id =>
        by_cases hid : id ∈ tasks.map InFlightTask.id
        · exact (InMemoryStorage.lookup_foldl_putTask_congr hid _ t).trans (hin id hid).symm
        · exact (hother id hid).trans (hagree (.task id) hk hid)
    · cases k with
      | queue name' =>
        refine (hqueue name').trans (Finmap.lookup_insert_of_ne _ ?_)
        rintro rfl
        exact hk (hholds (show Slot.queue name' ∈ _ from rfl))
      | task id => exact hother id fun hid => hk (hholds (Or.inr hid))

/-- `ack_batch` removes its tasks one by one, after it has taken effect. -/
theorem removeTasks {todo : List String} (h : Local T s t c (.removeTasks todo)) :
    Follows T (((Pc.removeTasks todo).step s env).1.run s env) t c (.removeTasks todo)
      ((Pc.removeTasks todo).step s env).2 := by
  obtain ⟨hwal, hqueues, hagree, hstands⟩ := h
  cases hstands with
  | removeTasks hgone =>
  cases todo with
  | nil =>
    exact .rest rfl ⟨hwal, hqueues, hagree, .done⟩ fun r env ha => ha
  | cons id todo =>
    -- the sequential store has removed it already
    have hdrop := hagree.both (.task id)
      (s.framed_slot_dropTask (Set.mem_singleton (Slot.task id))) (.refl t)
      ((hgone id List.mem_cons_self).trans (Finmap.lookup_erase id s.inFlight).symm)
    refine .rest rfl ⟨hwal, hqueues, hdrop.mono ?_, ?_⟩ fun r env ha => ha
    · rintro k ⟨hk, hne⟩
      cases k with
      | queue name => exact hk
      | task id' =>
        refine (List.mem_cons.mp (show id' ∈ id :: todo from hk)).resolve_left fun hid => ?_
        exact hne (congrArg Slot.task hid)
    · exact .removeTasks fun id' hid => hgone id' (List.mem_cons_of_mem _ hid)

/-- **A step of the call in its own store is followed by the sequential store.** -/
theorem step (h : Local T s t c pc) (hreach : pc.reaches ⊆ T) (hholds : pc.holds ⊆ T)
    (hrun : pc.finished = false) (env : Env) :
    Follows T ((pc.step s env).1.run s env) t c pc (pc.step s env).2 := by
  cases pc with
  | start c' =>
    obtain rfl : c = c' := by
      cases h.stands
      rfl
    exact h.start hreach
  | verify ids todo missing => exact h.verify hreach hholds
  | waitWal w => exact h.acquire
  | appendWal w =>
    simp only [Pc.step]
    split
    · exact h.append hholds
    · exact h.appendFails hholds
  | restore w e => exact h.restore
  | apply w => exact h.commit hreach hholds
  | insertTasks name todo tasks => exact h.insertTasks hreach hholds
  | removeTasks todo => exact h.removeTasks
  | scanned ids => cases h.stands
  | done r => cases hrun

end Local

end Steps

end Oxideq
