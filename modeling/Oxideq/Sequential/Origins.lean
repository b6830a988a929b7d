import Oxideq.Sequential.Location

/-!
# Where messages come from

Whatever is in the tables was brought by a call that returned `Ok`: no message appears by itself,
none is there twice, and the queue it is in, or was delivered from, is the queue it was brought to
or one of the dead-letter queues behind it. Unlike `Location`, which says in which of them a message
is, this needs neither that payloads differ nor that appends succeed, and it survives restarts all
the same. A restart reads the log, and what brings messages there are the entries of the calls that
returned `Ok` (`call_writes`).

`Accounted` is the statement for a store, kept by every elementary change (`Accounted.change`);
`Journal.Accounted` adds the log, and is kept by calls and restarts (`Journal.Accounted.step`).
-/

namespace Oxideq

variable {α : Type}

/-- The payload was brought to this queue, or to one whose dead letters come here. -/
def Brought (brought : List (α × String)) (m : α) (name : String) : Prop :=
  ∃ origin copies, (m, origin) ∈ brought ∧ name = deadLetter origin copies

/-- The messages of a store are some of those brought, each of them where it was brought to or in a
dead-letter queue behind it. -/
structure Accounted (brought : List (α × String)) (s : InMemoryStorage α) : Prop where
  once : s.messages ≤ (brought.map Prod.fst : List α)
  pending : ∀ {name : String} {item : QueueItem α}, item ∈ s.items name →
    Brought brought item.data name
  inFlight : ∀ {id : String} {task : InFlightTask α}, s.inFlight.lookup id = some task →
    Brought brought task.data task.queueName

section Changes

variable {brought brought' : List (α × String)} {s s' : InMemoryStorage α} {u : Tally α}

theorem Brought.mono {m : α} {name : String} (h : Brought brought m name)
    (hsub : (brought : Multiset (α × String)) ≤ brought') : Brought brought' m name := by
  obtain ⟨origin, copies, hmem, hname⟩ := h
  exact ⟨origin, copies, Multiset.mem_coe.mp (Multiset.mem_of_le hsub (Multiset.mem_coe.mpr hmem)),
    hname⟩

/-- One dead-letter queue further. -/
theorem Brought.dlqName {m : α} {name : String} (h : Brought brought m name) :
    Brought brought m (dlqName name) := by
  obtain ⟨origin, copies, hmem, rfl⟩ := h
  exact ⟨origin, copies + 1, hmem, rfl⟩

theorem Accounted.mono (h : Accounted brought s)
    (hsub : (brought : Multiset (α × String)) ≤ brought') : Accounted brought' s where
  once := by
    refine h.once.trans ?_
    have hmap := Multiset.map_le_map (f := Prod.fst) hsub
    rwa [Multiset.map_coe, Multiset.map_coe] at hmap
  pending hitem := (h.pending hitem).mono hsub
  inFlight hl := (h.inFlight hl).mono hsub

theorem Accounted.append (h : Accounted brought s) (more : List (α × String)) :
    Accounted (brought ++ more) s :=
  h.mono (Multiset.coe_le.mpr (List.sublist_append_left _ _).subperm)

theorem Accounted.sameState (h : Accounted brought s) (hs : SameState s s') :
    Accounted brought s' := by
  refine ⟨hs.messages ▸ h.once, fun hitem => ?_, fun hl => ?_⟩
  · rw [← hs.items] at hitem
    exact h.pending hitem
  · -- the task is the same up to its clock reading
    obtain ⟨task', hl', ht⟩ := hs.symm.lookup_some hl
    have hbrought := h.inFlight hl'
    simp only [InFlightTask.untimed, InFlightTask.mk.injEq] at ht
    obtain ⟨-, hdata, -, hname, -⟩ := ht
    rwa [hdata, hname] at hbrought

theorem accounted_new (brought : List (α × String)) :
    Accounted brought (.new : InMemoryStorage α) :=
  ⟨Multiset.zero_le _, fun hitem => (nomatch hitem), fun hl => (nomatch hl)⟩

theorem Accounted.push (h : Accounted brought s) {name : String} {old : List (QueueItem α)}
    (items : List α) (hl : s.queues.lookup name = some old) :
    Accounted (brought ++ items.map fun d => (d, name))
      (s.setQueue name (old ++ items.map fun d => ⟨d, 0⟩)) := by
  refine ⟨?_, fun {q item} hitem => ?_, fun hf => ((h.append _).inFlight hf)⟩
  · have hpush : s.pushBack name items = .ok (s.setQueue name (old ++ items.map fun d => ⟨d, 0⟩)) :=
      by rw [InMemoryStorage.pushBack, hl]
    have hle := s.messages_pushBack_le name items
    rw [hpush] at hle
    refine hle.trans ?_
    rw [List.map_append, List.map_map, ← Multiset.coe_add, Function.comp_def, List.map_id']
    exact add_le_add_left h.once _
  · rcases InMemoryStorage.mem_items_setQueue hitem with hold | ⟨hmem, rfl⟩
    · exact (h.append _).pending hold
    rcases List.mem_append.mp hmem with hmem | hmem
    · rw [← InMemoryStorage.items_of_lookup hl] at hmem
      exact (h.append _).pending hmem
    · obtain ⟨d, hd, rfl⟩ := List.mem_map.mp hmem
      exact ⟨q, 0, List.mem_append_right _ (List.mem_map_of_mem hd), rfl⟩

theorem Accounted.hand (h : Accounted brought s) {name : String} {item : QueueItem α}
    {rest : List (QueueItem α)} (id : String) (now : Int)
    (hl : s.queues.lookup name = some (item :: rest)) :
    Accounted brought ((s.setQueue name rest).putTask (.deliver id name now item)) := by
  have hitems : s.items name = item :: rest := InMemoryStorage.items_of_lookup hl
  refine ⟨?_, fun {q waiting} hitem => ?_, fun {id' task} hf => ?_⟩
  · refine ((s.setQueue name rest).messages_insertTask_le id (.deliver id name now item)).trans ?_
    have hpop := InMemoryStorage.messages_popFront hl
    change {item.data} + _ ≤ _
    rw [hpop]
    exact h.once
  · change waiting ∈ (s.setQueue name rest).items q at hitem
    rcases InMemoryStorage.mem_items_setQueue hitem with hold | ⟨hmem, rfl⟩
    · exact h.pending hold
    · exact h.pending (hitems ▸ List.mem_cons_of_mem _ hmem)
  · change (s.inFlight.insert id (.deliver id name now item)).lookup id' = some task at hf
    by_cases hid : id' = id
    · rw [hid, Finmap.lookup_insert] at hf
      rw [← Option.some.inj hf]
      exact h.pending (hitems ▸ List.mem_cons_self)
    · rw [Finmap.lookup_insert_of_ne _ hid] at hf
      exact h.inFlight hf

theorem Accounted.requeue (h : Accounted brought s) {id : String} {task : InFlightTask α}
    (hl : s.inFlight.lookup id = some task) (hr : (s.dropTask id).requeue task = .ok s') :
    Accounted brought s' := by
  refine ⟨?_, fun hitem => ?_, fun hf => ?_⟩
  · have hle := (s.dropTask id).messages_requeue_le task
    rw [hr, s.messages_dropTask_add hl] at hle
    exact hle.trans h.once
  · rcases InMemoryStorage.mem_items_requeue hr hitem with hold | ⟨rfl, rfl⟩
    · exact h.pending hold
    · -- it goes back to its queue, or one dead-letter queue further
      have hbrought := h.inFlight hl
      rw [InFlightTask.returnQueue]
      split
      · exact hbrought.dlqName
      · exact hbrought
  · rw [InMemoryStorage.requeue_inFlight hr] at hf
    exact h.inFlight (InMemoryStorage.lookup_of_dropTask hf)

/-- **Elementary changes bring what their tally says**, and nothing else. -/
theorem Accounted.change (h : Accounted brought s) (hc : Change s s' u) :
    Accounted (brought ++ u.enqueued) s' := by
  cases hc with
  | @create name hn =>
    have hcreated : Accounted brought (s.setQueue name []) := by
      refine ⟨?_, fun hitem => ?_, h.inFlight⟩
      · rw [InMemoryStorage.messages, s.pendingData_insertQueue hn]
        exact h.once
      · rcases InMemoryStorage.mem_items_setQueue hitem with hitem | ⟨hnil, -⟩
        · exact h.pending hitem
        · exact absurd hnil List.not_mem_nil
    exact hcreated.append _
  | push items hl => exact h.push items hl
  | hand id now hl => exact (h.hand id now hl).append _
  | drop id =>
    have hdropped : Accounted brought (s.dropTask id) :=
      ⟨(s.messages_dropTask_le id).trans h.once, h.pending,
        fun hl => h.inFlight (InMemoryStorage.lookup_of_dropTask hl)⟩
    exact hdropped.append _
  | requeue hl hr => exact (h.requeue hl hr).append _
  | forget => exact accounted_new _

theorem Accounted.changes (h : Accounted brought s) (hc : Changes s s' u) :
    Accounted (brought ++ u.enqueued) s' := by
  induction hc generalizing brought with
  | same hs => exact (h.sameState hs).append _
  | step hs hc _ ih =>
    have hnext := ih ((h.sameState hs).change hc)
    rwa [List.append_assoc] at hnext

end Changes

/-! ### The log -/

/-- The payloads an entry brings, each with the queue it is for. -/
def WalOp.brought : WalOp α → List (α × String)
  | .enqueue queue data => [(data, queue)]
  | .enqueueBatch queue data => data.map fun d => (d, queue)
  | _ => []

/-- What a list of entries brings. -/
def broughtBy (entries : List (WalEntry α)) : List (α × String) :=
  entries.flatMap fun entry => entry.op.brought

theorem broughtBy_append (es es' : List (WalEntry α)) :
    broughtBy (es ++ es') = broughtBy es ++ broughtBy es' := List.flatMap_append

namespace InMemoryStorage

/-- Replayed deliveries hand items out. -/
theorem replayDeliveries_changes (s : InMemoryStorage α) (now : ℕ → Int) (name : String)
    (ids : List String) : ∃ u : Tally α, Changes s (s.replayDeliveries now name ids) u ∧
      u.enqueued = [] := by
  unfold replayDeliveries
  cases hl : s.queues.lookup name with
  | none => exact ⟨_, .refl s, rfl⟩
  | some items =>
    -- only as many as there are
    let n := min ids.length items.length
    have hdeliver : deliverAll name now ids items
        = deliverAll name now (ids.take n) (items.take n) := by
      have hzip : (ids.take n).zip (items.take n) = (ids.zip items).take n :=
        List.take_zipWith.symm
      rw [deliverAll, deliverAll, hzip]
      congr 1
      refine (List.take_of_length_le ?_).symm
      rw [List.length_zip]
    have hdrop : items.drop ids.length = items.drop n := by
      rcases le_total ids.length items.length with hle | hle
      · rw [show n = ids.length from min_eq_left hle]
      · rw [show n = items.length from min_eq_right hle, List.drop_length,
          List.drop_eq_nil_of_le hle]
    have hlen : (ids.take n).length = (items.take n).length := by
      rw [List.length_take, List.length_take]
      omega
    have hsplit : s.queues.lookup name = some (items.take n ++ items.drop n) := by
      rw [List.take_append_drop, hl]
    have hacts := (s.deliverAll_acts name now hlen hsplit).changes
    simp only
    rw [hdeliver, hdrop]
    refine ⟨_, hacts, ?_⟩
    -- a hand-out brings nothing
    induction items.take n with
    | nil => rfl
    | cons item rest ih => exact ih

/-- An entry that is replayed brings its payloads or nothing. -/
theorem replayEntry_changes (s : InMemoryStorage α) (env : Env) (entry : WalEntry α) :
    ∃ u : Tally α, Changes s (s.replayEntry env entry) u ∧
      u.enqueued.Sublist entry.op.brought := by
  have hcall : ∀ c : Call α, Changes s (s.call (fun _ => env) c).2
      (c.tally (s.call (fun _ => env) c).1) := fun c => call_changes _ s c
  have hnone : ∀ c : Call α, (∀ r, (c.tally r).enqueued = []) → ∃ u : Tally α,
      Changes s (s.call (fun _ => env) c).2 u ∧ u.enqueued.Sublist entry.op.brought :=
    fun c hc => ⟨_, hcall c, hc _ ▸ List.nil_sublist _⟩
  obtain ⟨op, timestamp⟩ := entry
  cases op with
  | createQueue name => exact hnone (.createQueue name) fun _ => rfl
  | enqueue queue data =>
    refine ⟨_, hcall (.queue queue data), ?_⟩
    cases (s.call (fun _ => env) (.queue queue data)).1 with
    | ok reply => exact List.Sublist.refl _
    | _ => exact List.nil_sublist _
  | enqueueBatch queue data =>
    refine ⟨_, hcall (.queueBatch queue data), ?_⟩
    cases (s.call (fun _ => env) (.queueBatch queue data)).1 with
    | ok reply => exact List.Sublist.refl _
    | _ => exact List.nil_sublist _
  | dequeued queue taskId =>
    obtain ⟨u, hu, hnil⟩ := s.replayDeliveries_changes env.now queue [taskId]
    exact ⟨u, hu, hnil ▸ List.nil_sublist _⟩
  | dequeuedBatch queue taskIds =>
    obtain ⟨u, hu, hnil⟩ := s.replayDeliveries_changes env.now queue taskIds
    exact ⟨u, hu, hnil ▸ List.nil_sublist _⟩
  | ack taskId => exact hnone (.ack taskId) fun _ => rfl
  | ackBatch taskIds => exact hnone (.ackBatch taskIds) fun _ => rfl
  | nack taskId => exact hnone (.nack taskId) fun _ => rfl
  | extendVisibility taskId duration => exact hnone (.extendVisibility taskId 0) fun _ => rfl

theorem accounted_replayEntries {brought : List (α × String)} {s : InMemoryStorage α}
    (h : Accounted brought s) (envs : ℕ → Env) (entries : List (WalEntry α)) :
    Accounted (brought ++ broughtBy entries) (s.replayEntries envs entries) := by
  induction entries generalizing s brought envs with
  | nil => exact h.append _
  | cons entry entries ih =>
    obtain ⟨u, hu, hsub⟩ := s.replayEntry_changes (envs 0) entry
    have hentry : Accounted (brought ++ entry.op.brought) (s.replayEntry (envs 0) entry) :=
      (h.changes hu).mono (Multiset.coe_le.mpr (hsub.append_left brought).subperm)
    have hrest := ih hentry (fun k => envs (k + 1))
    rwa [List.append_assoc] at hrest

/-- **What is rebuilt was brought by the log.** -/
theorem accounted_recover (envs : ℕ → Env) (entries : List (WalEntry α)) :
    Accounted (broughtBy entries) (recover envs entries) := by
  have h := accounted_replayEntries (accounted_new []) envs entries
  exact h.sameState (SameState.of_tables rfl rfl)

end InMemoryStorage

/-! ### What a call writes -/

/-- What a call brings if it returns `Ok`. -/
def Call.brings : Call α → List (α × String)
  | .queue name item => [(item, name)]
  | .queueBatch name items => items.map fun d => (d, name)
  | _ => []

theorem Call.enqueued_tally_ok (c : Call α) (reply : Reply α) :
    (c.tally (.ok reply)).enqueued = c.brings := by
  cases c with
  | dequeue name =>
    cases reply with
    | delivered task => cases task <;> rfl
    | _ => rfl
  | dequeueBatch name count => cases reply <;> rfl
  | _ => rfl

theorem Call.enqueued_tally_err (c : Call α) (e : String) :
    (c.tally (.err e)).enqueued = [] := by cases c <;> rfl

theorem Call.enqueued_tally_panic (c : Call α) : (c.tally .panic).enqueued = [] := by
  cases c <;> rfl

theorem Call.enqueued_tally_nil {c : Call α} (h : c.brings = []) (r : Outcome (Reply α)) :
    (c.tally r).enqueued = [] := by
  cases r with
  | ok reply => rw [c.enqueued_tally_ok reply, h]
  | err e => exact c.enqueued_tally_err e
  | panic => exact c.enqueued_tally_panic

/-- From `s` to `s'` entries were appended that bring this. -/
def Wrote (s s' : InMemoryStorage α) (brought : List (α × String)) : Prop :=
  ∃ es : List (WalEntry α), s'.wal = s.wal.map (·.extend es) ∧ broughtBy es = brought

namespace Wrote

variable {s s' s'' : InMemoryStorage α}

theorem nothing (h : s'.wal = s.wal) : Wrote s s' [] := by
  refine ⟨[], ?_, rfl⟩
  rw [h]
  cases s.wal <;> simp [WalManager.extend]

theorem entry (env : Env) (op : WalOp α) (h : s'.wal = (s.logged env op).wal) :
    Wrote s s' op.brought := by
  refine ⟨[⟨op, timestampMillis (env.now 0)⟩], h, ?_⟩
  rw [broughtBy, List.flatMap_singleton]

theorem trans {brought brought' : List (α × String)} (h : Wrote s s' brought)
    (h' : Wrote s' s'' brought') : Wrote s s'' (brought ++ brought') := by
  obtain ⟨es, hwal, rfl⟩ := h
  obtain ⟨es', hwal', rfl⟩ := h'
  refine ⟨es ++ es', ?_, broughtBy_append es es'⟩
  rw [hwal', hwal, Option.map_map]
  congr 1
  funext m
  simp [WalManager.extend]

end Wrote

namespace InMemoryStorage

/-- Behind the check that the queue is there, the push of an enqueue finds it. -/
theorem exists_pushBack {s : InMemoryStorage α} {name : String} (h : name ∈ s.queues) (env : Env)
    (op : WalOp α) (items : List α) : ∃ s', (s.logged env op).pushBack name items = .ok s' := by
  obtain ⟨old, hold⟩ := Option.isSome_iff_exists.mp (Finmap.lookup_isSome.mpr h)
  exact ⟨_, by rw [pushBack, logged_queues, hold]⟩

/-- An enqueue that returns `Ok` writes the entry with what it brings, another writes none. -/
theorem queue_writes (env : Env) (s : InMemoryStorage α) (name : String) (item : α) :
    (s.queue env name item).1 = .ok () ∧
        Wrote s (s.queue env name item).2 [(item, name)] ∨
      (∃ e, (s.queue env name item).1 = .err e) ∧ Wrote s (s.queue env name item).2 [] := by
  unfold queue
  split
  · exact Or.inr ⟨⟨_, rfl⟩, .nothing rfl⟩
  · next hq =>
    obtain h | ⟨e, h⟩ := s.logOp_cases env (.enqueue name item)
    · obtain ⟨s', hs'⟩ := exists_pushBack (not_not.mp hq) env (.enqueue name item) [item]
      simp only [h, hs']
      exact Or.inl ⟨trivial, .entry env (.enqueue name item) (pushBack_wal hs')⟩
    · simp only [h]
      exact Or.inr ⟨⟨_, rfl⟩, .nothing rfl⟩

theorem queueBatch_writes (env : Env) (s : InMemoryStorage α) (name : String) (items : List α) :
    (s.queueBatch env name items).1 = .ok () ∧
        Wrote s (s.queueBatch env name items).2 (items.map fun d => (d, name)) ∨
      (∃ e, (s.queueBatch env name items).1 = .err e) ∧
        Wrote s (s.queueBatch env name items).2 [] := by
  unfold queueBatch
  split
  · exact Or.inr ⟨⟨_, rfl⟩, .nothing rfl⟩
  · next hq =>
    obtain h | ⟨e, h⟩ := s.logOp_cases env (.enqueueBatch name items)
    · obtain ⟨s', hs'⟩ := exists_pushBack (not_not.mp hq) env (.enqueueBatch name items) items
      simp only [h, hs']
      exact Or.inl ⟨trivial, .entry env (.enqueueBatch name items) (pushBack_wal hs')⟩
    · simp only [h]
      exact Or.inr ⟨⟨_, rfl⟩, .nothing rfl⟩

theorem createQueue_writes (env : Env) (s : InMemoryStorage α) (name : String) :
    Wrote s (s.createQueue env name).2 [] := by
  unfold createQueue
  split
  · exact .nothing rfl
  obtain h | ⟨e, h⟩ := s.logOp_cases env (.createQueue name)
  · rw [h]
    exact .entry env (.createQueue name) rfl
  · rw [h]
    exact .nothing rfl

theorem dequeue_writes (env : Env) (s : InMemoryStorage α) (name : String) :
    Wrote s (s.dequeue env name).2 [] := by
  unfold dequeue
  split
  · exact .nothing rfl
  · exact .nothing rfl
  next item rest hl =>
  obtain h | ⟨e, h⟩ := (s.setQueue name rest).logOp_cases env (.dequeued name (env.uuid 0))
  · simp only [h]
    exact .entry env (.dequeued name (env.uuid 0)) rfl
  · simp only [h]
    exact .nothing rfl

theorem dequeueBatch_writes (env : Env) (s : InMemoryStorage α) (name : String)
    (count : UInt64) : Wrote s (s.dequeueBatch env name count).2 [] := by
  unfold dequeueBatch
  split
  · exact .nothing rfl
  next items hl =>
  split
  · exact .nothing rfl
  split
  · exact .nothing rfl
  dsimp only
  split
  · exact .nothing rfl
  generalize (List.range (items.take count.toNat).length).map env.uuid = ids
  obtain h | ⟨e, h⟩ :=
    (s.setQueue name (items.drop count.toNat)).logOp_cases env (.dequeuedBatch name ids)
  · simp only [h]
    exact .entry env (.dequeuedBatch name ids) (foldl_putTask_wal ..)
  · simp only [h]
    exact .nothing rfl

/-- Where the append of an `ack` fails, the task is gone and nothing is written. -/
theorem ack_writes (env : Env) (s : InMemoryStorage α) (id : String) :
    Wrote s (s.ack env id).2 [] := by
  unfold ack
  split
  · exact .nothing rfl
  obtain h | ⟨e, h⟩ := (s.dropTask id).logOp_cases env (.ack id)
  · simp only [h]
    exact .entry env (.ack id) rfl
  · simp only [h]
    exact .nothing rfl

theorem ackBatch_writes (env : Env) (s : InMemoryStorage α) (ids : List String) :
    Wrote s (s.ackBatch env ids).2 [] := by
  unfold ackBatch
  dsimp only
  split
  · exact .nothing rfl
  obtain h | ⟨e, h⟩ := s.logOp_cases env (.ackBatch ids)
  · simp only [h]
    exact .entry env (.ackBatch ids) (foldl_dropTask_wal ..)
  · simp only [h]
    exact .nothing rfl

theorem extendVisibility_writes (env : Env) (s : InMemoryStorage α) (id : String)
    (duration : UInt64) : Wrote s (s.extendVisibility env id duration).2 [] := by
  unfold extendVisibility
  split
  · exact .nothing rfl
  obtain h | ⟨e, h⟩ := s.logOp_cases env (.extendVisibility id duration)
  · simp only [h]
    exact .entry env (.extendVisibility id duration) rfl
  · simp only [h]
    exact .nothing rfl

theorem nack_writes (env : Env) (s : InMemoryStorage α) (id : String) :
    Wrote s (s.nack env id).2 [] := by
  unfold nack
  split
  · exact .nothing rfl
  next task hl =>
  obtain h | ⟨e, h⟩ := (s.dropTask id).logOp_cases env (.nack id)
  · simp only [h]
    split
    · exact .entry env (.nack id) rfl
    · next hr =>
      have hwal := requeue_wal hr
      exact .entry env (.nack id) hwal
  · simp only [h]
    exact .nothing rfl

theorem nackAll_writes (envs : ℕ → Env) (s : InMemoryStorage α) (ids : List String) (count : ℕ) :
    Wrote s (s.nackAll envs ids count).2 [] := by
  induction ids generalizing s envs count with
  | nil => exact .nothing rfl
  | cons id ids ih =>
    have hn := nack_writes (envs 0) s id
    unfold nackAll
    split
    · next heq =>
      rw [heq] at hn
      exact hn.trans (ih ..)
    · next heq =>
      rw [heq] at hn
      exact hn.trans (ih ..)

/-- **A call writes what it brings**: the entries bring what the reply says was enqueued, whether
or not appends fail. -/
theorem call_writes (envs : ℕ → Env) (s : InMemoryStorage α) (c : Call α) :
    Wrote s (s.call envs c).2 (c.tally (s.call envs c).1).enqueued := by
  cases c with
  | createQueue name => exact createQueue_writes ..
  | queue name item =>
    rcases queue_writes (envs 0) s name item with ⟨hok, hw⟩ | ⟨⟨e, he⟩, hw⟩
    · have hreply : (s.call envs (.queue name item)).1 = .ok .done :=
        congrArg (Outcome.map fun _ => Reply.done) hok
      rw [hreply]
      exact hw
    · have hreply : (s.call envs (.queue name item)).1 = .err e :=
        congrArg (Outcome.map fun _ => Reply.done) he
      rw [hreply]
      exact hw
  | queueBatch name items =>
    rcases queueBatch_writes (envs 0) s name items with ⟨hok, hw⟩ | ⟨⟨e, he⟩, hw⟩
    · have hreply : (s.call envs (.queueBatch name items)).1 = .ok .done :=
        congrArg (Outcome.map fun _ => Reply.done) hok
      rw [hreply]
      exact hw
    · have hreply : (s.call envs (.queueBatch name items)).1 = .err e :=
        congrArg (Outcome.map fun _ => Reply.done) he
      rw [hreply]
      exact hw
  | dequeue name =>
    rw [Call.enqueued_tally_nil rfl]
    exact dequeue_writes ..
  | dequeueBatch name count =>
    rw [Call.enqueued_tally_nil rfl]
    exact dequeueBatch_writes ..
  | ack taskId => exact ack_writes ..
  | ackBatch taskIds => exact ackBatch_writes ..
  | nack taskId => exact nack_writes ..
  | extendVisibility taskId duration => exact extendVisibility_writes ..
  | cleanupExpiredTasks timeoutSeconds =>
    change Wrote s (s.cleanupExpiredTasks envs timeoutSeconds).2 []
    unfold cleanupExpiredTasks
    split
    · exact nackAll_writes ..
    · exact .nothing rfl
    · exact .nothing rfl

end InMemoryStorage

/-! ### Runs with restarts -/

namespace Journal

/-- Both the tables and the log hold nothing but what was brought. -/
structure Accounted (brought : List (α × String)) (j : Journal α) : Prop where
  tables : Oxideq.Accounted brought j.store
  log : (broughtBy j.entries : Multiset (α × String)) ≤ brought

theorem accounted_start (envs : ℕ → Env) (entries : List (WalEntry α)) :
    Accounted (broughtBy entries) (start envs entries) := by
  refine ⟨InMemoryStorage.accounted_recover envs entries, ?_⟩
  rw [entries_start]

theorem accounted_first (persistent : Bool) (envs : ℕ → Env) :
    Accounted [] (first persistent envs : Journal α) := by
  cases persistent with
  | true => exact accounted_start envs []
  | false => exact ⟨accounted_new [], Multiset.zero_le _⟩

/-- What a call writes is behind what the file had. -/
theorem broughtBy_entries_call {j : Journal α} (envs : ℕ → Env) (c : Call α) :
    (broughtBy (j.step (.call envs c)).entries : Multiset (α × String)) ≤
      ((broughtBy j.entries ++ (c.tally (j.store.call envs c).1).enqueued :
        List (α × String)) : Multiset (α × String)) := by
  obtain ⟨es, hwal, hes⟩ := j.store.call_writes envs c
  rw [entries, entries, Journal.step, hwal]
  cases j.store.wal with
  | none =>
    rw [Option.map_none, Option.elim_none, List.append_nil]
    exact Multiset.coe_le.mpr (List.sublist_append_left _ _).subperm
  | some m =>
    rw [Option.map_some, Option.elim_some, Option.elim_some, WalManager.extend, ← List.append_assoc,
      broughtBy_append, hes]

/-- **Calls and restarts bring what their tally says.** -/
theorem Accounted.step {brought : List (α × String)} {j : Journal α} (h : Accounted brought j)
    (ev : Event α) : Accounted (brought ++ (j.tally ev).enqueued) (j.step ev) := by
  cases ev with
  | call envs c =>
    refine ⟨h.tables.changes (InMemoryStorage.call_changes envs j.store c), ?_⟩
    refine (broughtBy_entries_call envs c).trans ?_
    rw [← Multiset.coe_add, ← Multiset.coe_add]
    exact add_le_add_left h.log _
  | restart envs =>
    rw [tally, Tally.nothing, List.append_nil]
    cases hm : j.store.wal with
    | none =>
      rw [step_restart_of_none hm]
      exact ⟨accounted_new brought, Multiset.zero_le _⟩
    | some m =>
      rw [step_restart_of_isSome (by rw [hm]; rfl)]
      have hstart := accounted_start envs j.entries
      exact ⟨hstart.tables.mono h.log, hstart.log.trans h.log⟩

end Journal

end Oxideq
