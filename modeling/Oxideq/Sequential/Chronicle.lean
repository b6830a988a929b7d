import Oxideq.Sequential.Location

/-!
# Chronicles

A run of calls from an empty store, with the deeds done so far (`chronicle`). The payloads carry
the position of the call that brings them, so all messages of a run differ, and a deed says which
message it is about.

What holds of the tables and the deeds at every point of a run is proved once for each act:

* `Chronicle` — no message is in the tables twice, and whatever is in the tables, or in a deed, was
  enqueued. Two consequences are what the proofs about one act use: the message an act takes is
  nowhere else (`Chronicle.front_ne`, `Chronicle.task_ne`), and one that arrives now is in no deed
  (`Chronicle.message_ne`).
* `KeptByActs` — an invariant that is kept by acts where the chronicle is right holds at the end of
  every run (`KeptByActs.run`).
* `MessageRule` — what is said of each message by the deeds done with it is kept by acts, if it is
  handed on where the message moves (`MessageRule.keptByActs`).
-/

namespace Oxideq

variable {α : Type}

/-! ### Deeds of one message -/

namespace Deed

/-- The queue a deed is done at. -/
def queue : Deed α → String
  | .enqueue queue _ => queue
  | .hand queue _ => queue
  | .bury queue _ => queue

/-- The message it is done with. -/
def message : Deed α → α
  | .enqueue _ m => m
  | .hand _ m => m
  | .bury _ m => m

end Deed

/-! ### Chronicles -/

/-- The payloads enqueued by the deeds. -/
def enqueuedBy (ds : List (Deed α)) : List α := (Tally.ofDeeds ds).enqueued.map Prod.fst

theorem enqueuedBy_append (ds ds' : List (Deed α)) :
    enqueuedBy (ds ++ ds') = enqueuedBy ds ++ enqueuedBy ds' := by
  rw [enqueuedBy, Tally.ofDeeds_append, Tally.append, List.map_append]
  rfl

theorem enqueuedBy_enqueue (name : String) (items : List α) :
    enqueuedBy (items.map (.enqueue name)) = items := by
  rw [enqueuedBy, Tally.ofDeeds_enqueue]
  change (items.map fun d => (d, name)).map Prod.fst = items
  rw [List.map_map, Function.comp_def, List.map_id']

/-- The tables hold every message once, and nothing is told of a message that was not enqueued. -/
structure Chronicle [DecidableEq α] (ds : List (Deed α)) (s : InMemoryStorage α) : Prop where
  located : Located (.ofDeeds ds) s
  known : ∀ d ∈ ds, d.message ∈ enqueuedBy ds

namespace Chronicle

variable [DecidableEq α] {ds ds' : List (Deed α)} {s s' : InMemoryStorage α}

theorem mem_enqueuedBy (h : Chronicle ds s) {m : α} (hm : m ∈ s.messages) : m ∈ enqueuedBy ds :=
  h.located.mem_enqueued hm

/-- A payload that is enqueued now is in no deed so far. -/
theorem message_ne (h : Chronicle ds s) {name : String} {items : List α}
    (hfresh : (enqueuedBy (ds ++ items.map (.enqueue name))).Nodup) {m : α} (hm : m ∈ items)
    {d : Deed α} (hd : d ∈ ds) : d.message ≠ m := by
  rw [enqueuedBy_append, enqueuedBy_enqueue, List.nodup_append'] at hfresh
  intro heq
  exact hfresh.2.2 (heq ▸ h.known d hd) hm

/-- Nor is it in the tables. -/
theorem not_mem_messages (h : Chronicle ds s) {name : String} {items : List α}
    (hfresh : (enqueuedBy (ds ++ items.map (.enqueue name))).Nodup) {m : α} (hm : m ∈ items) :
    m ∉ s.messages := by
  rw [enqueuedBy_append, enqueuedBy_enqueue, List.nodup_append'] at hfresh
  intro hold
  exact hfresh.2.2 (h.mem_enqueuedBy hold) hm

/-- The message at the front of a queue is nowhere else. -/
theorem front_ne (h : Chronicle ds s) {name : String} {item : QueueItem α}
    {rest : List (QueueItem α)} (hl : s.queues.lookup name = some (item :: rest)) {m : α}
    (hm : m ∈ (s.setQueue name rest).messages) : m ≠ item.data := by
  have hnodup := h.located.nodup
  rw [← InMemoryStorage.messages_popFront hl, Multiset.singleton_add, Multiset.nodup_cons] at hnodup
  intro heq
  exact hnodup.1 (heq ▸ hm)

/-- The message of a task is nowhere else. -/
theorem task_ne (h : Chronicle ds s) {id : String} {task : InFlightTask α}
    (hl : s.inFlight.lookup id = some task) {m : α} (hm : m ∈ (s.dropTask id).messages) :
    m ≠ task.data := by
  have hnodup := h.located.nodup
  rw [← s.messages_dropTask_add hl, Multiset.singleton_add, Multiset.nodup_cons] at hnodup
  intro heq
  exact hnodup.1 (heq ▸ hm)

theorem nil {s : InMemoryStorage α} (h : SameState .new s) : Chronicle [] s :=
  ⟨(Located.new fun _ h => absurd h List.not_mem_nil).sameState h,
    fun _ h => absurd h List.not_mem_nil⟩

theorem sameState (h : Chronicle ds s) (hs : SameState s s') : Chronicle ds s' :=
  ⟨h.located.sameState hs, h.known⟩

/-- An act tells of messages that are there, or that it brings. -/
theorem act (h : Chronicle ds s) (ha : Act s s' ds') (hfresh : (enqueuedBy (ds ++ ds')).Nodup) :
    Chronicle (ds ++ ds') s' := by
  refine ⟨?_, fun d hd => ?_⟩
  · rw [Tally.ofDeeds_append]
    refine h.located.change ha.change ?_
    rwa [← Tally.ofDeeds_append]
  · rw [enqueuedBy_append]
    rcases List.mem_append.mp hd with hd | hd
    · exact List.mem_append_left _ (h.known d hd)
    -- an old deed is known already; a new one is about a message of the tables, or one it enqueues
    -- itself
    cases ha with
    | create hn => exact absurd hd List.not_mem_nil
    | @enqueue name old items hl =>
      obtain ⟨m, hm, rfl⟩ := List.mem_map.mp hd
      rw [enqueuedBy_enqueue]
      exact List.mem_append_right _ hm
    | hand id now hl =>
      rw [List.mem_singleton.mp hd]
      have hitems := InMemoryStorage.items_of_lookup hl
      have hmem := InMemoryStorage.mem_messages_of_items (hitems ▸ List.mem_cons_self)
      exact List.mem_append_left _ (h.mem_enqueuedBy hmem)
    | drop id => exact absurd hd List.not_mem_nil
    | bury hl hx =>
      rw [List.mem_singleton.mp hd]
      exact List.mem_append_left _ (h.mem_enqueuedBy (InMemoryStorage.mem_messages_of_lookup hl))
    | giveBack hl hx hq => exact absurd hd List.not_mem_nil

end Chronicle

/-! ### Invariants of runs -/

/-- An invariant of deeds and tables that acts keep. -/
structure KeptByActs [DecidableEq α] (I : List (Deed α) → InMemoryStorage α → Prop) : Prop where
  sameState : ∀ {ds : List (Deed α)} {s s' : InMemoryStorage α}, I ds s → SameState s s' → I ds s'
  act : ∀ {ds ds' : List (Deed α)} {s s' : InMemoryStorage α}, Chronicle ds s → I ds s →
    Act s s' ds' → (enqueuedBy (ds ++ ds')).Nodup → I (ds ++ ds') s'

/-- Acts one after the other keep it, and the chronicle. -/
theorem KeptByActs.acts [DecidableEq α] {I : List (Deed α) → InMemoryStorage α → Prop}
    (hI : KeptByActs I) {ds ds' : List (Deed α)} {s s' : InMemoryStorage α}
    (hc : Chronicle ds s) (h : I ds s) (ha : Acts s s' ds')
    (hfresh : (enqueuedBy (ds ++ ds')).Nodup) :
    Chronicle (ds ++ ds') s' ∧ I (ds ++ ds') s' := by
  induction ha generalizing ds with
  | same hs =>
    rw [List.append_nil]
    exact ⟨hc.sameState hs, hI.sameState h hs⟩
  | @step s r r' s' ds₁ ds₂ hs ha _ ih =>
    rw [← List.append_assoc] at hfresh ⊢
    have hfirst : (enqueuedBy (ds ++ ds₁)).Nodup := by
      rw [enqueuedBy_append] at hfresh
      exact (List.nodup_append'.mp hfresh).1
    -- the tables in between may differ in their clocks, which no deed looks at
    have hc' := hc.sameState hs
    exact ih (hc'.act ha hfirst) (hI.act hc' (hI.sameState h hs) ha hfirst) hfresh

/-! ### What holds of each message -/

/-- What is said of a message that waits in a queue, and of one that was taken from a queue, by the
deeds done with it. Nothing is said by deeds done with other messages. -/
structure MessageRule [DecidableEq α] (waits taken : List (Deed α) → String → α → Prop) :
    Prop where
  waits_other : ∀ {ds ds' : List (Deed α)} {q : String} {m : α}, waits ds q m →
    (∀ d ∈ ds', d.message ≠ m) → waits (ds ++ ds') q m
  taken_other : ∀ {ds ds' : List (Deed α)} {q : String} {m : α}, taken ds q m →
    (∀ d ∈ ds', d.message ≠ m) → taken (ds ++ ds') q m
  enqueue : ∀ {ds : List (Deed α)} {q : String} {m : α} {items : List α},
    (∀ d ∈ ds, d.message ≠ m) → m ∈ items → waits (ds ++ items.map (.enqueue q)) q m
  hand : ∀ {ds : List (Deed α)} {q : String} {m : α}, waits ds q m →
    taken (ds ++ [.hand q m]) q m
  bury : ∀ {ds : List (Deed α)} {task : InFlightTask α}, task.Located (.ofDeeds ds) →
    task.exhausted = true → taken ds task.queueName task.data →
      waits (ds ++ [.bury (dlqName task.queueName) task.data]) (dlqName task.queueName) task.data
  giveBack : ∀ {ds : List (Deed α)} {task : InFlightTask α}, task.Located (.ofDeeds ds) →
    task.exhausted = false → taken ds task.queueName task.data → waits ds task.queueName task.data

/-- It is said of all messages in the tables. -/
structure Everywhere (waits taken : List (Deed α) → String → α → Prop) (ds : List (Deed α))
    (s : InMemoryStorage α) : Prop where
  pending : ∀ {q : String} {item : QueueItem α}, item ∈ s.items q → waits ds q item.data
  inFlight : ∀ {id : String} {task : InFlightTask α}, s.inFlight.lookup id = some task →
    taken ds task.queueName task.data

section Everywhere

variable {waits taken : List (Deed α) → String → α → Prop} {ds : List (Deed α)}
  {s : InMemoryStorage α}

theorem Everywhere.nil : Everywhere waits taken ds .new := by
  refine ⟨fun hitem => ?_, fun hl => ?_⟩
  · cases hitem
  · cases hl

theorem Everywhere.sameState {s' : InMemoryStorage α} (h : Everywhere waits taken ds s)
    (hs : SameState s s') : Everywhere waits taken ds s' := by
  refine ⟨fun hitem => ?_, fun hl => ?_⟩
  · rw [← hs.items] at hitem
    exact h.pending hitem
  · -- the task is the same up to its clock reading
    obtain ⟨task', hl', ht⟩ := hs.symm.lookup_some hl
    simp only [InFlightTask.untimed, InFlightTask.mk.injEq] at ht
    obtain ⟨-, hdata, -, hname, -⟩ := ht
    have hold := h.inFlight hl'
    rwa [hdata, hname] at hold

variable [DecidableEq α]

theorem Everywhere.enqueue (h : Everywhere waits taken ds s) (hr : MessageRule waits taken)
    (hc : Chronicle ds s) {name : String} {old : List (QueueItem α)} (items : List α)
    (hl : s.queues.lookup name = some old)
    (hfresh : (enqueuedBy (ds ++ items.map (.enqueue name))).Nodup) :
    Everywhere waits taken (ds ++ items.map (.enqueue name))
      (s.setQueue name (old ++ items.map fun d => ⟨d, 0⟩)) := by
  -- the new deeds are about messages that are not in the tables
  have hother : ∀ {m}, m ∈ s.messages → ∀ d ∈ items.map (Deed.enqueue name), d.message ≠ m := by
    intro m hm d hd heq
    obtain ⟨m', hm', rfl⟩ := List.mem_map.mp hd
    exact hc.not_mem_messages hfresh (heq ▸ hm') hm
  refine ⟨fun {q pushed} hitem => ?_, fun {id task} hf => ?_⟩
  · rcases InMemoryStorage.mem_items_setQueue hitem with hold | ⟨hmem, rfl⟩
    · exact hr.waits_other (h.pending hold) (hother (InMemoryStorage.mem_messages_of_items hold))
    rcases List.mem_append.mp hmem with hmem | hmem
    · rw [← InMemoryStorage.items_of_lookup hl] at hmem
      exact hr.waits_other (h.pending hmem) (hother (InMemoryStorage.mem_messages_of_items hmem))
    · obtain ⟨m, hm, rfl⟩ := List.mem_map.mp hmem
      exact hr.enqueue (fun d hd => hc.message_ne hfresh hm hd) hm
  · exact hr.taken_other (h.inFlight hf) (hother (InMemoryStorage.mem_messages_of_lookup hf))

theorem Everywhere.hand (h : Everywhere waits taken ds s) (hr : MessageRule waits taken)
    (hc : Chronicle ds s) {name : String} {item : QueueItem α} {rest : List (QueueItem α)}
    (id : String) (now : Int) (hl : s.queues.lookup name = some (item :: rest)) :
    Everywhere waits taken (ds ++ [.hand name item.data])
      ((s.setQueue name rest).putTask (.deliver id name now item)) := by
  have hitems : s.items name = item :: rest := InMemoryStorage.items_of_lookup hl
  -- the deed is about no other message
  have hother : ∀ {m}, m ∈ (s.setQueue name rest).messages →
      ∀ d ∈ [Deed.hand name item.data], d.message ≠ m := by
    intro m hm d hd heq
    rw [List.mem_singleton.mp hd] at heq
    exact hc.front_ne hl hm heq.symm
  refine ⟨fun {q other} hitem => ?_, fun {id' task} hf => ?_⟩
  · change other ∈ (s.setQueue name rest).items q at hitem
    refine hr.waits_other ?_ (hother (InMemoryStorage.mem_messages_of_items hitem))
    rcases InMemoryStorage.mem_items_setQueue hitem with hold | ⟨hmem, rfl⟩
    · exact h.pending hold
    · exact h.pending (hitems ▸ List.mem_cons_of_mem _ hmem)
  · change (s.inFlight.insert id (.deliver id name now item)).lookup id' = some task at hf
    by_cases hid : id' = id
    · rw [hid, Finmap.lookup_insert] at hf
      rw [← Option.some.inj hf]
      exact hr.hand (h.pending (hitems ▸ List.mem_cons_self))
    · rw [Finmap.lookup_insert_of_ne _ hid] at hf
      have hmem : task.data ∈ (s.setQueue name rest).messages :=
        InMemoryStorage.mem_messages_of_lookup hf
      exact hr.taken_other (h.inFlight hf) (hother hmem)

omit [DecidableEq α] in
theorem Everywhere.drop (h : Everywhere waits taken ds s) (id : String) :
    Everywhere waits taken ds (s.dropTask id) :=
  ⟨h.pending, fun hl => h.inFlight (InMemoryStorage.lookup_of_dropTask hl)⟩

theorem Everywhere.bury (h : Everywhere waits taken ds s) (hr : MessageRule waits taken)
    (hc : Chronicle ds s) {id : String} {task : InFlightTask α}
    (hl : s.inFlight.lookup id = some task) (hx : task.exhausted = true) :
    Everywhere waits taken (ds ++ [.bury (dlqName task.queueName) task.data])
      ((s.dropTask id).setQueue (dlqName task.queueName)
        (s.items (dlqName task.queueName) ++ [task.item])) := by
  have hother : ∀ {m}, m ∈ (s.dropTask id).messages →
      ∀ d ∈ [Deed.bury (dlqName task.queueName) task.data], d.message ≠ m := by
    intro m hm d hd heq
    rw [List.mem_singleton.mp hd] at heq
    exact hc.task_ne hl hm heq.symm
  -- what is in a queue is in the tables without the task
  have hpending : ∀ {q other}, other ∈ s.items q →
      waits (ds ++ [.bury (dlqName task.queueName) task.data]) q other.data := by
    intro q other hitem
    have hold : other ∈ (s.dropTask id).items q := hitem
    have hmem := InMemoryStorage.mem_messages_of_items hold
    exact hr.waits_other (h.pending hitem) (hother hmem)
  refine ⟨fun {q other} hitem => ?_, fun {id' task'} hf => ?_⟩
  · rcases InMemoryStorage.mem_items_setQueue hitem with hold | ⟨hmem, rfl⟩
    · exact hpending hold
    rcases List.mem_append.mp hmem with hmem | hmem
    · exact hpending hmem
    · rw [List.mem_singleton.mp hmem]
      exact hr.bury (hc.located.inFlight hl) hx (h.inFlight hl)
  · change (s.dropTask id).inFlight.lookup id' = some task' at hf
    have hold := h.inFlight (InMemoryStorage.lookup_of_dropTask hf)
    exact hr.taken_other hold (hother (InMemoryStorage.mem_messages_of_lookup hf))

theorem Everywhere.giveBack (h : Everywhere waits taken ds s) (hr : MessageRule waits taken)
    (hc : Chronicle ds s) {id : String} {task : InFlightTask α} {old : List (QueueItem α)}
    (hl : s.inFlight.lookup id = some task) (hx : task.exhausted = false)
    (hq : s.queues.lookup task.queueName = some old) :
    Everywhere waits taken ds
      ((s.dropTask id).setQueue task.queueName (task.item :: old)) := by
  have hitems := InMemoryStorage.items_of_lookup hq
  refine ⟨fun {q other} hitem => ?_, fun hf => ?_⟩
  · rcases InMemoryStorage.mem_items_setQueue hitem with hold | ⟨hmem, rfl⟩
    · exact h.pending hold
    rcases List.mem_cons.mp hmem with rfl | hmem
    · exact hr.giveBack (hc.located.inFlight hl) hx (h.inFlight hl)
    · exact h.pending (hitems ▸ hmem)
  · exact h.inFlight (InMemoryStorage.lookup_of_dropTask hf)

/-- **Acts keep what is said of each message.** -/
theorem MessageRule.keptByActs (hr : MessageRule waits taken) :
    KeptByActs (Everywhere waits taken) := by
  refine ⟨fun h hs => h.sameState hs, ?_⟩
  intro ds ds' s s' hc h ha hfresh
  cases ha with
  | create hn =>
    rw [List.append_nil]
    refine ⟨fun hitem => ?_, h.inFlight⟩
    rcases InMemoryStorage.mem_items_setQueue hitem with hitem | ⟨hnil, -⟩
    · exact h.pending hitem
    · exact absurd hnil List.not_mem_nil
  | enqueue items hl => exact h.enqueue hr hc items hl hfresh
  | hand id now hl => exact h.hand hr hc id now hl
  | drop id =>
    rw [List.append_nil]
    exact h.drop id
  | bury hl hx => exact h.bury hr hc hl hx
  | giveBack hl hx hq =>
    rw [List.append_nil]
    exact h.giveBack hr hc hl hx hq

end Everywhere

/-! ### Runs -/

namespace InMemoryStorage

/-- A call made on a store, and its deeds. -/
def chronicled (s : InMemoryStorage α × List (Deed α)) (ev : (ℕ → Env) × Call α) :
    InMemoryStorage α × List (Deed α) :=
  ((s.1.call ev.1 ev.2).2, s.2 ++ ev.2.deeds s.1 ev.1 (s.1.call ev.1 ev.2).1)

/-- The calls with their payloads tagged by the position of the call, and their own in it. -/
def tagRun : ℕ → List ((ℕ → Env) × Call α) → List ((ℕ → Env) × Call ((ℕ × ℕ) × α))
  | _, [] => []
  | k, ev :: events => (ev.1, ev.2.relabel fun j x => ((k, j), x)) :: tagRun (k + 1) events

/-- A run of calls from an empty store, with or without a log, and the deeds of the run. -/
def chronicle (persistent : Bool) (envs : ℕ → Env) (events : List ((ℕ → Env) × Call α)) :
    InMemoryStorage ((ℕ × ℕ) × α) × List (Deed ((ℕ × ℕ) × α)) :=
  (tagRun 0 events).foldl chronicled ((Journal.first persistent envs).store, [])

/-- What the run of a journal tells its clients is the tally of the deeds. -/
theorem tally_foldl_chronicled (j : Journal ((ℕ × ℕ) × α)) (ds : List (Deed ((ℕ × ℕ) × α)))
    (k : ℕ) (events : List ((ℕ → Env) × Call α)) :
    Tally.ofDeeds ((tagRun k events).foldl chronicled (j.store, ds)).2
      = ((Journal.tagFrom k (events.map fun ev => .call ev.1 ev.2)).foldl Journal.tallied
          (j, .ofDeeds ds)).2 := by
  induction events generalizing j ds k with
  | nil => rfl
  | cons ev events ih =>
    rw [tagRun, List.foldl_cons, List.map_cons, Journal.tagFrom, List.foldl_cons]
    have hstep := ih (j.step ((Journal.Event.call ev.1 ev.2).tag k))
      (chronicled (j.store, ds) (ev.1, ev.2.relabel fun j x => ((k, j), x))).2 (k + 1)
    -- both runs take the same step; what is left is that its share is the same
    refine hstep.trans ?_
    rw [chronicled, Tally.ofDeeds_append, tally_deeds]
    rfl

/-- No payload of a run is enqueued twice. -/
theorem nodup_enqueuedBy (persistent : Bool) (envs : ℕ → Env)
    (events : List ((ℕ → Env) × Call α)) :
    (enqueuedBy (chronicle persistent envs events).2).Nodup := by
  rw [enqueuedBy, chronicle, tally_foldl_chronicled (Journal.first persistent envs)]
  exact Journal.nodup_enqueued _ 0 _ List.nodup_nil fun m h => absurd h List.not_mem_nil

theorem sameState_first (persistent : Bool) (envs : ℕ → Env) :
    SameState .new (Journal.first persistent envs : Journal α).store := by
  cases persistent with
  | true => exact SameState.of_tables rfl rfl
  | false => exact SameState.refl _

end InMemoryStorage

section Run

variable [DecidableEq α] {I : List (Deed α) → InMemoryStorage α → Prop}

omit [DecidableEq α] in
/-- The deeds of a run are a prefix of those of a longer one. -/
theorem exists_foldl_chronicled (s : InMemoryStorage α × List (Deed α))
    (events : List ((ℕ → Env) × Call α)) :
    ∃ ds, (events.foldl InMemoryStorage.chronicled s).2 = s.2 ++ ds := by
  induction events generalizing s with
  | nil => exact ⟨[], (List.append_nil _).symm⟩
  | cons ev events ih =>
    obtain ⟨ds, h⟩ := ih (InMemoryStorage.chronicled s ev)
    exact ⟨_, h.trans (List.append_assoc ..)⟩

theorem KeptByActs.foldl (hI : KeptByActs I) {s : InMemoryStorage α × List (Deed α)}
    (hc : Chronicle s.2 s.1) (h : I s.2 s.1) {events : List ((ℕ → Env) × Call α)}
    (hfresh : (enqueuedBy (events.foldl InMemoryStorage.chronicled s).2).Nodup) :
    Chronicle (events.foldl InMemoryStorage.chronicled s).2
        (events.foldl InMemoryStorage.chronicled s).1 ∧
      I (events.foldl InMemoryStorage.chronicled s).2
        (events.foldl InMemoryStorage.chronicled s).1 := by
  induction events generalizing s with
  | nil => exact ⟨hc, h⟩
  | cons ev events ih =>
    -- the payloads of a prefix differ because those of the whole run do
    have hfirst : (enqueuedBy (InMemoryStorage.chronicled s ev).2).Nodup := by
      obtain ⟨ds, hds⟩ := exists_foldl_chronicled (InMemoryStorage.chronicled s ev) events
      rw [List.foldl_cons, hds, enqueuedBy_append] at hfresh
      exact (List.nodup_append'.mp hfresh).1
    obtain ⟨hc', h'⟩ := hI.acts hc h (InMemoryStorage.call_acts ev.1 s.1 ev.2) hfirst
    exact ih hc' h' hfresh

end Run

/-- **Invariants of chronicles.** What holds of an empty store and is kept by acts holds at the end
of every run. -/
theorem KeptByActs.run [DecidableEq α]
    {I : List (Deed ((ℕ × ℕ) × α)) → InMemoryStorage ((ℕ × ℕ) × α) → Prop} (hI : KeptByActs I)
    (hnew : I [] .new) (persistent : Bool) (envs : ℕ → Env)
    (events : List ((ℕ → Env) × Call α)) :
    Chronicle (InMemoryStorage.chronicle persistent envs events).2
        (InMemoryStorage.chronicle persistent envs events).1 ∧
      I (InMemoryStorage.chronicle persistent envs events).2
        (InMemoryStorage.chronicle persistent envs events).1 := by
  have hstart := InMemoryStorage.sameState_first (α := (ℕ × ℕ) × α) persistent envs
  exact hI.foldl (.nil hstart) (hI.sameState hnew hstart)
    (InMemoryStorage.nodup_enqueuedBy persistent envs events)

end Oxideq
