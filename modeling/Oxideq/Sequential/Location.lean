import Mathlib.Data.List.Count
import Mathlib.Data.UInt
import Oxideq.Concurrent.Effects
import Oxideq.Concurrent.Tagged
import Oxideq.Sequential.Journal

/-!
# Where a message is, by its deliveries

The delivery counter of a message travels with it: an item keeps it while it is pending, a task
has it one higher, and a returned task gives it back. The queue a returned task goes to is decided
by the counter alone, its own queue up to the fourth delivery and one dead-letter queue further
from the fifth on. So the counter and the queue of a message are functions of how often it was
handed out and of the queue it was enqueued into.

`Located` says this of all messages of a store, with the deliveries taken from a tally. The
elementary changes keep it (`Located.change`, one lemma for each of them), as long as no payload is
enqueued twice; every run is made of such changes, so the statement about runs
(`Journal.located`) needs no induction over calls. There the payloads carry the position of the
event that brings them, which makes them differ.
-/

namespace Oxideq

variable {α : Type}

/-- The queue `origin` followed by so many copies of `_dlq`. -/
def deadLetter (origin : String) : ℕ → String
  | 0 => origin
  | copies + 1 => dlqName (deadLetter origin copies)

/-! ### Deliveries of a message -/

section Times

variable [DecidableEq α]

/-- How often a payload was handed out. -/
def Tally.times (t : Tally α) (m : α) : ℕ := t.handed.count m

@[simp] theorem Tally.times_nothing (m : α) : (Tally.nothing : Tally α).times m = 0 := rfl

theorem Tally.times_append (t u : Tally α) (m : α) :
    (t.append u).times m = t.times m + u.times m :=
  List.count_append

/-- The counter and the queue of a pending item agree with its deliveries. -/
def QueueItem.Located (t : Tally α) (name : String) (item : QueueItem α) : Prop :=
  ∃ origin, (item.data, origin) ∈ t.enqueued ∧
    item.deliveryAttempts = UInt32.ofNat (t.times item.data) ∧
    (t.times item.data < 2 ^ 32 → name = deadLetter origin (t.times item.data - 4))

/-- The counter and the queue name of a task agree with its deliveries. -/
def InFlightTask.Located (t : Tally α) (task : InFlightTask α) : Prop :=
  ∃ origin, (task.data, origin) ∈ t.enqueued ∧ 1 ≤ t.times task.data ∧
    task.deliveryAttempts = UInt32.ofNat (t.times task.data) ∧
    (t.times task.data < 2 ^ 32 → task.queueName = deadLetter origin (t.times task.data - 5))

/-- Every message is where its deliveries say, and is there once. -/
structure Located (t : Tally α) (s : InMemoryStorage α) : Prop where
  nodup : s.messages.Nodup
  handed : ∀ m ∈ t.handed, m ∈ t.enqueued.map Prod.fst
  pending : ∀ {name item}, item ∈ s.items name → item.Located t name
  inFlight : ∀ {id task}, s.inFlight.lookup id = some task → task.Located t

/-! ### Items and tasks -/

variable {t u : Tally α}

/-- A longer tally that hands out nothing more of the item. -/
theorem QueueItem.Located.append {name : String} {item : QueueItem α} (h : item.Located t name)
    (hu : u.times item.data = 0) : item.Located (t.append u) name := by
  obtain ⟨origin, hin, hcount, hname⟩ := h
  refine ⟨origin, List.mem_append_left _ hin, ?_, ?_⟩
  · rw [Tally.times_append, hu, Nat.add_zero, hcount]
  · rw [Tally.times_append, hu, Nat.add_zero]
    exact hname

theorem InFlightTask.Located.append {task : InFlightTask α} (h : task.Located t)
    (hu : u.times task.data = 0) : task.Located (t.append u) := by
  obtain ⟨origin, hin, hpos, hcount, hname⟩ := h
  refine ⟨origin, List.mem_append_left _ hin, ?_, ?_, ?_⟩
  · rwa [Tally.times_append, hu, Nat.add_zero]
  · rw [Tally.times_append, hu, Nat.add_zero, hcount]
  · rw [Tally.times_append, hu, Nat.add_zero]
    exact hname

/-- What a delivery makes of an item: the counter goes up by one, and the copies of `_dlq` are
counted from the fifth delivery instead of the fourth. -/
theorem QueueItem.Located.deliver {name : String} {item : QueueItem α} (h : item.Located t name)
    (id : String) (now : Int) :
    (InFlightTask.deliver id name now item).Located (t.append ⟨[], [item.data]⟩) := by
  obtain ⟨origin, hin, hcount, hname⟩ := h
  have htimes : (t.append ⟨[], [item.data]⟩).times item.data = t.times item.data + 1 := by
    rw [Tally.times_append]
    exact congrArg _ List.count_singleton_self
  refine ⟨origin, List.mem_append_left _ hin, ?_⟩
  change 1 ≤ (t.append ⟨[], [item.data]⟩).times item.data ∧
    item.deliveryAttempts + 1 = UInt32.ofNat ((t.append ⟨[], [item.data]⟩).times item.data) ∧
    ((t.append ⟨[], [item.data]⟩).times item.data < 2 ^ 32 → name
      = deadLetter origin ((t.append ⟨[], [item.data]⟩).times item.data - 5))
  rw [htimes]
  refine ⟨Nat.le_add_left 1 _, ?_, fun hlt => ?_⟩
  · rw [hcount, UInt32.ofNat_add]
    rfl
  -- `n - 4` copies before the delivery are `n + 1 - 5` behind it
  · rw [hname (by omega), Nat.succ_sub_succ]

/-- Below `2^32` deliveries the test of `nack` is on the deliveries. -/
theorem InFlightTask.Located.exhausted_iff {task : InFlightTask α} (h : task.Located t)
    (hlt : t.times task.data < 2 ^ 32) : task.exhausted = true ↔ 5 ≤ t.times task.data := by
  obtain ⟨origin, hin, hpos, hcount, hname⟩ := h
  rw [InFlightTask.exhausted, decide_eq_true_iff, hcount, UInt32.le_iff_toNat_le,
    UInt32.toNat_ofNat_of_lt' hlt]
  rfl

/-- A task that is returned waits in the queue `nack` chooses. -/
theorem InFlightTask.Located.item {task : InFlightTask α} (h : task.Located t) :
    task.item.Located t task.returnQueue := by
  have h' := h
  obtain ⟨origin, hin, hpos, hcount, hname⟩ := h'
  refine ⟨origin, hin, hcount, ?_⟩
  change t.times task.data < 2 ^ 32 → _ = deadLetter origin (t.times task.data - 4)
  intro hlt
  rw [InFlightTask.returnQueue, hname hlt]
  split
  · next hx =>
    have h5 : 5 ≤ t.times task.data := (h.exhausted_iff hlt).mp hx
    -- one copy more, and that is the queue the task is moved to
    have hcopies : t.times task.data - 4 = (t.times task.data - 5) + 1 := by omega
    rw [hcopies]
    rfl
  · next hx =>
    -- up to the fourth delivery there are no copies
    have h5 : ¬ 5 ≤ t.times task.data := fun h5 => hx ((h.exhausted_iff hlt).mpr h5)
    congr 1
    omega

/-! ### What the tables hold -/

variable {s s' : InMemoryStorage α}

omit [DecidableEq α] in
theorem InMemoryStorage.mem_messages_of_items {name : String} {item : QueueItem α}
    (h : item ∈ s.items name) : item.data ∈ s.messages := by
  refine Multiset.mem_add.mpr (Or.inl ?_)
  have hne : s.items name ≠ [] := List.ne_nil_of_mem h
  exact (Table.mem_total queueShare).mpr
    ⟨name, s.items name, lookup_of_items rfl hne, Multiset.mem_coe.mpr (List.mem_map_of_mem h)⟩

omit [DecidableEq α] in
theorem InMemoryStorage.mem_messages_of_lookup {id : String} {task : InFlightTask α}
    (h : s.inFlight.lookup id = some task) : task.data ∈ s.messages :=
  Multiset.mem_add.mpr (Or.inr (Multiset.mem_map.mpr ⟨_, mem_inFlightTasks h, rfl⟩))

/-- What is in the tables was enqueued. -/
theorem Located.mem_enqueued (h : Located t s) {m : α} (hm : m ∈ s.messages) :
    m ∈ t.enqueued.map Prod.fst := by
  rcases Multiset.mem_add.mp hm with hm | hm
  · obtain ⟨name, items, hl, hitem⟩ := (Table.mem_total _).mp hm
    obtain ⟨item, hmem, rfl⟩ := List.mem_map.mp (Multiset.mem_coe.mp hitem)
    rw [← InMemoryStorage.items_of_lookup hl] at hmem
    obtain ⟨origin, hin, -⟩ := h.pending hmem
    exact List.mem_map.mpr ⟨_, hin, rfl⟩
  · obtain ⟨task', hmem, rfl⟩ := Multiset.mem_map.mp hm
    obtain ⟨id, task, hl, htask⟩ := (Table.mem_total _).mp hmem
    rw [Multiset.mem_singleton.mp htask]
    obtain ⟨origin, hin, -⟩ := h.inFlight hl
    exact List.mem_map.mpr ⟨_, hin, rfl⟩

theorem Located.sameState (h : Located t s) (hs : SameState s s') : Located t s' := by
  refine ⟨hs.messages ▸ h.nodup, h.handed, fun hitem => ?_, fun hl => ?_⟩
  · rw [← hs.items] at hitem
    exact h.pending hitem
  · -- the task is the same up to its clock reading
    obtain ⟨task', hl', ht⟩ := hs.symm.lookup_some hl
    obtain ⟨origin, hloc⟩ := h.inFlight hl'
    simp only [InFlightTask.untimed, InFlightTask.mk.injEq] at ht
    obtain ⟨-, hdata, -, hname, hcount⟩ := ht
    rw [hdata, hname, hcount] at hloc
    exact ⟨origin, hloc⟩

theorem Located.new (h : ∀ m ∈ t.handed, m ∈ t.enqueued.map Prod.fst) :
    Located t (.new : InMemoryStorage α) := by
  refine ⟨Multiset.nodup_zero, h, fun hitem => ?_, fun hl => ?_⟩
  · cases hitem
  · cases hl

/-! ### One lemma for each change -/

omit [DecidableEq α] in
theorem InMemoryStorage.mem_items_setQueue {name q : String} {items : List (QueueItem α)}
    {item : QueueItem α} (h : item ∈ (s.setQueue name items).items q) :
    item ∈ s.items q ∨ (item ∈ items ∧ q = name) := by
  rw [items_setQueue] at h
  split at h
  · next hq => exact Or.inr ⟨h, hq⟩
  · exact Or.inl h

theorem Located.create (h : Located t s) {name : String} (hn : name ∉ s.queues) :
    Located t (s.setQueue name []) := by
  refine ⟨?_, h.handed, fun hitem => ?_, h.inFlight⟩
  · rw [InMemoryStorage.messages, s.pendingData_insertQueue hn]
    exact h.nodup
  · rcases InMemoryStorage.mem_items_setQueue hitem with hitem | ⟨hnil, -⟩
    · exact h.pending hitem
    · exact absurd hnil List.not_mem_nil

theorem Located.push (h : Located t s) {name : String} {old : List (QueueItem α)}
    (items : List α) (hl : s.queues.lookup name = some old)
    (hfresh : ((t.append ⟨items.map fun d => (d, name), []⟩).enqueued.map Prod.fst).Nodup) :
    Located (t.append ⟨items.map fun d => (d, name), []⟩)
      (s.setQueue name (old ++ items.map fun d => ⟨d, 0⟩)) := by
  rw [Tally.append, List.map_append, List.map_map, List.nodup_append'] at hfresh
  obtain ⟨-, hitems, hdisjoint⟩ := hfresh
  have hitems' : items.Nodup := by
    simpa only [Function.comp_def, List.map_id'] using hitems
  -- no payload is enqueued twice, so what arrives is not in the tables yet
  have hnew : ∀ d ∈ items, d ∉ t.enqueued.map Prod.fst := by
    intro d hd hold
    exact hdisjoint hold (by simpa [Function.comp_def] using hd)
  -- the tables gain exactly what arrives
  have hmessages : (s.setQueue name (old ++ items.map fun d => ⟨d, 0⟩)).messages
      = s.messages + (items : Multiset α) := by
    have hpush := s.pendingData_pushBack name (items.map fun d => ⟨d, 0⟩)
    rw [InMemoryStorage.items_of_lookup hl, List.map_map, Function.comp_def, List.map_id'] at hpush
    rw [InMemoryStorage.messages, hpush, InMemoryStorage.inFlightTasks_setQueue, add_right_comm]
    rfl
  refine ⟨?_, fun m hm => ?_, fun {q pushed} hitem => ?_, fun hf => ?_⟩
  · rw [hmessages, Multiset.nodup_add, Multiset.coe_nodup, Multiset.disjoint_left]
    exact ⟨h.nodup, hitems', fun hm hd => hnew _ hd (h.mem_enqueued hm)⟩
  · change m ∈ t.handed ++ [] at hm
    rw [List.append_nil] at hm
    rw [Tally.append, List.map_append]
    exact List.mem_append_left _ (h.handed m hm)
  · rcases InMemoryStorage.mem_items_setQueue hitem with hold | ⟨hmem, hq⟩
    · exact (h.pending hold).append rfl
    rw [hq]
    rcases List.mem_append.mp hmem with hmem | hmem
    · rw [← InMemoryStorage.items_of_lookup hl] at hmem
      exact (h.pending hmem).append rfl
    · -- a payload that arrives now was not handed out before
      obtain ⟨d, hd, rfl⟩ := List.mem_map.mp hmem
      have hzero : (t.append ⟨items.map fun d => (d, name), []⟩).times d = 0 := by
        rw [Tally.times_append]
        exact List.count_eq_zero.mpr fun hm => hnew d hd (h.handed d hm)
      refine ⟨name, List.mem_append_right _ (List.mem_map_of_mem hd), ?_, fun _ => ?_⟩
      · rw [hzero]
        rfl
      · rw [hzero]
        rfl
  · exact (h.inFlight hf).append rfl

omit [DecidableEq α] in
/-- The front item of a queue and what the tables hold without it. -/
theorem InMemoryStorage.messages_popFront {name : String} {item : QueueItem α}
    {rest : List (QueueItem α)} (h : s.queues.lookup name = some (item :: rest)) :
    {item.data} + (s.setQueue name rest).messages = s.messages := by
  have hpending := s.pendingData_pop name 1
  rw [items_of_lookup h, List.drop_one, List.tail_cons, List.take_succ_cons, List.take_zero,
    List.map_singleton, Multiset.coe_singleton] at hpending
  rw [messages, messages, ← hpending, inFlightTasks_setQueue, ← add_assoc,
    add_comm {item.data} (s.setQueue name rest).pendingData]

theorem Located.hand (h : Located t s) {name : String} {item : QueueItem α}
    {rest : List (QueueItem α)} (id : String) (now : Int)
    (hl : s.queues.lookup name = some (item :: rest)) :
    Located (t.append ⟨[], [item.data]⟩)
      ((s.setQueue name rest).putTask (.deliver id name now item)) := by
  have hitems : s.items name = item :: rest := InMemoryStorage.items_of_lookup hl
  have hfront : item.Located t name := h.pending (hitems ▸ List.mem_cons_self)
  have hpop := InMemoryStorage.messages_popFront hl
  have hnodup := h.nodup
  rw [← hpop, Multiset.singleton_add, Multiset.nodup_cons] at hnodup
  -- the others are not handed out
  have hothers : ∀ m ∈ (s.setQueue name rest).messages,
      (⟨[], [item.data]⟩ : Tally α).times m = 0 := by
    intro m hm
    refine List.count_eq_zero.mpr fun hsame => ?_
    rw [List.mem_singleton.mp hsame] at hm
    exact hnodup.1 hm
  refine ⟨?_, fun m hm => ?_, fun {q waiting} hitem => ?_, fun {id' task} hf => ?_⟩
  · refine Multiset.nodup_of_le ?_ h.nodup
    rw [← hpop]
    exact (s.setQueue name rest).messages_insertTask_le id (.deliver id name now item)
  · change m ∈ (t.enqueued ++ []).map Prod.fst
    rw [List.append_nil]
    rcases List.mem_append.mp hm with hm | hm
    · exact h.handed m hm
    · obtain ⟨origin, hin, -⟩ := hfront
      rw [List.mem_singleton.mp hm]
      exact List.mem_map.mpr ⟨_, hin, rfl⟩
  · change waiting ∈ (s.setQueue name rest).items q at hitem
    refine QueueItem.Located.append ?_
      (hothers _ (InMemoryStorage.mem_messages_of_items hitem))
    rcases InMemoryStorage.mem_items_setQueue hitem with hold | ⟨hmem, rfl⟩
    · exact h.pending hold
    · exact h.pending (hitems ▸ List.mem_cons_of_mem _ hmem)
  · change (s.inFlight.insert id (.deliver id name now item)).lookup id' = some task at hf
    -- an id that was in use is overwritten; its task is gone, and the others keep theirs
    by_cases hid : id' = id
    · rw [hid, Finmap.lookup_insert] at hf
      rw [← Option.some.inj hf]
      exact hfront.deliver id now
    · rw [Finmap.lookup_insert_of_ne _ hid] at hf
      exact (h.inFlight hf).append (hothers _ (InMemoryStorage.mem_messages_of_lookup hf))

omit [DecidableEq α] in
/-- A task out of the table is a task less. -/
theorem InMemoryStorage.lookup_of_dropTask {id id' : String} {task : InFlightTask α}
    (h : (s.dropTask id).inFlight.lookup id' = some task) :
    s.inFlight.lookup id' = some task := by
  by_cases hid : id' = id
  · rw [hid, dropTask, Finmap.lookup_erase] at h
    cases h
  · rwa [dropTask, Finmap.lookup_erase_ne hid] at h

theorem Located.drop (h : Located t s) (id : String) : Located t (s.dropTask id) :=
  ⟨Multiset.nodup_of_le (s.messages_dropTask_le id) h.nodup, h.handed, h.pending,
    fun hl => h.inFlight (InMemoryStorage.lookup_of_dropTask hl)⟩

omit [DecidableEq α] in
/-- A returned task brings its item to the queue `nack` chooses, and nothing else. -/
theorem InMemoryStorage.mem_items_requeue {task : InFlightTask α} (h : s.requeue task = .ok s')
    {q : String} {item : QueueItem α} (hitem : item ∈ s'.items q) :
      item ∈ s.items q ∨ (item = task.item ∧ q = task.returnQueue) := by
  unfold requeue at h
  split at h
  · next hx =>
    cases h
    rcases mem_items_setQueue hitem with hold | ⟨hmem, rfl⟩
    · exact Or.inl hold
    rcases List.mem_append.mp hmem with hmem | hmem
    · exact Or.inl hmem
    · exact Or.inr ⟨List.mem_singleton.mp hmem, by rw [InFlightTask.returnQueue, if_pos hx]⟩
  · next hx =>
    cases hl : s.queues.lookup task.queueName with
    | none => rw [hl] at h; cases h
    | some old =>
      rw [hl] at h
      cases h
      rcases mem_items_setQueue hitem with hold | ⟨hmem, rfl⟩
      · exact Or.inl hold
      rcases List.mem_cons.mp hmem with hmem | hmem
      · exact Or.inr ⟨hmem, by rw [InFlightTask.returnQueue, if_neg hx]⟩
      · rw [← items_of_lookup hl] at hmem
        exact Or.inl hmem

theorem Located.requeue (h : Located t s) {id : String} {task : InFlightTask α}
    (hl : s.inFlight.lookup id = some task) (hr : (s.dropTask id).requeue task = .ok s') :
    Located t s' := by
  refine ⟨?_, h.handed, fun hitem => ?_, fun hf => ?_⟩
  -- out of the table and into a queue: no message twice
  · have hle := (s.dropTask id).messages_requeue_le task
    rw [hr, s.messages_dropTask_add hl] at hle
    exact Multiset.nodup_of_le hle h.nodup
  · rcases InMemoryStorage.mem_items_requeue hr hitem with hitem | ⟨rfl, rfl⟩
    · exact h.pending hitem
    · exact (h.inFlight hl).item
  · rw [InMemoryStorage.requeue_inFlight hr] at hf
    exact h.inFlight (InMemoryStorage.lookup_of_dropTask hf)

/-- **Elementary changes keep messages where their deliveries say**, while no payload is enqueued
twice. -/
theorem Located.change (h : Located t s) (hc : Change s s' u)
    (hfresh : ((t.append u).enqueued.map Prod.fst).Nodup) : Located (t.append u) s' := by
  cases hc with
  | create hn =>
    rw [Tally.append_nothing]
    exact h.create hn
  | push items hl => exact h.push items hl hfresh
  | hand id now hl => exact h.hand id now hl
  | drop id =>
    rw [Tally.append_nothing]
    exact h.drop id
  | requeue hl hr =>
    rw [Tally.append_nothing]
    exact h.requeue hl hr
  | forget =>
    rw [Tally.append_nothing]
    exact .new h.handed

theorem Located.changes (h : Located t s) (hc : Changes s s' u)
    (hfresh : ((t.append u).enqueued.map Prod.fst).Nodup) : Located (t.append u) s' := by
  induction hc generalizing t with
  | same hs =>
    rw [Tally.append_nothing]
    exact h.sameState hs
  | step hs hc _ ih =>
    rw [← Tally.append_assoc] at hfresh ⊢
    -- what is enqueued by this change is a part of what is enqueued in all
    refine ih ((h.sameState hs).change hc (hfresh.sublist ?_)) hfresh
    exact (List.sublist_append_left _ _).map _

end Times

/-! ### Runs -/

/-- A call enqueues its payloads or nothing. -/
theorem Call.enqueued_tally (c : Call α) (r : Outcome (Reply α)) :
    (c.tally r).enqueued.map Prod.fst = c.payloads ∨ (c.tally r).enqueued = [] := by
  cases c with
  | queue name item =>
    cases r with
    | ok reply => exact Or.inl rfl
    | _ => exact Or.inr rfl
  | queueBatch name items =>
    cases r with
    | ok reply =>
      refine Or.inl ?_
      change (items.map fun d => (d, name)).map Prod.fst = items
      rw [List.map_map, Function.comp_def, List.map_id']
    | _ => exact Or.inr rfl
  | dequeue name =>
    refine Or.inr ?_
    unfold Call.tally
    split <;> first | rfl | simp_all
  | dequeueBatch name count =>
    refine Or.inr ?_
    unfold Call.tally
    split <;> first | rfl | simp_all
  | _ => exact Or.inr rfl

namespace Journal

/-- The event with its payloads under their tags: the position of the event, and their own
position in it. -/
def Event.tag (k : ℕ) : Event α → Event ((ℕ × ℕ) × α)
  | .call envs c => .call envs (c.relabel fun j x => ((k, j), x))
  | .restart envs => .restart envs

def tagFrom : ℕ → List (Event α) → List (Event ((ℕ × ℕ) × α))
  | _, [] => []
  | k, ev :: events => ev.tag k :: tagFrom (k + 1) events

/-- The events with their payloads tagged. -/
def tagEvents (events : List (Event α)) : List (Event ((ℕ × ℕ) × α)) := tagFrom 0 events

theorem appendsSucceed_tagFrom (k : ℕ) {events : List (Event α)}
    (hev : ∀ ev ∈ events, ev.AppendsSucceed) :
    ∀ ev ∈ tagFrom k events, ev.AppendsSucceed := by
  induction events generalizing k with
  | nil => exact fun ev h => absurd h List.not_mem_nil
  | cons ev events ih =>
    rw [List.forall_mem_cons] at hev
    rw [tagFrom, List.forall_mem_cons]
    refine ⟨?_, ih (k + 1) hev.2⟩
    cases ev with
    | call envs c => exact hev.1
    | restart envs => trivial

/-- What a tagged event enqueues are payloads under its position, each under its own. -/
theorem nodup_tally_tag (j : Journal ((ℕ × ℕ) × α)) (k : ℕ) (ev : Event α) :
    ((j.tally (ev.tag k)).enqueued.map Prod.fst).Nodup ∧
      ∀ m ∈ (j.tally (ev.tag k)).enqueued.map Prod.fst, m.1.1 = k := by
  cases ev with
  | restart envs => exact ⟨List.nodup_nil, fun m h => absurd h List.not_mem_nil⟩
  | call envs c =>
    change (((c.relabel _).tally _).enqueued.map Prod.fst).Nodup ∧
      ∀ m ∈ ((c.relabel _).tally _).enqueued.map Prod.fst, (m : (ℕ × ℕ) × α).1.1 = k
    -- a call that fails enqueues nothing
    rcases Call.enqueued_tally (c.relabel fun j x => ((k, j), x)) (j.store.call envs _).1 with h | h
    · rw [h, Call.payloads_relabel]
      constructor
      · rw [List.nodup_iff_injective_getElem]
        intro a b hab
        simp only [List.getElem_mapIdx, Prod.mk.injEq] at hab
        exact Fin.ext hab.1.2
      · intro m hm
        obtain ⟨i, hi, rfl⟩ := List.mem_mapIdx.mp hm
        rfl
    · rw [h]
      exact ⟨List.nodup_nil, fun m h => absurd h List.not_mem_nil⟩

/-- Under their tags all enqueued payloads differ. -/
theorem nodup_enqueued (s : Journal ((ℕ × ℕ) × α) × Tally ((ℕ × ℕ) × α)) (k : ℕ)
    (events : List (Event α)) (hn : (s.2.enqueued.map Prod.fst).Nodup)
    (hlt : ∀ m ∈ s.2.enqueued.map Prod.fst, m.1.1 < k) :
    (((tagFrom k events).foldl tallied s).2.enqueued.map Prod.fst).Nodup := by
  induction events generalizing s k with
  | nil => exact hn
  | cons ev events ih =>
    rw [tagFrom, List.foldl_cons]
    obtain ⟨hev, htag⟩ := nodup_tally_tag s.1 k ev
    refine ih (tallied s (ev.tag k)) (k + 1) ?_ ?_
    · change ((s.2.enqueued ++ (s.1.tally (ev.tag k)).enqueued).map Prod.fst).Nodup
      rw [List.map_append, List.nodup_append']
      refine ⟨hn, hev, fun m hm hm' => ?_⟩
      -- payloads of earlier events carry smaller positions
      exact absurd (htag m hm') (hlt m hm).ne
    · intro m hm
      change m ∈ (s.2.enqueued ++ (s.1.tally (ev.tag k)).enqueued).map Prod.fst at hm
      rw [List.map_append, List.mem_append] at hm
      rcases hm with hm | hm
      · exact (hlt m hm).trans k.lt_succ_self
      · rw [htag m hm]
        exact k.lt_succ_self

section Run

variable [DecidableEq α]

/-- At the end of every run the messages are where their deliveries say. -/
theorem located_tagged (persistent : Bool) (envs : ℕ → Env) {events : List (Event α)}
    (hev : ∀ ev ∈ events, ev.AppendsSucceed) :
    Located (run persistent envs (tagEvents events)).2
      (run persistent envs (tagEvents events)).1.store := by
  have hfresh := nodup_enqueued (first persistent envs, .nothing) 0 events List.nodup_nil
    (fun m h => absurd h List.not_mem_nil)
  have hstart : Located (.nothing : Tally ((ℕ × ℕ) × α)) .new :=
    .new fun m h => absurd h List.not_mem_nil
  exact hstart.changes (run_changes persistent envs (appendsSucceed_tagFrom 0 hev)) hfresh

omit [DecidableEq α] in
theorem eq_of_mem_enqueued (persistent : Bool) (envs : ℕ → Env) (events : List (Event α))
    {m : (ℕ × ℕ) × α} {o o' : String}
    (h : (m, o) ∈ (run persistent envs (tagEvents events)).2.enqueued)
    (h' : (m, o') ∈ (run persistent envs (tagEvents events)).2.enqueued) : o = o' := by
  have hfresh := nodup_enqueued (first persistent envs, .nothing) 0 events List.nodup_nil
    (fun m h => absurd h List.not_mem_nil)
  exact congrArg Prod.snd (List.inj_on_of_nodup_map hfresh h h' rfl)

/-- **Delivery counting and location.** A message that was enqueued into `origin` and handed out
`n` times so far has the counter `n`, and is in `origin` followed by `n - 4` copies of `_dlq`
while it is pending and was taken from `origin` followed by `n - 5` copies while it is in flight;
the subtractions stop at zero. -/
theorem located_run (persistent : Bool) (envs : ℕ → Env) {events : List (Event α)}
    (hev : ∀ ev ∈ events, ev.AppendsSucceed) {m : (ℕ × ℕ) × α} {origin : String}
    (hm : (m, origin) ∈ (run persistent envs (tagEvents events)).2.enqueued)
    (hn : (run persistent envs (tagEvents events)).2.times m < 2 ^ 32) :
    (∀ name item, item ∈ (run persistent envs (tagEvents events)).1.store.items name →
      item.data = m →
        item.deliveryAttempts.toNat = (run persistent envs (tagEvents events)).2.times m ∧
        name = deadLetter origin ((run persistent envs (tagEvents events)).2.times m - 4)) ∧
    (∀ id task, (run persistent envs (tagEvents events)).1.store.inFlight.lookup id = some task →
      task.data = m →
        task.deliveryAttempts.toNat = (run persistent envs (tagEvents events)).2.times m ∧
        task.queueName
          = deadLetter origin ((run persistent envs (tagEvents events)).2.times m - 5)) := by
  have hloc := located_tagged persistent envs hev
  constructor
  · intro name item hitem hdata
    obtain ⟨o, hin, hcount, hname⟩ := hloc.pending hitem
    rw [hdata] at hin hcount hname
    rw [eq_of_mem_enqueued persistent envs events hm hin, hcount, UInt32.toNat_ofNat_of_lt' hn]
    exact ⟨rfl, hname hn⟩
  · intro id task hl hdata
    obtain ⟨o, hin, -, hcount, hname⟩ := hloc.inFlight hl
    rw [hdata] at hin hcount hname
    rw [eq_of_mem_enqueued persistent envs events hm hin, hcount, UInt32.toNat_ofNat_of_lt' hn]
    exact ⟨rfl, hname hn⟩

end Run

/-- A message handed out and returned five times, a restart, and its sixth delivery. -/
def sixDeliveries : List (Event Bytes) :=
  let envs : ℕ → Env := fun _ => Env.quiet ["t"]
  let retry : List (Event Bytes) := [.call envs (.dequeue "q"), .call envs (.nack "t")]
  [.call envs (.createQueue "q"), .call envs (.queue "q" [7])]
    ++ (List.replicate 5 retry).flatten ++ [.restart envs, .call envs (.dequeue "q_dlq")]

theorem located_run_sixDeliveries :
    ∃ task, (run true (fun _ => Env.quiet []) (tagEvents sixDeliveries)).1.store.inFlight.lookup "t"
        = some task ∧
      task.deliveryAttempts.toNat = 6 ∧ task.queueName = deadLetter "q" 1 := by
  obtain ⟨task, hl, hdata⟩ := Option.map_eq_some_iff.mp (show
    ((run true (fun _ => Env.quiet []) (tagEvents sixDeliveries)).1.store.inFlight.lookup "t").map
      InFlightTask.data = some ((1, 0), [7]) by decide +kernel)
  have htimes :
      (run true (fun _ => Env.quiet []) (tagEvents sixDeliveries)).2.times ((1, 0), [7]) = 6 := by
    decide +kernel
  have happends : ∀ ev ∈ sixDeliveries, ev.AppendsSucceed := by
    simp [sixDeliveries, Event.AppendsSucceed, Env.quiet, List.replicate]
  have hin : (((1, 0), [7]), "q")
      ∈ (run true (fun _ => Env.quiet []) (tagEvents sixDeliveries)).2.enqueued := by
    decide +kernel
  have hplace := (located_run true (fun _ => Env.quiet []) happends hin (by rw [htimes]; decide)).2
    "t" task hl hdata
  rw [htimes] at hplace
  exact ⟨task, hl, hplace⟩

end Journal

end Oxideq
