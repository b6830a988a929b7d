import Oxideq.Sequential.Chronicle

/-!
# Arrival order is delivery order

A queue is read from the front, and a message that is returned goes to the front again. Messages
arrive at the back, from a client or as dead letters. So a queue is, at every point of a run, a
part that was handed out from it before and was put back, and behind it the messages that have
arrived and were never handed out from it, in the order of their arrival (`Ordered`).

Four things can happen to a queue, and each keeps this: nothing, an arrival of messages that it has
not handed out, a hand-out of its front item, and the return of an item that it has handed out. A
dead letter is an arrival of this kind because a message moves on only to queues with longer names
(`Below`): from the queue it arrives in now it was never handed out.

The same invariant says in which order messages are handed out for the first time: the order in
which they arrived (`arrival_order`).
-/

namespace Oxideq

variable {α : Type}

/-! ### Arrivals and hand-outs of one queue -/

/-- The message that arrives at the back of the queue by the deed, if one does. -/
def Deed.arrival (queue : String) : Deed α → Option α
  | .enqueue q m => if q = queue then some m else none
  | .hand _ _ => none
  | .bury q m => if q = queue then some m else none

/-- The message that is handed out from the queue by the deed, if one is. -/
def Deed.handout (queue : String) : Deed α → Option α
  | .enqueue _ _ => none
  | .hand q m => if q = queue then some m else none
  | .bury _ _ => none

/-- The messages that have arrived in the queue, in their order. -/
def arrivals (queue : String) (ds : List (Deed α)) : List α := ds.filterMap (Deed.arrival queue)

/-- The messages handed out from the queue, once for every time, in their order. -/
def handouts (queue : String) (ds : List (Deed α)) : List α := ds.filterMap (Deed.handout queue)

section Lists

variable {queue name : String} {ds ds' : List (Deed α)}

theorem arrivals_append :
    arrivals queue (ds ++ ds') = arrivals queue ds ++ arrivals queue ds' :=
  List.filterMap_append

theorem handouts_append :
    handouts queue (ds ++ ds') = handouts queue ds ++ handouts queue ds' :=
  List.filterMap_append

theorem arrivals_enqueue (items : List α) :
    arrivals name (items.map (.enqueue name)) = items := by
  rw [arrivals, List.filterMap_map]
  simp [Function.comp_def, Deed.arrival]

theorem handouts_enqueue (items : List α) :
    handouts queue (items.map (.enqueue name)) = [] := by
  rw [handouts, List.filterMap_map]
  simp [Function.comp_def, Deed.handout]

theorem handouts_hand (m : α) : handouts queue [Deed.hand queue m] = [m] := by
  simp [handouts, Deed.handout]

theorem arrivals_bury (m : α) : arrivals queue [Deed.bury queue m] = [m] := by
  simp [arrivals, Deed.arrival]

theorem mem_handouts {m : α} : m ∈ handouts queue ds ↔ Deed.hand queue m ∈ ds := by
  rw [handouts, List.mem_filterMap]
  constructor
  · rintro ⟨d, hd, hm⟩
    cases d with
    | hand q m' =>
      rw [Deed.handout] at hm
      split at hm
      · next hq =>
        subst hq
        cases hm
        exact hd
      · cases hm
    | enqueue q m' => cases hm
    | bury q m' => cases hm
  · intro h
    exact ⟨_, h, if_pos rfl⟩

/-- Deeds at other queues are no arrivals and no hand-outs. -/
theorem arrivals_of_queue_ne (h : ∀ d ∈ ds, d.queue ≠ queue) : arrivals queue ds = [] := by
  refine List.filterMap_eq_nil_iff.mpr fun d hd => ?_
  have hne := h d hd
  cases d with
  | enqueue q m => exact if_neg hne
  | hand q m => rfl
  | bury q m => exact if_neg hne

theorem handouts_of_queue_ne (h : ∀ d ∈ ds, d.queue ≠ queue) : handouts queue ds = [] := by
  refine List.filterMap_eq_nil_iff.mpr fun d hd => ?_
  have hne := h d hd
  cases d with
  | enqueue q m => rfl
  | hand q m => exact if_neg hne
  | bury q m => rfl

theorem queue_of_mem_enqueue {name : String} {items : List α} {d : Deed α}
    (hd : d ∈ items.map (Deed.enqueue name)) : d.queue = name := by
  obtain ⟨m, -, rfl⟩ := List.mem_map.mp hd
  rfl

end Lists

section Ordered

variable [DecidableEq α] {queue : String} {ds ds' : List (Deed α)}
variable {item : QueueItem α} {items rest : List (QueueItem α)}

/-- The messages that have arrived in the queue and were never handed out from it, in the order of
their arrival. -/
def waiting (queue : String) (ds : List (Deed α)) : List α :=
  (arrivals queue ds).filter fun m => m ∉ handouts queue ds

/-- The messages handed out from the queue, in the order of their first hand-outs. -/
def firstHandouts (queue : String) (ds : List (Deed α)) : List α := (handouts queue ds).eraseDups

/-- The items of the queue are some that it handed out and that were put back, and behind them
those that wait for their first hand-out. The messages with a first hand-out and those that wait
for it are all that have arrived, in the order of their arrival. -/
def Ordered (queue : String) (ds : List (Deed α)) (items : List (QueueItem α)) : Prop :=
  (∃ returned, items.map QueueItem.data = returned ++ waiting queue ds ∧
    ∀ m ∈ returned, m ∈ handouts queue ds) ∧
  firstHandouts queue ds ++ waiting queue ds = arrivals queue ds

/-! ### What can happen to a queue -/

theorem Ordered.nil : Ordered queue ([] : List (Deed α)) [] :=
  ⟨⟨[], rfl, fun _ h => absurd h List.not_mem_nil⟩, rfl⟩

/-- Messages arrive that were not handed out from the queue. -/
theorem Ordered.arrive (h : Ordered queue ds items) {new : List (QueueItem α)}
    (harrive : arrivals queue ds' = new.map QueueItem.data) (hhand : handouts queue ds' = [])
    (hnew : ∀ m ∈ new.map QueueItem.data, m ∉ handouts queue ds) :
    Ordered queue (ds ++ ds') (items ++ new) := by
  obtain ⟨⟨returned, hitems, hreturned⟩, horder⟩ := h
  have hhandouts : handouts queue (ds ++ ds') = handouts queue ds := by
    rw [handouts_append, hhand, List.append_nil]
  have hwaiting : waiting queue (ds ++ ds') = waiting queue ds ++ new.map QueueItem.data := by
    rw [waiting, hhandouts, arrivals_append, harrive, List.filter_append]
    -- nothing that arrives is filtered out again
    congr 1
    exact List.filter_eq_self.mpr fun m hm => decide_eq_true (hnew m hm)
  refine ⟨⟨returned, ?_, ?_⟩, ?_⟩
  · rw [List.map_append, hitems, hwaiting, List.append_assoc]
  · rwa [hhandouts]
  · rw [firstHandouts, hhandouts, hwaiting, ← List.append_assoc, arrivals_append, harrive]
    congr 1

/-- Nothing happens to the queue. -/
theorem Ordered.elsewhere (h : Ordered queue ds items) (hne : ∀ d ∈ ds', d.queue ≠ queue) :
    Ordered queue (ds ++ ds') items := by
  have harrive : Ordered queue (ds ++ ds') (items ++ []) :=
    h.arrive (arrivals_of_queue_ne hne) (handouts_of_queue_ne hne)
      fun _ hm => absurd hm List.not_mem_nil
  rwa [List.append_nil] at harrive

/-- An item returns that was handed out from the queue. -/
theorem Ordered.giveBack (h : Ordered queue ds items) (hitem : item.data ∈ handouts queue ds) :
    Ordered queue ds (item :: items) := by
  obtain ⟨⟨returned, hitems, hreturned⟩, horder⟩ := h
  refine ⟨⟨item.data :: returned, ?_, ?_⟩, horder⟩
  · rw [List.map_cons, hitems, List.cons_append]
  · rw [List.forall_mem_cons]
    exact ⟨hitem, hreturned⟩

theorem waiting_hand (m : α) :
    waiting queue (ds ++ [.hand queue m]) = (waiting queue ds).filter fun m' => m' ≠ m := by
  have harrivals : arrivals queue [Deed.hand queue m] = [] := rfl
  rw [waiting, waiting, List.filter_filter, arrivals_append, handouts_append, harrivals,
    handouts_hand, List.append_nil]
  refine List.filter_congr fun m' _ => ?_
  rw [← Bool.decide_and, decide_eq_decide, List.mem_append, List.mem_singleton, not_or, and_comm]

theorem firstHandouts_hand (m : α) :
    firstHandouts queue (ds ++ [.hand queue m])
      = if m ∈ handouts queue ds then firstHandouts queue ds
        else firstHandouts queue ds ++ [m] := by
  rw [firstHandouts, handouts_append, handouts_hand, List.eraseDups_append]
  split
  · next hm =>
    rw [List.removeAll, List.filter_cons_of_neg (by simpa using hm)]
    exact List.append_nil _
  · next hm =>
    rw [List.removeAll, List.filter_cons_of_pos (by simpa using hm)]
    rfl

/-- The front item is handed out. -/
theorem Ordered.hand (h : Ordered queue ds (item :: rest))
    (hne : ∀ m ∈ rest.map QueueItem.data, m ≠ item.data) :
    Ordered queue (ds ++ [.hand queue item.data]) rest := by
  obtain ⟨⟨returned, hitems, hreturned⟩, horder⟩ := h
  have hsame : ∀ m ∈ handouts queue ds, m ∈ handouts queue (ds ++ [.hand queue item.data]) := by
    intro m hm
    rw [handouts_append]
    exact List.mem_append_left _ hm
  have harrivals : arrivals queue (ds ++ [.hand queue item.data]) = arrivals queue ds := by
    rw [arrivals_append]
    exact List.append_nil _
  have hnot : ∀ m ∈ waiting queue ds, m ∉ handouts queue ds := fun m hm =>
    of_decide_eq_true (List.mem_filter.mp hm).2
  -- The front item is one that was put back, if there is one, and else the first that waits.
  cases returned with
  | nil =>
    -- it is the first that waits, and has its first hand-out now
    rw [List.map_cons, List.nil_append] at hitems
    have hfront : item.data ∉ handouts queue ds := by
      refine hnot _ ?_
      rw [← hitems]
      exact List.mem_cons_self
    have hwaiting : waiting queue (ds ++ [.hand queue item.data]) = rest.map QueueItem.data := by
      rw [waiting_hand, ← hitems, List.filter_cons_of_neg (by simp)]
      exact List.filter_eq_self.mpr fun m hm => decide_eq_true (hne m hm)
    refine ⟨⟨[], ?_, fun _ hm => absurd hm List.not_mem_nil⟩, ?_⟩
    · rw [hwaiting, List.nil_append]
    · rw [hwaiting, firstHandouts_hand, if_neg hfront, harrivals, ← horder, ← hitems,
        List.append_assoc]
      rfl
  | cons m returned =>
    -- it was put back, and those that wait are the same
    rw [List.map_cons, List.cons_append, List.cons.injEq] at hitems
    obtain ⟨rfl, hrest⟩ := hitems
    rw [List.forall_mem_cons] at hreturned
    have hwaiting : waiting queue (ds ++ [.hand queue item.data]) = waiting queue ds := by
      rw [waiting_hand]
      refine List.filter_eq_self.mpr fun m hm => decide_eq_true fun heq => ?_
      exact hnot m hm (heq ▸ hreturned.1)
    refine ⟨⟨returned, ?_, fun m hm => hsame m (hreturned.2 m hm)⟩, ?_⟩
    · rw [hwaiting, hrest]
    · rw [hwaiting, firstHandouts_hand, if_pos hreturned.1, harrivals, horder]

end Ordered

/-! ### The invariant of a run -/

/-- No deed was done with the message at a queue whose name is longer. -/
def Below (ds : List (Deed α)) (queue : String) (m : α) : Prop :=
  ∀ d ∈ ds, d.message = m → d.queue.length ≤ queue.length

theorem length_dlqName (name : String) : (dlqName name).length = name.length + 4 := by
  rw [dlqName, String.length_append]
  rfl

namespace Below

variable {ds ds' : List (Deed α)} {queue : String} {m : α}

theorem append (h : Below ds queue m) (h' : Below ds' queue m) : Below (ds ++ ds') queue m := by
  intro d hd hm
  rcases List.mem_append.mp hd with hd | hd
  · exact h d hd hm
  · exact h' d hd hm

/-- Deeds done with other messages. -/
theorem of_ne (h : ∀ d ∈ ds, d.message ≠ m) : Below ds queue m := fun d hd hm =>
  absurd hm (h d hd)

/-- Deeds done at this queue. -/
theorem of_queue (h : ∀ d ∈ ds, d.queue = queue) : Below ds queue m := fun d hd _ =>
  (congrArg String.length (h d hd)).le

/-- The message moves on to the dead-letter queue, -/
theorem dlq (h : Below ds queue m) : Below ds (dlqName queue) m := by
  intro d hd hm
  rw [length_dlqName]
  exact (h d hd hm).trans (Nat.le_add_right _ 4)

/-- from which it was not handed out yet. -/
theorem not_mem_handouts (h : Below ds queue m) : m ∉ handouts (dlqName queue) ds := by
  intro hm
  have hle := h _ (mem_handouts.mp hm) rfl
  rw [Deed.queue, length_dlqName] at hle
  omega

end Below

section Acts

variable [DecidableEq α] {ds : List (Deed α)} {s : InMemoryStorage α}

/-- A message that waits in a queue, or was taken from it, has not been in one with a longer name;
and what was taken from a queue was handed out from it. -/
theorem Below.rule : MessageRule (α := α) Below
    fun ds q m => Below ds q m ∧ m ∈ handouts q ds where
  waits_other h hne := h.append (.of_ne hne)
  taken_other h hne := by
    refine ⟨h.1.append (.of_ne hne), ?_⟩
    rw [handouts_append]
    exact List.mem_append_left _ h.2
  enqueue hne _ := (Below.of_ne hne).append (.of_queue fun _ hd => queue_of_mem_enqueue hd)
  hand {ds q m} h := by
    refine ⟨h.append (.of_queue fun d hd => ?_), ?_⟩
    · rw [List.mem_singleton.mp hd]
      rfl
    · exact mem_handouts.mpr (List.mem_append_right _ List.mem_cons_self)
  bury _ _ h := by
    refine h.1.dlq.append (.of_queue fun d hd => ?_)
    rw [List.mem_singleton.mp hd]
    rfl
  giveBack _ _ h := h.1

/-- Every queue is in order. A dead letter is new to its queue because it was `Below`. -/
structure InOrder (ds : List (Deed α)) (s : InMemoryStorage α) : Prop where
  below : Everywhere Below (fun ds q m => Below ds q m ∧ m ∈ handouts q ds) ds s
  ordered : ∀ q, Ordered q ds (s.items q)

/-- **Acts keep the queues in order.** -/
theorem Ordered.act {s' : InMemoryStorage α} {ds' : List (Deed α)} (hc : Chronicle ds s)
    (h : InOrder ds s) (ha : Act s s' ds') (hfresh : (enqueuedBy (ds ++ ds')).Nodup)
    (q : String) : Ordered q (ds ++ ds') (s'.items q) := by
  have hq := h.ordered q
  -- One case for each act; in each, the queue is the one it is done at or another one.
  cases ha with
  | @create name hn => rwa [List.append_nil, s.items_setQueue_nil hn]
  | @enqueue name old items hl =>
    rw [InMemoryStorage.items_setQueue]
    split
    · next hname =>
      subst hname
      rw [InMemoryStorage.items_of_lookup hl] at hq
      have hdata : (items.map fun d => (⟨d, 0⟩ : QueueItem α)).map QueueItem.data = items := by
        rw [List.map_map, Function.comp_def, List.map_id']
      -- a new message was in no deed so far
      refine hq.arrive ?_ (handouts_enqueue items) ?_
      · rw [arrivals_enqueue, hdata]
      · rw [hdata]
        intro m hm hhand
        exact hc.message_ne hfresh hm (mem_handouts.mp hhand) rfl
    · next hname =>
      exact hq.elsewhere fun d hd => queue_of_mem_enqueue hd ▸ Ne.symm hname
  | @hand name item rest id now hl =>
    change Ordered q _ ((s.setQueue name rest).items q)
    rw [InMemoryStorage.items_setQueue]
    split
    · next hname =>
      subst hname
      rw [InMemoryStorage.items_of_lookup hl] at hq
      -- no other item of the queue has the message of the front one
      refine hq.hand fun m hm => hc.front_ne hl ?_
      obtain ⟨other, hmem, rfl⟩ := List.mem_map.mp hm
      have hother : other ∈ (s.setQueue q rest).items q := by
        rwa [InMemoryStorage.items_setQueue, if_pos rfl]
      exact InMemoryStorage.mem_messages_of_items hother
    · next hname =>
      refine hq.elsewhere fun d hd => ?_
      rw [List.mem_singleton.mp hd]
      exact Ne.symm hname
  | drop id => rwa [List.append_nil]
  | @bury id task hl hx =>
    rw [InMemoryStorage.items_setQueue]
    split
    · next hname =>
      -- the message was handed out only from queues with shorter names
      subst hname
      refine hq.arrive (arrivals_bury task.data) rfl fun m hm => ?_
      rw [List.map_singleton, List.mem_singleton] at hm
      rw [hm]
      exact (h.below.inFlight hl).1.not_mem_handouts
    · next hname =>
      refine hq.elsewhere fun d hd => ?_
      rw [List.mem_singleton.mp hd]
      exact Ne.symm hname
  | @giveBack id task old hl hx hlookup =>
    rw [List.append_nil, InMemoryStorage.items_setQueue]
    split
    · next hname =>
      subst hname
      rw [InMemoryStorage.items_of_lookup hlookup] at hq
      exact hq.giveBack (h.below.inFlight hl).2
    · exact hq

theorem InOrder.keptByActs : KeptByActs (InOrder (α := α)) where
  sameState h hs := ⟨h.below.sameState hs, fun q => hs.items q ▸ h.ordered q⟩
  act hc h ha hfresh :=
    ⟨Below.rule.keptByActs.act hc h.below ha hfresh, Ordered.act hc h ha hfresh⟩

end Acts

/-- **Arrival order is delivery order.** After every run, whatever becomes of its appends, a queue
holds first messages that it handed out and that were put back, and behind them those that have
arrived and were never handed out from it, in the order of their arrival. The messages that were
handed out from it had their first hand-outs in the order in which they arrived, before all that
still wait. -/
theorem InMemoryStorage.arrival_order [DecidableEq α] (persistent : Bool) (envs : ℕ → Env)
    (events : List ((ℕ → Env) × Call α)) (queue : String) :
    Ordered queue (chronicle persistent envs events).2
      ((chronicle persistent envs events).1.items queue) :=
  (InOrder.keptByActs.run ⟨.nil, fun _ => .nil⟩ persistent envs events).2.ordered queue

end Oxideq
