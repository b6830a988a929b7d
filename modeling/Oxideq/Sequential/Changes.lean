import Oxideq.Sequential.Deeds

/-!
# Elementary changes

What a sequential run does to the tables, one entry at a time. Every call, whatever it is given
and whatever becomes of its appends, is a list of elementary changes (`call_changes`):

* a queue is created where there is none;
* payloads arrive at the back of a queue;
* the front item of a queue is handed out under some id;
* a task is taken out of flight, for good or to go back to a queue.

The end of a process whose store has no log is one more: everything is forgotten.

A `Tally` is what a run has done for its clients: the payloads enqueued, each with its queue, and
the payloads handed out, once for every time. A call's share of it is read off its reply
(`Call.tally`), so a statement about tallies is about what clients see. Each elementary change
has its share too, and `call_changes` says that the two agree. An invariant that relates tables
and tallies then has six cases, not one for each branch of each method.
-/

namespace Oxideq

variable {α : Type}

/-! ### Tallies -/

/-- What was enqueued, with the queue it was enqueued into, and what was handed out. -/
structure Tally (α : Type) where
  enqueued : List (α × String)
  handed : List α

namespace Tally

def nothing : Tally α := ⟨[], []⟩

def append (t u : Tally α) : Tally α := ⟨t.enqueued ++ u.enqueued, t.handed ++ u.handed⟩

@[simp] theorem nothing_append (t : Tally α) : nothing.append t = t := rfl

@[simp] theorem append_nothing (t : Tally α) : t.append nothing = t := by
  simp [append, nothing]

theorem append_assoc (t u v : Tally α) : (t.append u).append v = t.append (u.append v) := by
  simp [append, List.append_assoc]

end Tally

/-- What a call has done for its client, by its reply. -/
def Call.tally : Call α → Outcome (Reply α) → Tally α
  | .queue name item, .ok _ => ⟨[(item, name)], []⟩
  | .queueBatch name items, .ok _ => ⟨items.map fun d => (d, name), []⟩
  | .dequeue _, .ok (.delivered (some task)) => ⟨[], [task.data]⟩
  | .dequeueBatch _ _, .ok (.deliveredBatch tasks) => ⟨[], tasks.map InFlightTask.data⟩
  | _, _ => .nothing

/-! ### Changes -/

/-- The queue `nack` returns a task to. -/
def InFlightTask.returnQueue (task : InFlightTask α) : String :=
  if task.exhausted then dlqName task.queueName else task.queueName

/-- One change of the tables, and its share of the tally. -/
inductive Change (s : InMemoryStorage α) : InMemoryStorage α → Tally α → Prop
  | create {name : String} (h : name ∉ s.queues) : Change s (s.setQueue name []) .nothing
  | push {name : String} {old : List (QueueItem α)} (items : List α)
    (h : s.queues.lookup name = some old) :
    Change s (s.setQueue name (old ++ items.map fun d => ⟨d, 0⟩))
      ⟨items.map fun d => (d, name), []⟩
  | hand {name : String} {item : QueueItem α} {rest : List (QueueItem α)} (id : String)
    (now : Int) (h : s.queues.lookup name = some (item :: rest)) :
    Change s ((s.setQueue name rest).putTask (.deliver id name now item)) ⟨[], [item.data]⟩
  | drop (id : String) : Change s (s.dropTask id) .nothing
  | requeue {id : String} {task : InFlightTask α} {s' : InMemoryStorage α}
    (hl : s.inFlight.lookup id = some task) (hr : (s.dropTask id).requeue task = .ok s') :
    Change s s' .nothing
  | forget : Change s .new .nothing

/-- A list of changes. What is not in the tables, and the clock readings, may differ at every
point of it. -/
inductive Changes : InMemoryStorage α → InMemoryStorage α → Tally α → Prop
  | same {s s' : InMemoryStorage α} (h : SameState s s') : Changes s s' .nothing
  | step {s r r' s' : InMemoryStorage α} {t u : Tally α} (hs : SameState s r)
    (h : Change r r' t) (h' : Changes r' s' u) : Changes s s' (t.append u)

namespace Changes

variable {s r s' s'' : InMemoryStorage α} {t u : Tally α}

theorem refl (s : InMemoryStorage α) : Changes s s .nothing := .same (SameState.refl s)

theorem cons (h : Change s s' t) (h' : Changes s' s'' u) : Changes s s'' (t.append u) :=
  .step (SameState.refl s) h h'

theorem of_change (h : Change s s' t) : Changes s s' t := by
  have hc := cons h (refl s')
  rwa [Tally.append_nothing] at hc

/-- The tables a list of changes ends with may be those of another store, -/
theorem sameState (h : Changes s s' t) (hs : SameState s' s'') : Changes s s'' t := by
  induction h with
  | same h => exact .same (h.trans hs)
  | step hs' h _ ih => exact .step hs' h (ih hs)

/-- and so may the tables it starts from. -/
theorem of_sameState (hs : SameState s r) (h : Changes r s' t) : Changes s s' t := by
  cases h with
  | same h => exact .same (hs.trans h)
  | step hs' h h' => exact .step (hs.trans hs') h h'

theorem trans (h : Changes s s' t) (h' : Changes s' s'' u) : Changes s s'' (t.append u) := by
  induction h with
  | same h => exact h'.of_sameState h
  | step hs h _ ih =>
    rw [Tally.append_assoc]
    exact .step hs h (ih h')

end Changes

/-! ### The changes of a call -/

namespace Tally

/-- What clients see of a list of deeds: where a message is buried they do not. -/
def ofDeeds (ds : List (Deed α)) : Tally α where
  enqueued := ds.filterMap fun
    | .enqueue queue m => some (m, queue)
    | .hand _ _ => none
    -- a message that is buried arrives in a queue, but no client put it there
    | .bury _ _ => none
  handed := ds.filterMap fun
    | .enqueue _ _ => none
    | .hand _ m => some m
    | .bury _ _ => none

theorem ofDeeds_append (ds ds' : List (Deed α)) :
    ofDeeds (ds ++ ds') = (ofDeeds ds).append (ofDeeds ds') := by
  simp only [ofDeeds, append, List.filterMap_append]

theorem ofDeeds_enqueue (name : String) (items : List α) :
    ofDeeds (items.map (.enqueue name)) = ⟨items.map fun d => (d, name), []⟩ := by
  simp only [ofDeeds, List.filterMap_map, Function.comp_def]
  rw [List.filterMap_eq_map', List.filterMap_none]

theorem ofDeeds_hand (name : String) (tasks : List (InFlightTask α)) :
    ofDeeds (tasks.map fun task => .hand name task.data)
      = ⟨[], tasks.map InFlightTask.data⟩ := by
  simp only [ofDeeds, List.filterMap_map, Function.comp_def]
  rw [List.filterMap_eq_map', List.filterMap_none]

end Tally

namespace InMemoryStorage

theorem tally_buried (s : InMemoryStorage α) (taskId : String) :
    Tally.ofDeeds (s.buried taskId) = .nothing := by
  unfold buried
  cases s.inFlight.lookup taskId with
  | none => rfl
  | some task =>
    simp only
    split <;> rfl

theorem tally_nackAllDeeds (s : InMemoryStorage α) (envs : ℕ → Env) (ids : List String) :
    Tally.ofDeeds (s.nackAllDeeds envs ids) = .nothing := by
  induction ids generalizing s envs with
  | nil => rfl
  | cons id ids ih =>
    rw [nackAllDeeds, Tally.ofDeeds_append, ih, Tally.append_nothing]
    split
    · exact s.tally_buried id
    · rfl

/-- The reply to a call shows its client the tally of its deeds. -/
theorem tally_deeds (s : InMemoryStorage α) (envs : ℕ → Env) (c : Call α)
    (r : Outcome (Reply α)) : Tally.ofDeeds (c.deeds s envs r) = c.tally r := by
  cases r with
  | err e => cases c <;> rfl
  | panic => cases c <;> rfl
  | ok reply =>
    cases c with
    | createQueue name => rfl
    | queue name item => rfl
    | queueBatch name items => exact Tally.ofDeeds_enqueue name items
    | dequeue name =>
      cases reply with
      | delivered task => cases task <;> rfl
      | done => rfl
      | deliveredBatch tasks => rfl
      | cleaned n => rfl
    | dequeueBatch name count =>
      cases reply with
      | deliveredBatch tasks => exact Tally.ofDeeds_hand name tasks
      | delivered task => rfl
      | done => rfl
      | cleaned n => rfl
    | ack taskId => rfl
    | ackBatch taskIds => rfl
    | nack taskId => exact s.tally_buried taskId
    | extendVisibility taskId duration => rfl
    | cleanupExpiredTasks timeoutSeconds =>
      simp only [Call.deeds, Call.tally]
      split
      · exact s.tally_nackAllDeeds _ _
      · rfl

end InMemoryStorage

/-- An act is an elementary change. -/
theorem Act.change {s s' : InMemoryStorage α} {ds : List (Deed α)} (h : Act s s' ds) :
    Change s s' (.ofDeeds ds) := by
  cases h with
  | create h => exact .create h
  | enqueue items h =>
    rw [Tally.ofDeeds_enqueue]
    exact .push items h
  | hand id now h => exact .hand id now h
  | drop id => exact .drop id
  | @bury id task hl hx =>
    have hr : (s.dropTask id).requeue task
        = .ok ((s.dropTask id).setQueue (dlqName task.queueName)
          (s.items (dlqName task.queueName) ++ [task.item])) := by
      rw [InMemoryStorage.requeue, if_pos hx]
      rfl
    exact .requeue hl hr
  | @giveBack id task old hl hx hq =>
    have hr : (s.dropTask id).requeue task
        = .ok ((s.dropTask id).setQueue task.queueName (task.item :: old)) := by
      rw [InMemoryStorage.requeue, if_neg (Bool.not_eq_true _ ▸ hx),
        show (s.dropTask id).queues.lookup task.queueName = some old from hq]
    exact .requeue hl hr

theorem Acts.changes {s s' : InMemoryStorage α} {ds : List (Deed α)} (h : Acts s s' ds) :
    Changes s s' (.ofDeeds ds) := by
  induction h with
  | same h => exact .same h
  | step hs h _ ih =>
    rw [Tally.ofDeeds_append]
    exact .step hs h.change ih

/-- **A call is a list of elementary changes**, with the share of the tally its reply shows. -/
theorem InMemoryStorage.call_changes (envs : ℕ → Env) (s : InMemoryStorage α) (c : Call α) :
    Changes s (s.call envs c).2 (c.tally (s.call envs c).1) := by
  rw [← s.tally_deeds envs c]
  exact (s.call_acts envs c).changes

end Oxideq
