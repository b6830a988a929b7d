import Oxideq.Concurrent.Threads
import Oxideq.Lib.Lifetimes

/-!
# One outcome per delivery

A server process with its log file: calls other than `ack_batch` come and go on its threads, and
now and then the process stops, wherever its calls stand, and a new one opens the file
(`Process.system`).

A delivery begins with the entry that gives the task its id and ends with the `Ack` or `Nack` entry
for that id. In every such run, however the steps of the calls interleave, the log tells of each
delivery in that order and each of them is settled at most once (`Process.oneOutcome_run`).

What carries the argument is where an id can be. It is *fresh* in the hand of a call that has drawn
it and not logged it. It is *live* when its delivery is logged and not settled: in the in-flight
table, or in the hand of one call, which is about to put it there (`dequeue`, behind its entry) or
has taken it from there (`ack`, `nack`, before theirs). It is *spent* in the hand of a call that
has settled it and not returned. At no time is an id in two of these places (`Process.Books`), and
a step moves it from one to the next (`Phase.Passage`). Only who has an id in hand settles it, and
that it can do once.

A heartbeat takes nothing out of the table. It keeps the entry of its task locked instead, so that
the task is still there when its own entry is written (`Pc.Move.guarded`).
-/

namespace Oxideq

variable {ι α : Type}

/-! ### The log -/

namespace WalOp

/-- The ids it gives to tasks. -/
def introduces : WalOp α → List String
  | .dequeued _ taskId => [taskId]
  | .dequeuedBatch _ taskIds => taskIds
  | _ => []

/-- The ids it takes to be in flight, of those an entry names one by one. -/
def refersTo : WalOp α → List String
  | .ack taskId => [taskId]
  | .nack taskId => [taskId]
  | .extendVisibility taskId _ => [taskId]
  | _ => []

/-- The ids whose delivery it ends. -/
def settles : WalOp α → List String
  | .ack taskId => [taskId]
  | .nack taskId => [taskId]
  | _ => []

def taskIds : WalOp α → List String
  | .ackBatch taskIds => taskIds
  | op => op.introduces ++ op.refersTo

/-- A delivery, from the entry that introduces its id to the one that settles it. -/
def deliveries : Vocabulary (WalOp α) String where
  opens := introduces
  uses := refersTo
  closes := settles
  names := taskIds
  opens_subset op := by cases op <;> simp [introduces, taskIds]
  uses_subset op := by cases op <;> simp [refersTo, taskIds]
  closes_subset op := by cases op <;> simp [settles, refersTo]

/-- Every `Ack`, `Nack` and `ExtendVisibility` entry comes behind the entry that introduces its id,
no entry names an id behind its `Ack` or `Nack`, and no id is introduced twice. -/
abbrev LogWellFormed (ops : List (WalOp α)) : Prop := deliveries.WellFormed ops

end WalOp

/-! ### The process -/

/-- A server process: the entries its log file held when it was opened, the store and the
threads. -/
structure Process (ι α : Type) where
  past : List (WalEntry α)
  config : Config ι α

namespace Process

/-- The entries of the log file now. -/
def log (p : Process ι α) : List (WalEntry α) := p.past ++ p.config.store.written

def ops (p : Process ι α) : List (WalOp α) := p.log.map WalEntry.op

/-- A process that opens a file with the given entries. -/
def start (envs : ℕ → Env) (entries : List (WalEntry α)) : Process ι α :=
  ⟨entries, ⟨InMemoryStorage.recover envs entries, fun _ => Thread.vacant⟩⟩

/-- What happens to a process.

* `call`: a thread without a call running is given one.
* `step`: a call takes a step.
* `restart`: the process stops and the next one opens the file. -/
inductive Event (ι α : Type) where
  | call (i : ι) (c : Call α)
  | step (i : ι) (env : Env)
  | restart (envs : ℕ → Env)

variable [Fintype ι] [DecidableEq ι]

/-- **The process.** -/
def system (ι α : Type) [Fintype ι] [DecidableEq ι] : System (Process ι α) (Event ι α) where
  step p ev :=
    match ev with
    | .call i c =>
      if (p.config.threads i).idle then some { p with config := p.config.callAt i c } else none
    | .step i env =>
      ((Config.machine ι α).step p.config (i, env)).map fun σ => { p with config := σ }
    | .restart envs => some (start envs p.log)

end Process

/-! ### The record -/

def Call.isAckBatch : Call α → Bool
  | .ackBatch _ => true
  | _ => false

namespace Pc

/-- The ids a step draws for deliveries. -/
def draws (pc pc' : Pc α) : List String := (pc.begun pc').map InFlightTask.id

/-- The ids whose `ack` or `nack` returns `Ok` with the step; a cleanup makes one `nack` after the
other. -/
def succeeds : Pc α → Pc α → List String
  | .apply (.ack taskId), .done (.ok .done) => [taskId]
  | .apply (.nack taskId _), .done (.ok .done) => [taskId]
  | _, _ => []

end Pc

namespace Process

/-- What happened in a run: the ids drawn so far, and the ids of each `ack` and `nack` that
succeeded. Those the file tells of at the start are included. -/
structure Account where
  drawn : List String
  outcomes : List String

variable [Fintype ι] [DecidableEq ι]

/-- The record at the start. -/
def Account.start (entries : List (WalEntry α)) : Account where
  drawn := WalOp.deliveries.opened (entries.map WalEntry.op)
  outcomes := WalOp.deliveries.closed (entries.map WalEntry.op)

/-- The record after an event. -/
def Account.extend (p : Process ι α) (ev : Event ι α) (g : Account) : Account :=
  match ev with
  | .step i env =>
    let pc := p.config.pc i
    let pc' := (pc.step p.config.store env).2
    ⟨pc.draws pc' ++ g.drawn, pc.succeeds pc' ++ g.outcomes⟩
  | _ => g

def recorded (ι α : Type) [Fintype ι] [DecidableEq ι] :
    System (Process ι α × Account) (Event ι α) :=
  (system ι α).recording Account.extend

/-- No batch is acknowledged, and the ids drawn in a step are new. -/
def Regular (s : Process ι α × Account) : Event ι α → Prop
  | .call _ c => ¬ c.isAckBatch
  | .step i env =>
    let pc := s.1.config.pc i
    let ids := pc.draws (pc.step s.1.config.store env).2
    ids.Nodup ∧ ∀ id ∈ ids, id ∉ s.2.drawn
  | .restart _ => True

instance (s : Process ι α × Account) : ∀ ev, Decidable (Regular s ev)
  | .call _ c => inferInstanceAs (Decidable (¬ c.isAckBatch))
  | .step _ _ => inferInstanceAs (Decidable (_ ∧ _))
  | .restart _ => inferInstanceAs (Decidable True)

end Process

/-! ### Ids in hand -/

namespace Work

/-- The ids of the tasks the work hands out. -/
def handsOut : Work α → List String
  | .dequeue _ _ taskId => [taskId]
  | .dequeueBatch _ deliveries => deliveries.map Prod.fst
  | _ => []

/-- The ids of the tasks whose delivery it settles. -/
def concludes : Work α → List String
  | .ack taskId => [taskId]
  | .nack taskId _ => [taskId]
  | _ => []

theorem introduces_op (w : Work α) : w.op.introduces = w.handsOut := by
  cases w <;> rfl

theorem settles_op (w : Work α) : w.op.settles = w.concludes := by
  cases w <;> rfl

/-- An entry refers to a task whose delivery it settles, or which the call keeps locked. -/
theorem mem_refersTo_op {w : Work α} {id : String} (h : id ∈ w.op.refersTo) :
    id ∈ w.concludes ∨ w.taskGuard = some id := by
  cases w with
  | ack taskId => exact Or.inl h
  | nack taskId task => exact Or.inl h
  | extendVisibility taskId duration =>
    rw [List.mem_singleton.mp h]
    exact Or.inr rfl
  | _ => cases h

theorem mem_taskIds_op {w : Work α} (hbatch : ∀ taskIds, w ≠ .ackBatch taskIds) {id : String}
    (h : id ∈ w.op.taskIds) : id ∈ w.op.introduces ∨ id ∈ w.op.refersTo := by
  cases w with
  | ackBatch taskIds => exact absurd rfl (hbatch taskIds)
  | _ => exact List.mem_append.mp h

def ids (w : Work α) : List String := w.handsOut ++ w.concludes

end Work

namespace Phase

/-- Drawn and not logged. -/
def fresh : Phase α → List String
  | .unlogged w => w.handsOut
  | _ => []

/-- Logged and not settled, and not in the table. -/
def live : Phase α → List String
  | .idle => []
  | .unlogged w => w.concludes
  | .logged w => w.handsOut

/-- Settled by a call that has not returned. -/
def spent : Phase α → List String
  | .logged w => w.concludes
  | _ => []

/-- All of them. -/
def ids : Phase α → List String
  | .idle => []
  | .unlogged w => w.ids
  | .logged w => w.ids

theorem ids_eq (p : Phase α) : p.ids = p.fresh ++ p.live ++ p.spent := by
  cases p <;> simp [ids, fresh, live, spent, Work.ids]

theorem mem_ids {p : Phase α} {id : String} :
    id ∈ p.ids ↔ id ∈ p.fresh ∨ id ∈ p.live ∨ id ∈ p.spent := by
  rw [ids_eq, List.mem_append, List.mem_append, or_assoc]

theorem ids_of_live {p : Phase α} (hf : p.fresh = []) (hs : p.spent = []) : p.ids = p.live := by
  rw [ids_eq, hf, hs, List.nil_append, List.append_nil]

theorem nodup_live {p : Phase α} (h : p.ids.Nodup) : p.live.Nodup := by
  cases p with
  | idle => exact List.nodup_nil
  | unlogged w => exact h.of_append_right
  | logged w => exact h.of_append_left

theorem nodup_spent {p : Phase α} (h : p.ids.Nodup) : p.spent.Nodup := by
  cases p with
  | idle => exact List.nodup_nil
  | unlogged w => exact List.nodup_nil
  | logged w => exact h.of_append_right

/-- From the tables `s` to the tables `s'` by a step from phase to phase, on which the ids `drawn`
are drawn, `ops` logged, and the calls for `outcomes` return `Ok`. -/
inductive Passage (s s' : InMemoryStorage α) (drawn : List String) (ops : List (WalOp α))
    (outcomes : List String) : Phase α → Phase α → Prop
  | rest {p p' : Phase α} (hs : ∀ id ∈ s'.inFlight, id ∈ s.inFlight) (hd : drawn = [])
    (ho : ops = []) (hp : p'.ids = [] ∧ (outcomes = [] ∨ outcomes = p.spent) ∨
      p' = p ∧ outcomes = []) : Passage s s' drawn ops outcomes p p'
  | draw {w : Work α} (hs : ∀ id ∈ s'.inFlight, id ∈ s.inFlight) (hd : drawn = w.handsOut)
    (ho : ops = []) (hw : w.concludes = []) (hout : outcomes = []) :
    Passage s s' drawn ops outcomes .idle (.unlogged w)
  | take {w : Work α} {id : String} (hid : id ∈ s.inFlight)
    (hs : ∀ id' ∈ s'.inFlight, id' ∈ s.inFlight ∧ id' ≠ id) (hd : drawn = []) (ho : ops = [])
    (hw : w.handsOut = []) (hc : w.concludes = [id]) (hout : outcomes = []) :
    Passage s s' drawn ops outcomes .idle (.unlogged w)
  | log {w : Work α} (hs : ∀ id ∈ s'.inFlight, id ∈ s.inFlight) (hd : drawn = [])
    (ho : ops = [w.op]) (hout : outcomes = []) :
    Passage s s' drawn ops outcomes (.unlogged w) (.logged w)
  | put {p p' : Phase α} {id : String} (hs : ∀ id' ∈ s'.inFlight, id' = id ∨ id' ∈ s.inFlight)
    (hd : drawn = []) (ho : ops = []) (hlive : p.live = id :: p'.live)
    (hfresh : p'.fresh = []) (hspent : p'.spent = []) (hout : outcomes = []) :
    Passage s s' drawn ops outcomes p p'

end Phase

namespace Pc

variable {s : InMemoryStorage α} {env : Env} {pc pc' : Pc α} {a : Access α}

theorem draws_of_begun (h : pc.begun pc' = []) : pc.draws pc' = [] := by
  rw [draws, h, List.map_nil]

/-- **Every step moves the ids from one place to the next.** -/
theorem Move.passage (hm : Move s env pc a pc') (hwal : s.wal.isSome) :
    Phase.Passage s (a.run s env) (pc.draws pc') a.ops (pc.succeeds pc') pc.phase pc'.phase := by
  have hlog : ∀ w : Work α, (toLog s w).phase = .unlogged w := fun w => by
    rw [phase_toLog, if_pos hwal]
  have hmem : ∀ {id}, id ∈ s.inFlight → id ∈ s.inFlight := fun h => h
  cases hm with
  | @reject c r hr hack =>
    have hbegun : begun (.start c) (.done r : Pc α) = [] := by cases c <;> rfl
    exact .rest (fun _ => hmem) (draws_of_begun hbegun) rfl (Or.inl ⟨rfl, Or.inl rfl⟩)
  -- nothing in hand
  | scan | ackBatch | verify | unverified | beginRemove | removedTasks | scanned | done =>
    exact .rest (fun _ => hmem) rfl rfl (Or.inl ⟨rfl, Or.inl rfl⟩)
  -- a call begins: it draws its ids, or takes one out of the table
  | createQueue h | queue h | queueBatch h | extendVisibility h | verified =>
    rw [hlog]
    exact .draw (fun _ => hmem) rfl rfl rfl rfl
  | dequeue h =>
    rw [hlog]
    exact .draw (fun _ => hmem) (by simp [draws, begun, hlog, Work.handsOut, InFlightTask.deliver])
      rfl rfl rfl
  | dequeueBatch h hcap hd hne =>
    rw [hlog]
    refine .draw (fun _ => hmem) ?_ rfl rfl rfl
    simp [draws, begun, hlog, Work.handsOut, InFlightTask.deliver, Function.comp_def]
  | @ack id task h | @nack id task h =>
    rw [hlog]
    refine .take (Finmap.mem_iff.mpr ⟨task, h⟩) (fun id' hid' => ?_) rfl rfl rfl rfl rfl
    exact (Finmap.mem_erase.mp hid').symm
  | acquire => exact .rest (fun _ => hmem) rfl rfl (Or.inr ⟨rfl, rfl⟩)
  | append h =>
    rw [phase_afterLog]
    exact .log (fun _ => hmem) rfl rfl rfl
  | @appendFails w e h =>
    obtain hf | ⟨hw, e', hf⟩ := failLog_cases e w
    · rw [hf]
      exact .rest (fun _ => hmem) rfl rfl (Or.inr ⟨rfl, rfl⟩)
    · rw [hf]
      exact .rest (fun _ => hmem) rfl rfl (Or.inl ⟨rfl, Or.inl rfl⟩)
  -- the way back: what was drawn is given up, what was taken is put back
  | undoDequeue | undoDequeueBatch | undoNothing =>
    exact .rest (fun _ => hmem) rfl rfl (Or.inl ⟨rfl, Or.inl rfl⟩)
  | undoNack => exact .put (fun _ => Finmap.mem_insert.mp) rfl rfl rfl rfl rfl rfl
  -- behind the log: a delivery comes into the table
  | insertTask | insertTasks =>
    exact .put (fun _ => Finmap.mem_insert.mp) rfl rfl rfl rfl rfl rfl
  | beginInsert => exact .rest (fun _ => hmem) rfl rfl (Or.inr ⟨rfl, rfl⟩)
  | insertedTasks | insertQueue | push | pushBatch | untouched =>
    exact .rest (fun _ => hmem) rfl rfl (Or.inl ⟨rfl, Or.inl rfl⟩)
  -- an `ack` or a `nack` returns, and only here with `Ok`
  | acked | bury | requeue => exact .rest (fun _ => hmem) rfl rfl (Or.inl ⟨rfl, Or.inr rfl⟩)
  | @lost w name e hw h =>
    have hnone : succeeds (.apply w) (.done (.err e) : Pc α) = [] := by cases w <;> rfl
    exact .rest (fun _ => hmem) rfl rfl (Or.inl ⟨rfl, Or.inl hnone⟩)
  -- the entry that is written back was there
  | @touch id duration task h =>
    refine .rest (fun id' hid' => ?_) rfl rfl (Or.inl ⟨rfl, Or.inl rfl⟩)
    rcases Finmap.mem_insert.mp hid' with rfl | hid'
    · exact Finmap.mem_iff.mpr ⟨task, h⟩
    · exact hid'
  | removeTasks =>
    refine .rest (fun id' hid' => ?_) rfl rfl (Or.inl ⟨rfl, Or.inl rfl⟩)
    exact (Finmap.mem_erase.mp hid').2

/-! ### The guard of a heartbeat -/

@[simp] theorem taskGuard_afterLog (w : Work α) : (afterLog w).taskGuard = w.taskGuard := by
  cases w <;> rfl

@[simp] theorem taskGuard_toLog (s : InMemoryStorage α) (w : Work α) :
    (toLog s w).taskGuard = w.taskGuard := by
  unfold toLog
  split
  · rfl
  · exact taskGuard_afterLog w

theorem taskGuard_failLog (e : String) (w : Work α) : (failLog e w).taskGuard = none := by
  cases w <;> rfl

/-- What a heartbeat keeps locked is in the table: it was found there, and its own steps up to the
log do not touch the table. -/
theorem Move.guarded (hm : Move s env pc a pc')
    (h : ∀ id, pc.taskGuard = some id → id ∈ s.inFlight) :
    ∀ id, pc'.taskGuard = some id → id ∈ (a.run s env).inFlight := by
  intro id hid
  cases hm with
  | @extendVisibility id' duration task hl =>
    rw [taskGuard_toLog, Work.taskGuard, Option.some_inj] at hid
    exact hid ▸ Finmap.mem_iff.mpr ⟨task, hl⟩
  | acquire => exact h id hid
  | append happ =>
    rw [taskGuard_afterLog] at hid
    exact h id hid
  | appendFails happ =>
    rw [taskGuard_failLog] at hid
    cases hid
  | createQueue | queue | queueBatch | dequeue | dequeueBatch | ack | nack | verified =>
    rw [taskGuard_toLog] at hid
    cases hid
  | _ => cases hid

/-- Another call takes nothing out of the table that is locked. -/
theorem Move.mem_of_guard (hm : Move s env pc a pc') {id : String} (h : id ∈ s.inFlight)
    (hfree : id ∉ pc.taskAccess) : id ∈ (a.run s env).inFlight := by
  have hdrop : ∀ {id'}, id' ∈ pc.taskAccess → id ∈ (s.dropTask id').inFlight := by
    intro id' hid'
    refine Finmap.mem_erase.mpr ⟨?_, h⟩
    rintro rfl
    exact hfree hid'
  cases hm with
  | ack hl => exact hdrop rfl
  | nack hl => exact hdrop rfl
  | removeTasks => exact hdrop rfl
  | undoNack | insertTask | insertTasks => exact Finmap.mem_insert.mpr (Or.inr h)
  | touch hl => exact Finmap.mem_insert.mpr (Or.inr h)
  | _ => exact h

end Pc

/-- Where a thread goes on, its call keeps locked what it did, or nothing. -/
theorem Thread.taskGuard_resume {loop : Option (List String × ℕ)} {pc : Pc α} {id : String}
    (h : (Thread.resume loop pc).pc.taskGuard = some id) : pc.taskGuard = some id := by
  have hnext : ∀ (count : ℕ) (ids : List String),
      (Thread.next count ids : Thread α).pc.taskGuard = none := by
    intro count ids
    cases ids <;> rfl
  unfold Thread.resume at h
  split at h
  · rw [hnext] at h
    cases h
  · rw [hnext] at h
    cases h
  · rw [hnext] at h
    cases h
  · exact h

/-! ### The books -/

namespace Phase

/-- The ids in hand are where the books have them. -/
structure Fits (ops : List (WalOp α)) (s : InMemoryStorage α) (g : Process.Account)
    (p : Phase α) : Prop where
  fresh : ∀ id ∈ p.fresh, id ∈ g.drawn ∧ id ∉ WalOp.deliveries.opened ops
  live : ∀ id ∈ p.live, id ∈ WalOp.deliveries.opened ops ∧ id ∉ WalOp.deliveries.closed ops
  spent : ∀ id ∈ p.spent, id ∈ WalOp.deliveries.closed ops ∧ id ∉ g.outcomes
  nodup : p.ids.Nodup
  absent : ∀ id ∈ p.ids, id ∉ s.inFlight

namespace Fits

variable {ops new : List (WalOp α)} {s s' : InMemoryStorage α} {g g' : Process.Account}
  {p : Phase α}

/-- Nothing in hand. -/
theorem of_ids (h : p.ids = []) : p.Fits ops s g := by
  have hnone : ∀ id, ¬ (id ∈ p.fresh ∨ id ∈ p.live ∨ id ∈ p.spent) := by
    intro id hid
    rw [← mem_ids, h] at hid
    cases hid
  constructor
  · exact fun id hid => absurd (Or.inl hid) (hnone id)
  · exact fun id hid => absurd (Or.inr (Or.inl hid)) (hnone id)
  · exact fun id hid => absurd (Or.inr (Or.inr hid)) (hnone id)
  · rw [h]
    exact List.nodup_nil
  · intro id hid
    rw [h] at hid
    cases hid

/-- What happens to other ids. -/
theorem frame (h : p.Fits ops s g) (hopened : ∀ id ∈ p.ids, id ∉ WalOp.deliveries.opened new)
    (hclosed : ∀ id ∈ p.ids, id ∉ WalOp.deliveries.closed new)
    (hs : ∀ id ∈ p.ids, id ∉ s'.inFlight) (hd : ∀ id ∈ g.drawn, id ∈ g'.drawn)
    (hout : ∀ id ∈ p.ids, id ∈ g'.outcomes → id ∈ g.outcomes) : p.Fits (ops ++ new) s' g' := by
  constructor
  · intro id hid
    have hmem : id ∈ p.ids := mem_ids.mpr (Or.inl hid)
    rw [Vocabulary.opened_append, List.mem_append, not_or]
    exact ⟨hd id (h.fresh id hid).1, (h.fresh id hid).2, hopened id hmem⟩
  · intro id hid
    have hmem : id ∈ p.ids := mem_ids.mpr (Or.inr (Or.inl hid))
    rw [Vocabulary.opened_append, Vocabulary.closed_append, List.mem_append, List.mem_append,
      not_or]
    exact ⟨Or.inl (h.live id hid).1, (h.live id hid).2, hclosed id hmem⟩
  · intro id hid
    have hmem : id ∈ p.ids := mem_ids.mpr (Or.inr (Or.inr hid))
    rw [Vocabulary.closed_append, List.mem_append]
    exact ⟨Or.inl (h.spent id hid).1, fun ho => (h.spent id hid).2 (hout id hmem ho)⟩
  · exact h.nodup
  · exact hs

end Fits

end Phase

namespace Process

/-- Every id is in one place: drawn and in one hand, live in the table or in one hand, or
settled. -/
structure Books (ops : List (WalOp α)) (s : InMemoryStorage α) (g : Account)
    (phases : ι → Phase α) : Prop where
  log : WalOp.LogWellFormed ops
  drawn : ∀ id ∈ WalOp.deliveries.opened ops, id ∈ g.drawn
  inFlight : ∀ id ∈ s.inFlight,
    id ∈ WalOp.deliveries.opened ops ∧ id ∉ WalOp.deliveries.closed ops
  fits : ∀ i, (phases i).Fits ops s g
  apart : ∀ i j, i ≠ j → ∀ id ∈ (phases i).ids, id ∉ (phases j).ids
  outcomes : g.outcomes.Nodup
  settled : ∀ id ∈ g.outcomes, id ∈ WalOp.deliveries.closed ops

namespace Books

variable {ops new : List (WalOp α)} {s s' : InMemoryStorage α} {g : Account}
  {phases : ι → Phase α}

/-- Whatever is in hand was drawn. -/
theorem mem_drawn (h : Books ops s g phases) {i : ι} {id : String} (hid : id ∈ (phases i).ids) :
    id ∈ g.drawn := by
  obtain hid | hid | hid := Phase.mem_ids.mp hid
  · exact ((h.fits i).fresh id hid).1
  · exact h.drawn id ((h.fits i).live id hid).1
  · exact h.drawn id (h.log.opened_of_closed ((h.fits i).spent id hid).1)

variable [DecidableEq ι]

omit [DecidableEq ι] in
/-- What is in another hand is in none of the places a step of this one touches. -/
theorem other (h : Books ops s g phases) {i j : ι} (hj : j ≠ i) {id : String}
    (hid : id ∈ (phases j).ids) : id ∉ (phases i).ids ∧ id ∉ s.inFlight ∧ id ∈ g.drawn :=
  ⟨h.apart j i hj id hid, (h.fits j).absent id hid, h.mem_drawn hid⟩

omit [DecidableEq ι] in
/-- So it is where it was. -/
theorem fits_of_ne (h : Books ops s g phases) {i j : ι} (hj : j ≠ i) {drawn outcomes : List String}
    (hopened : ∀ id ∈ WalOp.deliveries.opened new, id ∈ (phases i).ids)
    (hclosed : ∀ id ∈ WalOp.deliveries.closed new, id ∈ (phases i).ids)
    (hs : ∀ id ∈ s'.inFlight, id ∈ s.inFlight ∨ id ∈ (phases i).ids)
    (hout : ∀ id ∈ outcomes, id ∈ (phases i).ids) :
    (phases j).Fits (ops ++ new) s' ⟨drawn ++ g.drawn, outcomes ++ g.outcomes⟩ := by
  have hother : ∀ id ∈ (phases j).ids, id ∉ (phases i).ids := fun id hid => (h.other hj hid).1
  refine (h.fits j).frame (fun id hid hn => hother id hid (hopened id hn))
    (fun id hid hn => hother id hid (hclosed id hn)) (fun id hid hn => ?_)
    (fun id hid => List.mem_append_right _ hid) fun id hid hn => ?_
  · exact (hs id hn).elim (h.other hj hid).2.1 (hother id hid)
  · exact (List.mem_append.mp hn).resolve_left fun hn => hother id hid (hout id hn)

/-- No id comes into two hands. -/
theorem apart_update (h : Books ops s g phases) {i : ι} {p' : Phase α}
    (hids : ∀ id ∈ p'.ids, id ∈ (phases i).ids ∨ id ∈ s.inFlight ∨ id ∉ g.drawn) (j k : ι)
    (hjk : j ≠ k) : ∀ id ∈ (Function.update phases i p' j).ids,
      id ∉ (Function.update phases i p' k).ids := by
  have hnew : ∀ j, j ≠ i → ∀ id ∈ (phases j).ids, id ∉ p'.ids := by
    intro j hj id hid hp
    obtain ⟨hi, ht, hd⟩ := h.other hj hid
    exact (hids id hp).elim hi (Or.rec ht fun hn => hn hd)
  intro id hid
  by_cases hj : j = i
  · have hk : k ≠ i := fun hk => hjk (hj.trans hk.symm)
    rw [hj, Function.update_self] at hid
    rw [Function.update_of_ne hk]
    exact fun hn => hnew k hk id hn hid
  · rw [Function.update_of_ne hj] at hid
    by_cases hk : k = i
    · rw [hk, Function.update_self]
      exact hnew j hj id hid
    · rw [Function.update_of_ne hk]
      exact h.apart j k hjk id hid

/-- A step of one thread: what it logs and what comes into the table was in its hand, and what it
has in hand afterwards was so before, or in the table, or is new. -/
theorem update (h : Books ops s g phases) {i : ι} {p' : Phase α} {drawn outcomes : List String}
    (hlog : WalOp.LogWellFormed (ops ++ new))
    (hopened : ∀ id ∈ WalOp.deliveries.opened new, id ∈ (phases i).ids)
    (hclosed : ∀ id ∈ WalOp.deliveries.closed new, id ∈ (phases i).ids)
    (hs : ∀ id ∈ s'.inFlight, id ∈ s.inFlight ∨ new = [] ∧ id ∈ (phases i).live)
    (hout : ∀ id ∈ outcomes, id ∈ (phases i).spent) (hnodup : outcomes.Nodup)
    (hids : ∀ id ∈ p'.ids, id ∈ (phases i).ids ∨ id ∈ s.inFlight ∨ id ∉ g.drawn)
    (hp' : p'.Fits (ops ++ new) s' ⟨drawn ++ g.drawn, outcomes ++ g.outcomes⟩) :
    Books (ops ++ new) s' ⟨drawn ++ g.drawn, outcomes ++ g.outcomes⟩
      (Function.update phases i p') := by
  have hlive : ∀ id ∈ (phases i).live, id ∈ (phases i).ids := fun id hid =>
    Phase.mem_ids.mpr (Or.inr (Or.inl hid))
  have hspent : ∀ id ∈ (phases i).spent, id ∈ (phases i).ids := fun id hid =>
    Phase.mem_ids.mpr (Or.inr (Or.inr hid))
  constructor
  · exact hlog
  · intro id hid
    rw [Vocabulary.opened_append, List.mem_append] at hid
    refine List.mem_append_right _ ?_
    exact hid.elim (h.drawn id) fun hid => h.mem_drawn (hopened id hid)
  · intro id hid
    rw [Vocabulary.opened_append, Vocabulary.closed_append, List.mem_append, List.mem_append,
      not_or]
    rcases hs id hid with hold | ⟨rfl, hid⟩
    · obtain ⟨ho, hc⟩ := h.inFlight id hold
      refine ⟨Or.inl ho, hc, fun hn => ?_⟩
      exact (h.fits i).absent id (hclosed id hn) hold
    · obtain ⟨ho, hc⟩ := (h.fits i).live id hid
      exact ⟨Or.inl ho, hc, List.not_mem_nil⟩
  · intro j
    by_cases hj : j = i
    · rw [hj, Function.update_self]
      exact hp'
    · rw [Function.update_of_ne hj]
      exact h.fits_of_ne hj hopened hclosed
        (fun id hid => (hs id hid).imp_right fun hid => hlive id hid.2)
        fun id hid => hspent id (hout id hid)
  · exact h.apart_update hids
  · rw [List.nodup_append]
    refine ⟨hnodup, h.outcomes, ?_⟩
    rintro id hid _ hid' rfl
    exact ((h.fits i).spent id (hout id hid)).2 hid'
  · intro id hid
    rw [Vocabulary.closed_append, List.mem_append]
    refine Or.inl ((List.mem_append.mp hid).elim (fun hid => ?_) (h.settled id))
    exact ((h.fits i).spent id (hout id hid)).1

section Passage

variable {i : ι} {p' : Phase α} {w : Work α}

/-- A step on which nothing is logged and no call returns. -/
theorem update_nil (h : Books ops s g phases) {drawn : List String}
    (hs : ∀ id ∈ s'.inFlight, id ∈ s.inFlight ∨ id ∈ (phases i).live)
    (hids : ∀ id ∈ p'.ids, id ∈ (phases i).ids ∨ id ∈ s.inFlight ∨ id ∉ g.drawn)
    (hp' : p'.Fits ops s' ⟨drawn ++ g.drawn, g.outcomes⟩) :
    Books (ops ++ []) s' ⟨drawn ++ g.drawn, [] ++ g.outcomes⟩ (Function.update phases i p') := by
  have hnone : ∀ id ∈ ([] : List String), id ∈ (phases i).ids := fun id hid => by cases hid
  refine h.update ?_ hnone hnone (fun id hid => (hs id hid).imp_right fun hl => ⟨rfl, hl⟩)
    (fun id hid => by cases hid) List.nodup_nil hids ?_
  · rw [List.append_nil]
    exact h.log
  · rw [List.append_nil]
    exact hp'

/-- Nothing comes into a hand: what was there is kept, or given up. -/
theorem rest (h : Books ops s g phases) (hs : ∀ id ∈ s'.inFlight, id ∈ s.inFlight)
    {outcomes : List String} (hout : outcomes = [] ∨ outcomes = (phases i).spent)
    (hids : p'.ids = [] ∨ p' = phases i ∧ outcomes = []) :
    Books (ops ++ []) s' ⟨[] ++ g.drawn, outcomes ++ g.outcomes⟩
      (Function.update phases i p') := by
  have hspent : ∀ id ∈ outcomes, id ∈ (phases i).spent := by
    rcases hout with rfl | rfl
    · exact fun id hid => by cases hid
    · exact fun id hid => hid
  have hnodup : outcomes.Nodup := by
    rcases hout with rfl | rfl
    · exact List.nodup_nil
    · exact Phase.nodup_spent (h.fits i).nodup
  refine h.update (by rw [List.append_nil]; exact h.log) (fun _ hid => by cases hid)
    (fun _ hid => by cases hid) (fun id hid => Or.inl (hs id hid)) hspent hnodup
    (fun id hid => Or.inl ?_) ?_
  · rcases hids with hids | ⟨rfl, -⟩
    · rw [hids] at hid
      cases hid
    · exact hid
  · rcases hids with hids | ⟨rfl, rfl⟩
    · exact .of_ids hids
    · exact (h.fits i).frame (fun id hid => List.not_mem_nil) (fun id hid => List.not_mem_nil)
        (fun id hid hn => (h.fits i).absent id hid (hs id hn)) (fun id hid => hid)
        fun id hid hn => hn

/-- New ids are drawn. -/
theorem draw (h : Books ops s g phases) (hs : ∀ id ∈ s'.inFlight, id ∈ s.inFlight)
    (hw : w.concludes = []) (hnodup : w.handsOut.Nodup) (hnew : ∀ id ∈ w.handsOut, id ∉ g.drawn) :
    Books (ops ++ []) s' ⟨w.handsOut ++ g.drawn, [] ++ g.outcomes⟩
      (Function.update phases i (.unlogged w)) := by
  have hids : (Phase.unlogged w).ids = w.handsOut := by
    rw [Phase.ids, Work.ids, hw, List.append_nil]
  refine h.update_nil (fun id hid => Or.inl (hs id hid))
    (fun id hid => Or.inr (Or.inr (hnew id (hids ▸ hid)))) ?_
  constructor
  · exact fun id hid => ⟨List.mem_append_left _ hid, fun hn => hnew id hid (h.drawn id hn)⟩
  · rw [Phase.live, hw]
    exact fun id hid => by cases hid
  · exact fun id hid => by cases hid
  · rw [hids]
    exact hnodup
  · rw [hids]
    exact fun id hid hn => hnew id hid (h.drawn id (h.inFlight id (hs id hn)).1)

/-- A task is taken out of the table. -/
theorem take (h : Books ops s g phases) {id : String} (hid : id ∈ s.inFlight)
    (hs : ∀ id' ∈ s'.inFlight, id' ∈ s.inFlight ∧ id' ≠ id) (hw : w.handsOut = [])
    (hc : w.concludes = [id]) :
    Books (ops ++ []) s' ⟨[] ++ g.drawn, [] ++ g.outcomes⟩
      (Function.update phases i (.unlogged w)) := by
  have hids : (Phase.unlogged w).ids = [id] := by rw [Phase.ids, Work.ids, hw, hc]; rfl
  have hmem : ∀ id' ∈ (Phase.unlogged w).ids, id' = id := fun id' hid' =>
    List.mem_singleton.mp (hids ▸ hid')
  refine h.update_nil (fun id' hid' => Or.inl (hs id' hid').1)
    (fun id' hid' => Or.inr (Or.inl (hmem id' hid' ▸ hid))) ?_
  constructor
  · rw [Phase.fresh, hw]
    exact fun id hid => by cases hid
  · intro id' hid'
    rw [Phase.live, hc, List.mem_singleton] at hid'
    rw [hid']
    exact h.inFlight id hid
  · exact fun id hid => by cases hid
  · rw [hids]
    exact List.nodup_singleton id
  · exact fun id' hid' hn => (hs id' hn).2 (hmem id' hid')

/-- An entry is written: what was fresh is live, and what was live is spent. -/
theorem write (h : Books ops s g phases) (hp : phases i = .unlogged w)
    (hs : ∀ id ∈ s'.inFlight, id ∈ s.inFlight) (hlog : WalOp.LogWellFormed (ops ++ [w.op])) :
    Books (ops ++ [w.op]) s' ⟨[] ++ g.drawn, [] ++ g.outcomes⟩
      (Function.update phases i (.logged w)) := by
  have hfits := h.fits i
  rw [hp] at hfits
  have hopens : WalOp.deliveries.opened [w.op] = w.handsOut := by
    rw [Vocabulary.opened_singleton]
    exact w.introduces_op
  have hcloses : WalOp.deliveries.closed [w.op] = w.concludes := by
    rw [Vocabulary.closed_singleton]
    exact w.settles_op
  have hdisjoint := List.disjoint_of_nodup_append hfits.nodup
  refine h.update hlog (fun id hid => ?_) (fun id hid => ?_) (fun id hid => Or.inl (hs id hid))
    (fun _ hid => by cases hid) List.nodup_nil (fun id hid => Or.inl (hp ▸ hid)) ?_
  · rw [hp]
    exact List.mem_append_left _ (hopens ▸ hid)
  · rw [hp]
    exact List.mem_append_right _ (hcloses ▸ hid)
  constructor
  · exact fun id hid => by cases hid
  · intro id hid
    have hnew := (hfits.fresh id hid).2
    rw [Vocabulary.opened_append, Vocabulary.closed_append, hopens, hcloses, List.mem_append,
      List.mem_append, not_or]
    exact ⟨Or.inr hid, fun hc => hnew (h.log.opened_of_closed hc), hdisjoint hid⟩
  · intro id hid
    rw [Vocabulary.closed_append, hcloses, List.mem_append]
    exact ⟨Or.inr hid, fun hout => (hfits.live id hid).2 (h.settled id hout)⟩
  · exact hfits.nodup
  · exact fun id hid hn => hfits.absent id hid (hs id hn)

/-- A live id comes into the table. -/
theorem put (h : Books ops s g phases) {id : String}
    (hs : ∀ id' ∈ s'.inFlight, id' = id ∨ id' ∈ s.inFlight)
    (hlive : (phases i).live = id :: p'.live) (hfresh : p'.fresh = []) (hspent : p'.spent = []) :
    Books (ops ++ []) s' ⟨[] ++ g.drawn, [] ++ g.outcomes⟩ (Function.update phases i p') := by
  have hnodup := Phase.nodup_live (h.fits i).nodup
  rw [hlive, List.nodup_cons] at hnodup
  have hids := Phase.ids_of_live hfresh hspent
  have hrest : ∀ id' ∈ p'.live, id' ∈ (phases i).live := fun id' hid' =>
    hlive ▸ List.mem_cons_of_mem _ hid'
  refine h.update_nil (fun id' hid' => ?_) (fun id' hid' => Or.inl ?_) ?_
  · rcases hs id' hid' with rfl | hold
    · exact Or.inr (hlive ▸ List.mem_cons_self)
    · exact Or.inl hold
  · exact Phase.mem_ids.mpr (Or.inr (Or.inl (hrest id' (hids ▸ hid'))))
  constructor
  · rw [hfresh]
    exact fun id hid => by cases hid
  · exact fun id' hid' => (h.fits i).live id' (hrest id' hid')
  · rw [hspent]
    exact fun id hid => by cases hid
  · rw [hids]
    exact hnodup.2
  · intro id' hid' hn
    rw [hids] at hid'
    rcases hs id' hn with rfl | hold
    · exact hnodup.1 hid'
    · exact (h.fits i).absent id' (Phase.mem_ids.mpr (Or.inr (Or.inl (hrest id' hid')))) hold

/-- **A step keeps the books**, when the log may have its entry. -/
theorem step (h : Books ops s g phases) {drawn outcomes : List String}
    (hpass : Phase.Passage s s' drawn new outcomes (phases i) p')
    (hd : drawn.Nodup ∧ ∀ id ∈ drawn, id ∉ g.drawn) (hlog : WalOp.LogWellFormed (ops ++ new)) :
    Books (ops ++ new) s' ⟨drawn ++ g.drawn, outcomes ++ g.outcomes⟩
      (Function.update phases i p') := by
  generalize hp : phases i = p at hpass
  cases hpass with
  | rest hs hdraw ho hcase =>
    subst hdraw ho hp
    refine h.rest hs ?_ (hcase.imp And.left id)
    exact hcase.elim And.right fun hkept => Or.inl hkept.2
  | draw hs hdraw ho hw hout =>
    subst hdraw ho hout
    exact h.draw hs hw hd.1 hd.2
  | take hid hs hdraw ho hw hc hout =>
    subst hdraw ho hout
    exact h.take hid hs hw hc
  | log hs hdraw ho hout =>
    subst hdraw ho hout
    exact h.write hp hs hlog
  | put hs hdraw ho hlive hfresh hspent hout =>
    subst hdraw ho hout hp
    exact h.put hs hlive hfresh hspent

end Passage

omit [DecidableEq ι] in
/-- The log may have the entry a call is about to write. -/
theorem wellFormed_snoc (h : Books ops s g phases) {i : ι} {w : Work α}
    (hp : phases i = .unlogged w) (hguard : ∀ id, w.taskGuard = some id → id ∈ s.inFlight)
    (hbatch : ∀ taskIds, w ≠ .ackBatch taskIds) : WalOp.LogWellFormed (ops ++ [w.op]) := by
  have hfits := h.fits i
  rw [hp] at hfits
  -- what an entry refers to is in hand, or locked in the table
  have hrefers : ∀ id ∈ w.op.refersTo,
      id ∈ WalOp.deliveries.opened ops ∧ id ∉ WalOp.deliveries.closed ops := by
    intro id hid
    rcases w.mem_refersTo_op hid with hid | hid
    · exact hfits.live id hid
    · exact h.inFlight id (hguard id hid)
  have hfresh : ∀ id ∈ w.op.introduces, id ∉ WalOp.deliveries.opened ops := by
    rw [w.introduces_op]
    exact fun id hid => (hfits.fresh id hid).2
  refine h.log.snoc (fun id hid => (hrefers id hid).1) (fun id hid => ?_) ?_ hfresh
  · rcases w.mem_taskIds_op hbatch hid with hid | hid
    · exact fun hc => hfresh id hid (h.log.opened_of_closed hc)
    · exact (hrefers id hid).2
  · show w.op.introduces.Nodup
    rw [w.introduces_op]
    exact hfits.nodup.of_append_left

end Books

end Process

/-! ### What a restart finds -/

namespace InMemoryStorage

theorem mem_inFlight_replayDeliveries {s : InMemoryStorage α} {now : ℕ → Int} {name id : String}
    {ids : List String} (h : id ∈ (s.replayDeliveries now name ids).inFlight) :
    id ∈ ids ∨ id ∈ s.inFlight := by
  unfold replayDeliveries at h
  cases hl : s.queues.lookup name with
  | none =>
    rw [hl] at h
    exact Or.inr h
  | some items =>
    simp only [hl] at h
    rcases (mem_foldl_putTask _ _ _).mp h with hid | hid
    · exact Or.inr hid
    · rw [map_id_deliverAll] at hid
      obtain ⟨p, hp, rfl⟩ := List.mem_map.mp hid
      exact Or.inl (List.of_mem_zip hp).1

theorem inFlight_orSelf_pushBack (s : InMemoryStorage α) (name : String) (items : List α) :
    (s.orSelf (s.pushBack name items)).inFlight = s.inFlight := by
  cases hp : s.pushBack name items with
  | error e => rfl
  | ok s' => exact pushBack_inFlight hp

theorem inFlight_orSelf_requeue (s : InMemoryStorage α) (task : InFlightTask α) :
    (s.orSelf (s.requeue task)).inFlight = s.inFlight := by
  cases hr : s.requeue task with
  | error e => rfl
  | ok s' => exact requeue_inFlight hr

/-- An id is in flight after an entry because the entry introduced it, or it was before. -/
theorem mem_inFlight_effect {s : InMemoryStorage α} {now : ℕ → Int} {op : WalOp α} {id : String}
    (h : id ∈ (s.effect now op).inFlight) :
    id ∈ op.introduces ∨ id ∈ s.inFlight ∧ id ∉ op.settles := by
  have hkept : id ∈ s.inFlight → op.settles = [] →
      id ∈ op.introduces ∨ id ∈ s.inFlight ∧ id ∉ op.settles := fun hid hop =>
    Or.inr ⟨hid, hop ▸ List.not_mem_nil⟩
  cases op with
  | createQueue name =>
    simp only [effect] at h
    split at h
    · exact hkept h rfl
    · exact hkept h rfl
  | enqueue queue data =>
    rw [effect, inFlight_orSelf_pushBack] at h
    exact hkept h rfl
  | enqueueBatch queue data =>
    rw [effect, inFlight_orSelf_pushBack] at h
    exact hkept h rfl
  | dequeued queue taskId =>
    exact (mem_inFlight_replayDeliveries h).imp_right fun hid => ⟨hid, List.not_mem_nil⟩
  | dequeuedBatch queue taskIds =>
    exact (mem_inFlight_replayDeliveries h).imp_right fun hid => ⟨hid, List.not_mem_nil⟩
  | ack taskId =>
    obtain ⟨hne, hid⟩ := Finmap.mem_erase.mp h
    exact Or.inr ⟨hid, fun hs => hne (List.mem_singleton.mp hs)⟩
  | ackBatch taskIds =>
    simp only [effect] at h
    split at h
    · exact hkept ((mem_foldl_dropTask _ _ _).mp h).1 rfl
    · exact hkept h rfl
  | nack taskId =>
    simp only [effect] at h
    cases hl : s.inFlight.lookup taskId with
    | none =>
      rw [hl] at h
      refine Or.inr ⟨h, fun hs => ?_⟩
      rw [List.mem_singleton.mp hs] at h
      exact Finmap.lookup_eq_none.mp hl h
    | some task =>
      simp only [hl] at h
      rw [inFlight_orSelf_requeue] at h
      obtain ⟨hne, hid⟩ := Finmap.mem_erase.mp h
      exact Or.inr ⟨hid, fun hs => hne (List.mem_singleton.mp hs)⟩
  | extendVisibility taskId duration =>
    simp only [effect] at h
    cases hl : s.inFlight.lookup taskId with
    | none =>
      rw [hl] at h
      exact hkept h rfl
    | some task =>
      simp only [hl] at h
      -- the entry that is written back was there
      rcases Finmap.mem_insert.mp h with rfl | hid
      · exact hkept (Finmap.mem_iff.mpr ⟨task, hl⟩) rfl
      · exact hkept hid rfl

/-- **Behind the replay of a well-formed log** the ids in flight are those of the deliveries that
are open. -/
theorem mem_inFlight_effects {ops : List (WalOp α)} (hlog : WalOp.LogWellFormed ops) {id : String}
    (h : id ∈ ((new : InMemoryStorage α).effects ops).inFlight) :
    id ∈ WalOp.deliveries.opened ops ∧ id ∉ WalOp.deliveries.closed ops := by
  induction ops using List.reverseRecOn with
  | nil => exact absurd h (Finmap.notMem_empty)
  | append_singleton ops op ih =>
    rw [effects_append] at h
    rw [Vocabulary.opened_append, Vocabulary.closed_append, Vocabulary.opened_singleton,
      Vocabulary.closed_singleton, List.mem_append, List.mem_append, not_or]
    rcases mem_inFlight_effect h with hnew | ⟨hold, hsettles⟩
    -- introduced by the last entry, which settles nothing
    · refine ⟨Or.inr hnew, hlog.notMem_closed (WalOp.deliveries.opens_subset op hnew), ?_⟩
      cases op with
      | dequeued queue taskId => exact List.not_mem_nil
      | dequeuedBatch queue taskIds => exact List.not_mem_nil
      | _ => cases hnew
    · obtain ⟨hopened, hclosed⟩ := ih hlog.of_append hold
      exact ⟨Or.inl hopened, hclosed, hsettles⟩

end InMemoryStorage

namespace Process

/-! ### Runs -/

/-- The books of a process are kept, heartbeats find their tasks, and no batch is acknowledged. -/
structure Accounted (s : Process ι α × Account) : Prop where
  persistent : s.1.config.store.wal.isSome
  books : Books s.1.ops s.1.config.store s.2 s.1.config.phases
  guarded : ∀ i id, (s.1.config.pc i).taskGuard = some id → id ∈ s.1.config.store.inFlight
  calls : ∀ i, ∃ c, ¬ c.isAckBatch ∧ (s.1.config.threads i).Serves c

theorem ops_eq (p : Process ι α) :
    p.ops = p.past.map WalEntry.op ++ p.config.store.ops := List.map_append

theorem ops_start (envs : ℕ → Env) (entries : List (WalEntry α)) :
    (start envs entries : Process ι α).ops = entries.map WalEntry.op := by
  rw [ops_eq]
  exact List.append_nil _

/-- **The start of a process** on a well-formed log. -/
theorem accounted_start (envs : ℕ → Env) {entries : List (WalEntry α)} {g : Account}
    (hlog : WalOp.LogWellFormed (entries.map WalEntry.op))
    (hdrawn : ∀ id ∈ WalOp.deliveries.opened (entries.map WalEntry.op), id ∈ g.drawn)
    (hout : g.outcomes.Nodup)
    (hsettled : ∀ id ∈ g.outcomes, id ∈ WalOp.deliveries.closed (entries.map WalEntry.op)) :
    Accounted ((start envs entries : Process ι α), g) where
  persistent := rfl
  books := by
    rw [ops_start]
    refine ⟨hlog, hdrawn, fun id hid => ?_, fun i => .of_ids rfl, ?_, hout, hsettled⟩
    · have hsame := (InMemoryStorage.recover_sameState envs entries).mem_inFlight id
      exact InMemoryStorage.mem_inFlight_effects hlog (hsame.mpr hid)
    · intro i j hij id hid
      cases hid
  guarded i id hid := by cases hid
  calls i := ⟨.ack "", Bool.false_ne_true, Thread.serves_vacant _⟩

namespace Accounted

variable [Fintype ι] [DecidableEq ι] {s s' : Process ι α × Account}

omit [Fintype ι] in
/-- A thread is given its next call. -/
theorem call (h : Accounted s) (i : ι) {c : Call α} (hc : ¬ c.isAckBatch) :
    Accounted ({ s.1 with config := s.1.config.callAt i c }, s.2) := by
  constructor
  · exact h.persistent
  · have hbooks : Books (s.1.ops ++ []) s.1.config.store s.2
        (Function.update s.1.config.phases i .idle) :=
      h.books.rest (fun _ hid => hid) (Or.inl rfl) (Or.inl rfl)
    rw [List.append_nil] at hbooks
    rw [Config.phases_callAt]
    exact hbooks
  · intro j id hid
    change (Function.update s.1.config.threads i (Thread.call c) j).pc.taskGuard = some id at hid
    by_cases hj : j = i
    · rw [hj, Function.update_self] at hid
      cases hid
    · rw [Function.update_of_ne hj] at hid
      exact h.guarded j id hid
  · intro j
    change ∃ c', _ ∧ (Function.update s.1.config.threads i (Thread.call c) j).Serves c'
    by_cases hj : j = i
    · rw [hj, Function.update_self]
      exact ⟨c, hc, Thread.serves_call c⟩
    · rw [Function.update_of_ne hj]
      exact h.calls j

omit [Fintype ι] in
/-- The log may have what a step writes. -/
theorem wellFormed_ops (h : Accounted s) {i : ι} {env : Env} {σ : Config ι α} {a : Access α}
    {pc' : Pc α} (hstep : Config.StepOf s.1.config i env σ a pc') :
    WalOp.LogWellFormed (s.1.ops ++ a.ops) := by
  have hmove := hstep.move
  generalize hpc : s.1.config.pc i = pc at hmove
  have hphase : s.1.config.phases i = pc.phase := by rw [← hpc]; rfl
  cases hmove with
  | @append w happ =>
    refine h.books.wellFormed_snoc hphase (fun id hid => ?_) fun taskIds hw => ?_
    · exact h.guarded i id (by rw [hpc]; exact hid)
    · -- no call in the run works on a batch
      obtain ⟨c, hc, hserves⟩ := h.calls i
      have hwork := hserves.pc.work (Or.inl hphase)
      rw [hw] at hwork
      cases hwork
      exact hc rfl
  | _ =>
    show WalOp.LogWellFormed (s.1.ops ++ [])
    rw [List.append_nil]
    exact h.books.log

omit [Fintype ι] in
/-- A call takes a step. -/
theorem stepOf (h : Accounted s) {i : ι} {env : Env} {σ : Config ι α} {a : Access α}
    {pc' : Pc α} (henabled : s.1.config.Enabled i)
    (hstep : Config.StepOf s.1.config i env σ a pc')
    (hdraws : ((s.1.config.pc i).draws pc').Nodup ∧
      ∀ id ∈ (s.1.config.pc i).draws pc', id ∉ s.2.drawn) :
    Accounted ({ s.1 with config := σ },
      ⟨(s.1.config.pc i).draws pc' ++ s.2.drawn,
        (s.1.config.pc i).succeeds pc' ++ s.2.outcomes⟩) := by
  constructor
  · rw [hstep.store, Access.wal_run]
    exact h.persistent
  · have hops : ({ s.1 with config := σ } : Process ι α).ops = s.1.ops ++ a.ops := by
      rw [ops_eq, ops_eq, hstep.store, Access.ops_run h.persistent, List.append_assoc]
    rw [hops, hstep.store, hstep.phases]
    exact h.books.step (hstep.move.passage h.persistent) hdraws (h.wellFormed_ops hstep)
  · intro j id hid
    rw [hstep.store]
    by_cases hj : j = i
    · rw [hj, Config.pc, hstep.threads, Function.update_self] at hid
      exact hstep.move.guarded (h.guarded i) id (Thread.taskGuard_resume hid)
    · rw [hstep.pc_of_ne hj] at hid
      -- a step that reached for the task would have to wait
      refine hstep.move.mem_of_guard (h.guarded j id hid) fun haccess => ?_
      exact henabled.2 j hj (Or.inr (Or.inl ⟨id, haccess, hid⟩))
  · intro j
    rw [hstep.threads]
    by_cases hj : j = i
    · obtain ⟨c, hc, hserves⟩ := h.calls i
      rw [hj, Function.update_self]
      exact ⟨c, hc, .resume (hstep.move.serves hserves.pc) hserves.loop⟩
    · rw [Function.update_of_ne hj]
      exact h.calls j

/-- **Every event keeps the accounts.** -/
theorem step (h : Accounted s) {ev : Event ι α} (hreg : Regular s ev)
    (hstep : (recorded ι α).step s ev = some s') : Accounted s' := by
  obtain ⟨hstep, hrecord⟩ := System.recording_step.mp hstep
  obtain ⟨p', g'⟩ := s'
  obtain rfl : g' = Account.extend s.1 ev s.2 := hrecord
  cases ev with
  | call i c =>
    obtain ⟨-, hp'⟩ := Option.ite_none_right_eq_some.mp hstep
    cases hp'
    exact h.call i hreg
  | step i env =>
    obtain ⟨σ, hmachine, rfl⟩ := Option.map_eq_some_iff.mp hstep
    obtain ⟨henabled, a, pc', hof⟩ := Config.machine_step hmachine
    have hpc' : ((s.1.config.pc i).step s.1.config.store env).2 = pc' := by rw [hof.eq]
    unfold Regular at hreg
    simp only [hpc'] at hreg
    have hnext := h.stepOf henabled hof hreg
    rw [← hpc'] at hnext
    exact hnext
  | restart envs =>
    cases hstep
    exact accounted_start envs h.books.log h.books.drawn h.books.outcomes h.books.settled

end Accounted

variable [Fintype ι] [DecidableEq ι]

/-- **One outcome per delivery.** However the steps of the calls interleave, and wherever the
process is stopped in between, at most one `ack` or `nack` of an id succeeds, those of the cleanups
and those in the file at the start included, and the log stays well formed. -/
theorem oneOutcome_run (envs : ℕ → Env) {entries : List (WalEntry α)}
    (hlog : WalOp.LogWellFormed (entries.map WalEntry.op)) {s : Process ι α × Account}
    (h : (recorded ι α).Reach Regular (start envs entries, Account.start entries) s) :
    (∀ id, s.2.outcomes.count id ≤ 1) ∧ WalOp.LogWellFormed s.1.ops := by
  have hstart : Accounted ((start envs entries : Process ι α), Account.start entries) := by
    refine accounted_start envs hlog (fun id hid => hid) ?_ fun id hid => hid
    exact hlog.nodup_closed fun op => by cases op <;> simp [WalOp.deliveries, WalOp.settles]
  have haccounted := h.invariant Accounted hstart fun s ev s' hs hreg hstep => hs.step hreg hstep
  refine ⟨fun id => ?_, haccounted.books.log⟩
  exact List.nodup_iff_count_le_one.mp haccounted.books.outcomes id

/-- An `ack` and a `nack` race for a task, and one of them wins; after the next start of the
process there is no task left to acknowledge. -/
theorem oneOutcome_run_race : ∃ s : Process (Fin 2) Bytes × Account,
    (s.1.ops = [.createQueue "jobs", .enqueue "jobs" [0x68], .dequeued "jobs" "5b0f6f4e",
      .nack "5b0f6f4e"] ∧ s.2.outcomes = ["5b0f6f4e"]) ∧
    (∀ id, s.2.outcomes.count id ≤ 1) ∧ WalOp.LogWellFormed s.1.ops := by
  let entries : List (WalEntry Bytes) := []
  let envs : ℕ → Env := fun _ => Env.quiet ["5b0f6f4e"]
  let steps : List (Fin 2) → List (Event (Fin 2) Bytes) := List.map fun i => .step i (envs 0)
  let events : List (Event (Fin 2) Bytes) :=
    [.call 0 (.createQueue "jobs")] ++ steps [0, 0, 0, 0] ++ [.call 0 (.queue "jobs" [0x68])] ++
      steps [0, 0, 0, 0] ++ [.call 0 (.dequeue "jobs")] ++ steps [0, 0, 0, 0] ++
      [.call 0 (.ack "5b0f6f4e"), .call 1 (.nack "5b0f6f4e")] ++ steps [1, 0, 1, 1, 1] ++
      [.restart envs, .call 0 (.ack "5b0f6f4e")] ++ steps [0]
  obtain ⟨s, hreach, hs⟩ := System.Reach.exists_of_run (recorded (Fin 2) Bytes) Regular
    (start envs entries, Account.start entries)
    (fun s => s.1.ops = [.createQueue "jobs", .enqueue "jobs" [0x68],
      .dequeued "jobs" "5b0f6f4e", .nack "5b0f6f4e"] ∧ s.2.outcomes = ["5b0f6f4e"])
    events (by decide +kernel)
  exact ⟨s, hs, oneOutcome_run envs .nil hreach⟩

end Process

end Oxideq
