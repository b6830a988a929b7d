import Oxideq.Concurrent.Turns
import Oxideq.Http.Handlers
import Oxideq.Lib.Runs

/-!
# The names of queues

Which queue names can appear in a store that only the handlers and the background cleanup work
on. Names enter by two ways. `create_queue` is called with a name its handler has validated.
`nack` makes up the other ones: the fifth failed delivery of a task moves it to the queue named
after its own with `_dlq` behind, which is created if it is missing and validated by no one.

`Named` follows both through any interleaving: the names in the store, the names under which
tasks are in flight, and those the calls have in hand all have a property `P`, as long as the
names handed to `create_queue` and the names made up do (`StepOf.named`).

For `ValidName` this decides the matter, because a made-up name is valid exactly when the name it
is made from leaves room for the suffix: every name in the store is one the API accepts, all
along a run, exactly when no task of a queue with more than 124 bytes in its name is moved to its
dead-letter queue (`Config.addressable_iff`).
-/

namespace Oxideq

variable {ι α : Type}

/-! ### Names in hand -/

/-- The queues under whose names the work files tasks, or puts them back. -/
def Work.files : Work α → List String
  | .dequeue name _ _ => [name]
  | .dequeueBatch name _ => [name]
  | .nack _ task => [task.queueName]
  | _ => []

def Phase.files : Phase α → List String
  | .idle => []
  | .unlogged w => w.files
  | .logged w => w.files

@[simp] theorem Phase.files_idle : (idle : Phase α).files = [] := rfl

@[simp] theorem Phase.files_unlogged (w : Work α) : (unlogged w).files = w.files := rfl

@[simp] theorem Phase.files_logged (w : Work α) : (logged w).files = w.files := rfl

@[simp] theorem Pc.files_toLog (s : InMemoryStorage α) (w : Work α) :
    (toLog s w).phase.files = w.files := by
  rw [phase_toLog]
  split <;> rfl

/-- The queue an access puts items into, or creates. -/
def Access.fills : Access α → Option String
  | .insertQueue name => some name
  | .pushBack name _ => some name
  | .pushFront name _ => some name
  | .pop name _ => some name
  | _ => none

theorem Access.mem_queues_of_run {s : InMemoryStorage α} {env : Env} {a : Access α} {q : String}
    (h : q ∈ (a.run s env).queues) : q ∈ s.queues ∨ a.fills = some q := by
  have hset : ∀ (name : String) (items : List (QueueItem α)),
      q ∈ (s.setQueue name items).queues → q ∈ s.queues ∨ some name = some q := by
    intro name items hq
    exact (Finmap.mem_insert.mp hq).symm.imp_right fun hqn => congrArg some hqn.symm
  cases a with
  | look => exact Or.inl h
  | log op => exact Or.inl h
  | insertQueue name => exact hset name _ h
  | pushBack name items => exact hset name _ h
  | pushFront name items => exact hset name _ h
  | pop name count => exact hset name _ h
  | insertTask taskId task => exact Or.inl h
  | dropTask taskId => exact Or.inl h

/-- A task in flight after an access was so before, or is the one the access files. -/
theorem Access.lookup_inFlight_run {s : InMemoryStorage α} {env : Env} {a : Access α} {id : String}
    {task : InFlightTask α} (h : (a.run s env).inFlight.lookup id = some task) :
    s.inFlight.lookup id = some task ∨ ∃ id', a = .insertTask id' task := by
  cases a with
  | insertTask taskId task' =>
    change (s.inFlight.insert taskId task').lookup id = some task at h
    by_cases hid : id = taskId
    · subst hid
      rw [Finmap.lookup_insert] at h
      cases h
      exact Or.inr ⟨_, rfl⟩
    · rw [Finmap.lookup_insert_of_ne _ hid] at h
      exact Or.inl h
  | dropTask taskId =>
    change (s.inFlight.erase taskId).lookup id = some task at h
    by_cases hid : id = taskId
    · subst hid
      rw [Finmap.lookup_erase] at h
      cases h
    · rw [Finmap.lookup_erase_ne hid] at h
      exact Or.inl h
  | look => exact Or.inl h
  | log op => exact Or.inl h
  | insertQueue name => exact Or.inl h
  | pushBack name items => exact Or.inl h
  | pushFront name items => exact Or.inl h
  | pop name count => exact Or.inl h

/-! ### What a move does to names -/

section Moves

variable {P : String → Prop} {s : InMemoryStorage α} {env : Env} {pc pc' : Pc α} {a : Access α}

/-- The names a store and a phase mention have the property. -/
structure NamesHave (P : String → Prop) (s : InMemoryStorage α) (p : Phase α) : Prop where
  queues : ∀ name ∈ s.queues, P name
  tasks : ∀ id task, s.inFlight.lookup id = some task → P task.queueName
  files : ∀ name ∈ p.files, P name

/-- The queue a move fills: an old one, one its call creates, or one it makes up. -/
theorem Pc.Move.fills (hm : Move s env pc a pc') {name : String} (h : a.fills = some name) :
    name ∈ s.queues ∨ name ∈ pc.phase.files ∨ pc.phase = .logged (.createQueue name) ∨
      ∃ id task, pc = .apply (.nack id task) ∧ task.exhausted = true ∧
        name = dlqName task.queueName := by
  cases hm with
  | dequeue hl =>
    cases h
    exact Or.inl (Finmap.lookup_isSome.mp (by rw [hl]; rfl))
  | dequeueBatch hl =>
    cases h
    exact Or.inl (Finmap.lookup_isSome.mp (by rw [hl]; rfl))
  | undoDequeue =>
    cases h
    exact Or.inr (Or.inl List.mem_cons_self)
  | undoDequeueBatch =>
    cases h
    exact Or.inr (Or.inl List.mem_cons_self)
  | insertQueue =>
    cases h
    exact Or.inr (Or.inr (Or.inl rfl))
  | push hq =>
    cases h
    exact Or.inl hq
  | pushBatch hq =>
    cases h
    exact Or.inl hq
  | bury hex =>
    cases h
    exact Or.inr (Or.inr (Or.inr ⟨_, _, rfl, hex, rfl⟩))
  | requeue hex hq =>
    cases h
    exact Or.inl hq
  | _ => cases h

/-- The queue of a task a move files: the queue of a delivery in hand, or of the task itself. -/
theorem Pc.Move.files_task (hm : Move s env pc a pc') {id : String} {task : InFlightTask α}
    (h : a = .insertTask id task) : task.queueName ∈ pc.phase.files ∨
      ∃ task', s.inFlight.lookup id = some task' ∧ task.queueName = task'.queueName := by
  cases hm with
  | undoNack =>
    cases h
    exact Or.inl List.mem_cons_self
  | insertTask =>
    cases h
    exact Or.inl List.mem_cons_self
  | insertTasks =>
    cases h
    exact Or.inl List.mem_cons_self
  | touch hl =>
    cases h
    exact Or.inr ⟨_, hl, rfl⟩
  | _ => cases h

/-- What a move has in hand afterwards comes from the store or from what it had before. -/
theorem Pc.Move.files_after (hm : Move s env pc a pc') {name : String}
    (h : name ∈ pc'.phase.files) : name ∈ pc.phase.files ∨ name ∈ s.queues ∨
      ∃ id task, s.inFlight.lookup id = some task ∧ name = task.queueName := by
  cases hm with
  | dequeue hl =>
    rw [files_toLog] at h
    cases List.mem_singleton.mp h
    exact Or.inr (Or.inl (Finmap.lookup_isSome.mp (by rw [hl]; rfl)))
  | dequeueBatch hl =>
    rw [files_toLog] at h
    cases List.mem_singleton.mp h
    exact Or.inr (Or.inl (Finmap.lookup_isSome.mp (by rw [hl]; rfl)))
  | nack hl =>
    rw [files_toLog] at h
    cases List.mem_singleton.mp h
    exact Or.inr (Or.inr ⟨_, _, hl, rfl⟩)
  | createQueue | queue | queueBatch | ack | extendVisibility | verified =>
    rw [files_toLog] at h
    cases h
  | acquire => exact Or.inl h
  | append =>
    rw [phase_afterLog] at h
    exact Or.inl h
  | @appendFails w e happ =>
    obtain hf | ⟨-, e', hf⟩ := failLog_cases e w
    · rw [hf] at h
      exact Or.inl h
    · rw [hf] at h
      cases h
  | beginInsert => exact Or.inl h
  | insertTasks => exact Or.inl h
  | _ => cases h

/-- **A move keeps a property of names**, when the name it makes up has it. -/
theorem Pc.Move.namesHave (hm : Move s env pc a pc') (h : NamesHave P s pc.phase)
    (hcreate : ∀ name, pc.phase = .logged (.createQueue name) → P name)
    (hbury : ∀ id task, pc = .apply (.nack id task) → task.exhausted = true →
      P (dlqName task.queueName)) :
    NamesHave P (a.run s env) pc'.phase := by
  refine ⟨fun name hname => ?_, fun id task hl => ?_, fun name hname => ?_⟩
  · obtain hq | hfill := Access.mem_queues_of_run hname
    · exact h.queues name hq
    obtain hq | hf | hc | ⟨id, task, hpc, hex, rfl⟩ := hm.fills hfill
    · exact h.queues name hq
    · exact h.files name hf
    · exact hcreate name hc
    · exact hbury id task hpc hex
  · obtain hl | ⟨id', ha⟩ := Access.lookup_inFlight_run hl
    · exact h.tasks id task hl
    obtain hf | ⟨task', hl', hqn⟩ := hm.files_task ha
    · exact h.files _ hf
    · rw [hqn]
      exact h.tasks _ _ hl'
  · obtain hf | hq | ⟨id, task, hl, rfl⟩ := hm.files_after hname
    · exact h.files name hf
    · exact h.queues name hq
    · exact h.tasks id task hl

end Moves

/-! ### Interleaved calls -/

namespace Config

variable [Fintype ι] [DecidableEq ι]

/-- The step moves a task of queue `name` to the dead-letter queue. -/
def Buries (σ : Config ι α) (l : ι × Env) (name : String) : Prop :=
  σ.Enabled l.1 ∧ ∃ id task, σ.pc l.1 = .apply (.nack id task) ∧ task.exhausted = true ∧
    task.queueName = name

/-- All names of a configuration have the property. -/
structure Named (P : String → Prop) (calls : ι → Call α) (σ : Config ι α) : Prop where
  serving : Serving calls σ
  queues : ∀ name ∈ σ.store.queues, P name
  tasks : ∀ id task, σ.store.inFlight.lookup id = some task → P task.queueName
  files : ∀ i, ∀ name ∈ (σ.phases i).files, P name

omit [Fintype ι] in
/-- A step keeps a property of names that its call creates none against, and makes none up
against. -/
theorem StepOf.named {P : String → Prop} {calls : ι → Call α} {σ σ' : Config ι α} {i : ι}
    {env : Env} {a : Access α} {pc' : Pc α} (h : StepOf σ i env σ' a pc') (hσ : Named P calls σ)
    (hcalls : ∀ i name, calls i = .createQueue name → P name)
    (hbury : ∀ id task, σ.pc i = .apply (.nack id task) → task.exhausted = true →
      P (dlqName task.queueName)) : Named P calls σ' := by
  have hmoved : NamesHave P σ'.store pc'.phase := by
    rw [h.store]
    refine h.move.namesHave ⟨hσ.queues, hσ.tasks, hσ.files i⟩ (fun name hphase => ?_) hbury
    -- the name a `create_queue` inserts is the one it was called with
    have hw := (hσ.serving i).pc.work (Or.inr hphase)
    generalize hc : calls i = c at hw
    cases hw
    exact hcalls i name hc
  refine ⟨h.serving hσ.serving, hmoved.queues, hmoved.tasks, fun j => ?_⟩
  rw [h.phases]
  by_cases hj : j = i
  · rw [hj, Function.update_self]
    exact hmoved.files
  · rw [Function.update_of_ne hj]
    exact hσ.files j

/-- Every queue can be named in a request. -/
def Addressable (σ : Config ι α) : Prop := ∀ name ∈ σ.store.queues, ValidName name

/-- The dead-letter move creates the queue it needs. -/
theorem mem_queues_of_buries {σ : Config ι α} {l : ι × Env} {name : String}
    (h : Buries σ l name) : dlqName name ∈ ((machine ι α).attempt σ l).store.queues := by
  obtain ⟨henabled, id, task, hpc, hex, rfl⟩ := h
  have hstep : (machine ι α).attempt σ l = σ.stepAt l.1 l.2 := by
    simp only [System.attempt, machine, if_pos henabled, Option.getD_some]
  have hstore : (σ.stepAt l.1 l.2).store
      = σ.store.setQueue (dlqName task.queueName)
          (σ.store.items (dlqName task.queueName) ++ [task.item]) := by
    simp only [stepAt, hpc, Pc.step, Pc.commit, hex, if_true, Access.run]
  rw [hstep, hstore]
  exact Finmap.mem_insert.mpr (Or.inl rfl)

/-- The calls the program makes on its store: those of the handlers, and the passes of the
background cleanup. -/
inductive Issued : Call Bytes → Prop
  | request {formats : Formats} {heartbeatDuration : UInt64} {req : ApiRequest} {c : Call Bytes}
    (h : req.toCall formats heartbeatDuration = .ok c) : Issued c
  | cleanup (timeoutSeconds : UInt64) : Issued (.cleanupExpiredTasks timeoutSeconds)

/-- A call of the program. -/
abbrev Job : Type := {c : Call Bytes // Issued c}

theorem Issued.validName {name : String} (h : Issued (.createQueue name)) : ValidName name := by
  cases h with
  | request h => exact ApiRequest.validName_of_toCall h rfl

/-- The empty store with the jobs in front of it, with a log or without one. -/
def idle (persistent : Bool) (envs : ℕ → Env) (jobs : ι → Job) :
    Config ι Bytes :=
  start (.boot persistent envs []) fun i => (jobs i).1

omit [Fintype ι] [DecidableEq ι] in
theorem named_idle (persistent : Bool) (envs : ℕ → Env)
    (jobs : ι → Job) :
    Named ValidName (fun i => (jobs i).1) (idle persistent envs jobs) := by
  refine ⟨serving_start _ _, fun name h => ?_, fun id task h => ?_, fun i name h => ?_⟩
  · exact absurd h Finmap.notMem_empty
  · cases h
  · cases h

/-- **When every queue stays addressable.** Over any interleaving of requests and cleanup passes
from the empty store, every queue has a name the API accepts, after every step, exactly when no
step moves a task of a queue with more than 124 bytes in its name to the dead-letter queue. -/
theorem addressable_iff (persistent : Bool) (envs : ℕ → Env)
    (jobs : ι → Job) (run : List (ι × Env)) :
    Along (machine ι Bytes).attempt Addressable (idle persistent envs jobs) run ↔
      Meets (machine ι Bytes).attempt
        (fun σ l => ∀ name, Buries σ l name → name.utf8ByteSize ≤ 124)
        (idle persistent envs jobs) run := by
  refine along_iff_meets (Named ValidName fun i => (jobs i).1) (fun σ hσ => hσ.queues) ?_ ?_
    (named_idle persistent envs jobs)
  · intro σ l hσ hok
    cases hs : (machine ι Bytes).step σ l with
    | none =>
      rw [System.attempt, hs, Option.getD_none]
      exact hσ
    | some σ' =>
      rw [System.attempt, hs, Option.getD_some]
      obtain ⟨henabled, a, pc', hstep⟩ := machine_step hs
      refine hstep.named hσ (fun i name hi => ?_) fun id task hpc hex => ?_
      · have hjob := (jobs i).2
        rw [hi] at hjob
        exact hjob.validName
      · -- the made-up name has room for its suffix
        have hvalid : ValidName task.queueName :=
          hσ.files l.1 _ (by rw [phases, hpc]; exact List.mem_cons_self)
        exact (validName_dlqName hvalid).mpr (hok _ ⟨henabled, id, task, hpc, hex, rfl⟩)
  · intro σ l hσ hno haddr
    push Not at hno
    obtain ⟨name, hburies, hlong⟩ := hno
    have hmem := mem_queues_of_buries hburies
    obtain ⟨-, id, task, hpc, -, rfl⟩ := hburies
    have hvalid : ValidName task.queueName :=
      hσ.files l.1 _ (by rw [phases, hpc]; exact List.mem_cons_self)
    have hshort := (validName_dlqName hvalid).mp (haddr _ hmem)
    omega

/-! ### A queue beyond reach -/

/-- A name of 125 bytes. It is valid; with the suffix it has 129. -/
def longName : String :=
  "orders-0123456789-0123456789-0123456789-0123456789-0123456789" ++
    "-0123456789-0123456789-0123456789-0123456789-0123456789-012345678"

/-- No batch route is used, so no format is. -/
def noFormats : Formats where
  json := ⟨fun _ => [], fun _ => .error "", fun _ => .error "", fun _ => []⟩
  msgpack := ⟨fun _ => [], fun _ => .error "", fun _ => .error "", fun _ => []⟩

/-- The ids of five deliveries. -/
def deliveryIds : List String :=
  ["5b0f6f4e-7f5c-4a39-9d3b-2f4f1c1f0b11", "0c9a0c53-7a0e-4a0c-8a55-6d2b1f1d9e22",
    "c1d6a3be-2f0b-4f7e-9a41-0d8f3b7c5a33", "e7f0b1c2-3d4e-4f5a-8b6c-7d8e9f0a1b44",
    "1a2b3c4d-5e6f-4a7b-8c9d-0e1f2a3b4c55"]

def longNameJob (c : Call Bytes) (req : ApiRequest) (h : req.toCall noFormats 60 = .ok c) : Job :=
  ⟨c, .request h⟩

/-- A queue is created, and one message put into it fails five times. -/
def poisonJobs : Fin 12 → Job :=
  ![longNameJob (.createQueue longName) (.createQueue longName) (by decide +kernel),
    longNameJob (.queue longName [0x68, 0x69]) (.enqueue longName [0x68, 0x69])
      (by decide +kernel),
    longNameJob (.dequeue longName) (.dequeue longName) (by decide +kernel),
    longNameJob (.nack (deliveryIds.getD 0 "")) (.nackTask longName (deliveryIds.getD 0 "")) rfl,
    longNameJob (.dequeue longName) (.dequeue longName) (by decide +kernel),
    longNameJob (.nack (deliveryIds.getD 1 "")) (.nackTask longName (deliveryIds.getD 1 "")) rfl,
    longNameJob (.dequeue longName) (.dequeue longName) (by decide +kernel),
    longNameJob (.nack (deliveryIds.getD 2 "")) (.nackTask longName (deliveryIds.getD 2 "")) rfl,
    longNameJob (.dequeue longName) (.dequeue longName) (by decide +kernel),
    longNameJob (.nack (deliveryIds.getD 3 "")) (.nackTask longName (deliveryIds.getD 3 "")) rfl,
    longNameJob (.dequeue longName) (.dequeue longName) (by decide +kernel),
    longNameJob (.nack (deliveryIds.getD 4 "")) (.nackTask longName (deliveryIds.getD 4 "")) rfl]

/-- Two steps for each request: the requests come one after the other. -/
def poisonRun : List (Fin 12 × Env) :=
  (List.finRange 12).flatMap fun i =>
    let env := Env.quiet [deliveryIds.getD (i.val / 2 - 1) ""]
    [(i, env), (i, env)]

/-- A run that ends with an invalid name. -/
theorem not_along_addressable {σ : Config ι α} {run : List (ι × Env)} {name : String}
    (hinvalid : ¬ ValidName name)
    (hmem : name ∈ (run.foldl (machine ι α).attempt σ).store.queues) :
    ¬ Along (machine ι α).attempt Addressable σ run :=
  fun h => hinvalid (h.finish name hmem)

theorem not_addressable_poison :
    ¬ Along (machine (Fin 12) Bytes).attempt Addressable
      (idle false (fun _ => Env.quiet []) poisonJobs) poisonRun := by
  have hinvalid : ¬ ValidName (dlqName longName) := by decide +kernel
  exact not_along_addressable hinvalid (by decide +kernel)

end Config

end Oxideq
