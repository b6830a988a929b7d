import Oxideq.Lib.Runs
import Oxideq.Storage.Recovery

/-!
# Memory against the log

Whether the tables of a store and the log beside them say the same, when appends may fail. A
failed append writes nothing, so an operation keeps the two in step exactly when it leaves the
tables as it found them. Every method does so, each in its own way: `create_queue`, the enqueues,
`extend_visibility` and `ack_batch` append before they change anything; the deliveries push what
they popped back to the front; `nack` puts the task back. `ack` does not: it removes the task
first, and a failed append leaves it removed (`ack_of_append_error`). The log still holds the
delivery, so the next start finds the task in flight again.

`Recovers`, the invariant of `Recovery`, is kept by every other event, failed appends included
(`Recovers.step_of_not_losesAck`); and an `ack` that loses its append breaks agreement on the
spot (`Recovers.not_inStep`). Together they say when memory and log never diverge.
-/

namespace Oxideq

namespace InMemoryStorage

variable {α : Type}

/-- An `ack` whose append fails still removes the task, and writes nothing. -/
theorem ack_of_append_error {s : InMemoryStorage α} {env : Env} {id e : String}
    (hw : s.wal.isSome) (henv : env.append = .error e) (hid : id ∈ s.inFlight) :
    (s.ack env id).2 = s.dropTask id := by
  obtain ⟨m, hm⟩ := Option.isSome_iff_exists.mp hw
  obtain ⟨task, ht⟩ := Option.isSome_iff_exists.mp (Finmap.lookup_isSome.mpr hid)
  have hlog : (s.dropTask id).logOp env (.ack id) = .error e := by
    unfold logOp
    simp only [dropTask, hm, WalManager.append, henv]
  unfold ack
  simp only [ht, hlog]

/-- A call other than a failing `ack` logs what it does, whether its appends succeed or not. -/
theorem call_logged_of_ack {envs : ℕ → Env} {s : InMemoryStorage α} {c : Call α}
    (h : ∀ id, c = .ack id → id ∈ s.inFlight → (envs 0).append = .ok ()) :
    Logged s (s.call envs c).2 := by
  cases c with
  | createQueue name => exact createQueue_logged ..
  | queue name item => exact queue_logged ..
  | queueBatch name items => exact queueBatch_logged ..
  | dequeue name => exact dequeue_logged ..
  | dequeueBatch name count => exact dequeueBatch_logged ..
  | ack taskId =>
    by_cases hid : taskId ∈ s.inFlight
    · exact ack_logged _ _ _ (Or.inl (h taskId rfl hid))
    · -- an unknown id is refused before anything happens
      have hl : s.inFlight.lookup taskId = none := Finmap.lookup_eq_none.mpr hid
      have hsame : (s.call envs (.ack taskId)).2 = s := by
        simp only [call, ack, hl, Prod.map, id]
      rw [hsame]
      exact Logged.refl s
  | ackBatch taskIds => exact ackBatch_logged ..
  | nack taskId => exact nack_logged ..
  | extendVisibility taskId duration => exact extendVisibility_logged ..
  | cleanupExpiredTasks timeoutSeconds => exact cleanupExpiredTasks_logged ..

end InMemoryStorage

namespace Node

/-- Memory and log say the same: a start on the file as it is now rebuilds the live tables,
`consumed_at` aside. -/
def InStep (n : Node) : Prop :=
  ∀ envs, SameState (InMemoryStorage.newPersistent envs n.contents) n.store

/-- An `ack` of a task in flight whose append fails. -/
def LosesAck (n : Node) : Event → Prop
  | .call envs (.ack id) => id ∈ n.store.inFlight ∧ ∃ e, (envs 0).append = .error e
  | _ => False

theorem Recovers.inStep {n : Node} (hn : Recovers n) : InStep n := fun envs =>
  hn.newPersistent envs

/-- Agreement survives every other event. -/
theorem Recovers.step_of_not_losesAck {n : Node} (hn : Recovers n) {ev : Event}
    (hev : ¬ LosesAck n ev) : Recovers (n.step ev) := by
  cases ev with
  | restart envs => exact hn.restart envs
  | call envs c =>
    refine hn.of_logged (InMemoryStorage.call_logged_of_ack ?_)
    rintro id rfl hid
    cases happ : (envs 0).append with
    | ok u => rfl
    | error e => exact absurd ⟨hid, e, happ⟩ hev

/-- The lost `ack` is missing from the log: the task is gone from memory and comes back with the
next start. -/
theorem Recovers.not_inStep {n : Node} (hn : Recovers n) {ev : Event} (hev : LosesAck n ev) :
    ¬ InStep (n.step ev) := by
  cases ev with
  | restart envs => exact hev.elim
  | call envs c =>
    cases c with
    | ack id =>
      obtain ⟨hid, e, happ⟩ := hev
      have hstep : n.step (.call envs (.ack id)) = { n with store := n.store.dropTask id } := by
        simp only [Node.step, InMemoryStorage.call, Prod.map, id_eq,
          InMemoryStorage.ack_of_append_error hn.1 happ hid]
      rw [hstep]
      intro hin
      -- the file is what it was, so the start rebuilds the state before the `ack`
      have hfile : contents { n with store := n.store.dropTask id } = n.contents := rfl
      have hold := hn.newPersistent envs
      have hnew := hin envs
      rw [hfile] at hnew
      have hmem := (hnew.mem_inFlight id).mp ((hold.mem_inFlight id).mpr hid)
      exact Finmap.notMem_erase_self hmem
    | _ => exact hev.elim

/-- **When memory and log never diverge.** A store opened on any log the program wrote, and any
events: calls whose appends succeed or fail, and restarts. Its tables agree with its log after
every event exactly when no `ack` of a task in flight loses its append. -/
theorem inStep_iff (envs : ℕ → Env) (es : List (WalEntry Bytes)) (events : List Event) :
    Along step InStep (start envs (Json.unlines (es.map WalEntry.line))) events ↔
      Meets step (fun n ev => ¬ LosesAck n ev)
        (start envs (Json.unlines (es.map WalEntry.line))) events :=
  along_iff_meets Recovers (fun _ hn => hn.inStep) (fun _ _ hn hev => hn.step_of_not_losesAck hev)
    (fun _ _ hn hev => hn.not_inStep (not_not.mp hev)) (recovers_start envs es)

/-- A message is delivered. -/
def delivery : List Event :=
  [.call (fun _ => Env.quiet []) (.createQueue "jobs"),
    .call (fun _ => Env.quiet []) (.queue "jobs" [0x68, 0x69]),
    .call (fun _ => Env.quiet ["5b0f6f4e-7f5c-4a39-9d3b-2f4f1c1f0b11"]) (.dequeue "jobs")]

/-- It is acknowledged while the disk is full. -/
def lostAck : Event :=
  .call (fun _ => { Env.quiet [] with append := .error "No space left on device" })
    (.ack "5b0f6f4e-7f5c-4a39-9d3b-2f4f1c1f0b11")

theorem not_inStep_lostAck :
    ¬ Along step InStep (start (fun _ => Env.quiet []) []) (delivery ++ [lostAck]) := by
  intro h
  have hlast := h.finish
  rw [List.foldl_append] at hlast
  have hrec : Recovers ((start (fun _ => Env.quiet []) []).run delivery) :=
    (recovers_start _ []).run (by simp [delivery, Event.AppendsSucceed, Env.quiet])
  have hlost : LosesAck ((start (fun _ => Env.quiet []) []).run delivery) lostAck :=
    ⟨by decide +kernel, _, rfl⟩
  exact hrec.not_inStep hlost hlast

end Node

end Oxideq
