import Oxideq.Lib.System
import Oxideq.Concurrent.Alone
import Oxideq.Replication.Agreement
import Oxideq.Replication.RaftStorage

/-!
# Snapshots taken while entries are applied

openraft builds a snapshot in a task of its own, on a clone of the storage, while the task of the
state machine goes on applying entries. The two tasks share the tables and the id of the last
applied entry, and they interleave at every access:

* `applyStep` is `apply_to_state_machine` cut as `Oxideq.Concurrent.Calls` cuts the methods of the
  store. The commands of the entries run one after the other, and each is followed by the write of
  `last_applied_log`.
* `buildStep` is `build_snapshot`. `get_snapshot_data` iterates over the queues and then over the
  tasks in flight. A `DashMap` is split into shards, and its iterator locks one after the other, so
  a shard (`Piece`) is copied in one step while the others may change. `last_applied_log` is read
  last.

A snapshot is **consistent** (`Consistent`) when its tables are those after exactly the entries up
to the id it names. Nothing makes it so: an entry that is applied between the copy of the queues
and the copy of the tasks moves its message into the snapshot twice, or out of it
(`not_consistent_dequeue`). What has to hold of the order of the steps is `Orderly`. For the
entry in progress, note which shards it has changed, each before or after its copy (`mark`). Then

* the entry may be recorded while the snapshot is being built only if it changed nothing behind a
  copy: the snapshot would name the entry and miss that change;
* `last_applied_log` may be read only if the entry in progress changed nothing ahead of a copy:
  the snapshot would hold that change and not name the entry.

Under these two conditions every snapshot is consistent (`consistent_run`). The invariant says for
every shard what its copy is worth: without a change behind the copy it is the shard as it is now,
without a change ahead of the copy it is the shard as the recorded entries left it
(`Matches`).
-/

namespace Oxideq

/-! ### Shards -/

/-- A shard of one of the two maps. -/
inductive Piece (n : ℕ) where
  | queues (k : Fin n)
  | inFlight (k : Fin n)
  deriving DecidableEq

/-- The shards in the order in which `get_snapshot_data` visits them. -/
def Piece.all (n : ℕ) : List (Piece n) :=
  (List.finRange n).map .queues ++ (List.finRange n).map .inFlight

deriving instance DecidableEq for Tables

namespace Tables

def empty : Tables := ⟨∅, ∅⟩

/-- The entries of one shard. -/
def piece (h : Sharding) (t : Tables) : Piece h.count → Tables
  | .queues k => ⟨Table.restrict (fun name => h.queueShard name = k) t.queues, ∅⟩
  | .inFlight k => ⟨∅, Table.restrict (fun id => h.taskShard id = k) t.inFlight⟩

/-- The copies collected so far, and those of one more shard. -/
def add (t copy : Tables) : Tables := ⟨t.queues ∪ copy.queues, t.inFlight ∪ copy.inFlight⟩

end Tables

/-! ### The two tasks -/

/-- Where the loop of `apply_to_state_machine` stands: in front of an entry, inside the method its
command calls, or in front of the write of `last_applied_log`. -/
inductive Stage where
  | next
  | call (pc : Pc Bytes)
  | record

/-- How far `build_snapshot` has come: the shards that are left and the copies made, or the copies
and the meta of the snapshot. -/
inductive Builder (n : ℕ) where
  | copying (todo : List (Piece n)) (copy : Tables)
  | built (copy : Tables) (snapshotMeta : SnapshotMeta)

/-- A node with both tasks under way; `applied` entries are recorded. -/
structure SharedStorage (n : ℕ) where
  storage : CombinedStorage
  applied : ℕ
  stage : Stage
  builder : Builder n

inductive NodeTask where
  | apply
  | build
  deriving DecidableEq, Repr

namespace SharedStorage

/-- Both tasks start on an empty state machine. -/
def start (h : Sharding) : SharedStorage h.count :=
  ⟨.new, 0, .next, .copying (Piece.all h.count) .empty⟩

/-- The tables as they are. -/
def tables {n : ℕ} (s : SharedStorage n) : Tables := s.storage.stateMachine.getSnapshotData

/-- The command in progress keeps an entry of the shard locked. -/
def Locked (h : Sharding) (s : SharedStorage h.count) (x : Piece h.count) : Prop :=
  match s.stage with
  | .call pc =>
    match x with
    | .queues k => pc.queueGuard.map h.queueShard = some k
    | .inFlight k => pc.taskGuard.map h.taskShard = some k
  | _ => False

instance (h : Sharding) (s : SharedStorage h.count) (x : Piece h.count) :
    Decidable (s.Locked h x) := by
  unfold Locked
  split
  · split <;> infer_instance
  · infer_instance

/-- A step of `apply_to_state_machine`; the `k`-th entry draws its values from `envs k`. A panic
ends the task. -/
def applyStep {n : ℕ} (envs : ℕ → Env) (log : List Entry) (s : SharedStorage n) :
    Option (SharedStorage n) :=
  match log[s.applied]? with
  | none => none
  | some entry =>
    match s.stage with
    | .next =>
      match entry.payload with
      | .normal req => some { s with stage := .call (.start req.call) }
      -- blank and membership entries call no method; the loop only pushes `ClientResponse::Ok`
      | .blank => some { s with stage := .record }
      | .membership _ => some { s with stage := .record }
    -- a panic unwinds out of `apply_to_state_machine`; the entry is never recorded
    | .call (.done .panic) => none
    | .call (.done _) => some { s with stage := .record }
    | .call pc =>
      let r := advance (envs s.applied) (s.storage.stateMachine, pc)
      some { s with storage := { s.storage with stateMachine := r.1 }, stage := .call r.2 }
    | .record =>
      some { s with
        storage := { s.storage with lastAppliedLog := some entry.logId }
        applied := s.applied + 1
        stage := .next }

/-- A step of `build_snapshot`. -/
def buildStep (h : Sharding) (s : SharedStorage h.count) : Option (SharedStorage h.count) :=
  match s.builder with
  | .copying (x :: todo) copy =>
    -- the iterator waits for a shard in which the command holds an entry
    if s.Locked h x then none
    else some { s with builder := .copying todo ((s.tables.piece h x).add copy) }
  | .copying [] copy =>
    let lastLog := s.storage.lastAppliedLog
    some { s with
      builder := .built copy
        { lastLogId := lastLog
          lastMembership := ⟨lastLog, .default⟩
          snapshotId := CombinedStorage.snapshotName lastLog } }
  | .built _ _ => none

/-- **The two tasks**, one step at a time. -/
def machine (h : Sharding) (envs : ℕ → Env) (log : List Entry) :
    System (SharedStorage h.count) NodeTask where
  step s
    | .apply => s.applyStep envs log
    | .build => s.buildStep h

/-! ### What is asked of a snapshot -/

/-- A snapshot that is built holds the tables after the entries up to the id it names, and after
no others. -/
def Consistent {n : ℕ} (envs : ℕ → Env) (log : List Entry) (s : SharedStorage n) : Prop :=
  match s.builder with
  | .copying _ _ => True
  | .built copy snapshotMeta =>
    ∃ k ≤ log.length, (log.take k).getLast?.map Entry.logId = snapshotMeta.lastLogId ∧
      copy = (replica envs (log.take k)).2.stateMachine.getSnapshotData

instance {n : ℕ} (envs : ℕ → Env) (log : List Entry) (s : SharedStorage n) :
    Decidable (s.Consistent envs log) := by
  unfold Consistent
  split <;> infer_instance

/-- The shard has been copied. -/
def Copied {n : ℕ} (s : SharedStorage n) (x : Piece n) : Prop :=
  match s.builder with
  | .copying todo _ => x ∉ todo
  | .built _ _ => True

instance {n : ℕ} (s : SharedStorage n) (x : Piece n) : Decidable (s.Copied x) := by
  unfold Copied
  split <;> infer_instance

/-- The shards the entry in progress has changed, each with whether it had been copied by then. -/
abbrev Marks (n : ℕ) := List (Piece n × Bool)

/-- The shards a step of the apply task changes are marked; the next entry starts without marks. -/
def mark (h : Sharding) (envs : ℕ → Env) (log : List Entry) (s : SharedStorage h.count) :
    NodeTask → Marks h.count → Marks h.count
  | .build, marks => marks
  | .apply, marks =>
    match s.stage, s.applyStep envs log with
    -- a shard may change more than once under one entry, on both sides of its copy
    | .call _, some s' =>
      ((Piece.all h.count).filter fun x => s.tables.piece h x ≠ s'.tables.piece h x).map
        (fun x => (x, decide (s.Copied x))) ++ marks
    | .record, _ => []
    | _, _ => marks

/-- The next step of the apply task records its entry. -/
def records {n : ℕ} (s : SharedStorage n) : Bool :=
  match s.stage with
  | .record => true
  | _ => false

/-- The snapshot has not been built yet. -/
def building {n : ℕ} (s : SharedStorage n) : Bool :=
  match s.builder with
  | .copying _ _ => true
  | .built _ _ => false

/-- The next step of the builder reads `last_applied_log`. -/
def readsLast {n : ℕ} (s : SharedStorage n) : Bool :=
  match s.builder with
  | .copying [] _ => true
  | _ => false

/-- **The order of the steps.** An entry is recorded under a snapshot in progress only if it
changed nothing behind a copy, and `last_applied_log` is read only if the entry in progress changed
nothing ahead of a copy. -/
def Orderly {n : ℕ} (s : SharedStorage n × Marks n) : NodeTask → Prop
  | .apply => s.1.records → s.1.building → ∀ m ∈ s.2, m.2 = false
  | .build => s.1.readsLast → ∀ m ∈ s.2, m.2 = true

instance {n : ℕ} (s : SharedStorage n × Marks n) (t : NodeTask) : Decidable (Orderly s t) := by
  cases t <;> unfold Orderly <;> infer_instance

end SharedStorage

/-! ### Shards of tables -/

namespace Piece

theorem mem_all {n : ℕ} (x : Piece n) : x ∈ all n := by
  cases x with
  | queues k =>
    exact List.mem_append_left _ (List.mem_map_of_mem (List.mem_finRange k))
  | inFlight k =>
    exact List.mem_append_right _ (List.mem_map_of_mem (List.mem_finRange k))

theorem nodup_all (n : ℕ) : (all n).Nodup := by
  refine List.Nodup.append ?_ ?_ ?_
  · exact (List.nodup_finRange n).map fun _ _ h => Piece.queues.inj h
  · exact (List.nodup_finRange n).map fun _ _ h => Piece.inFlight.inj h
  · intro x hx hx'
    obtain ⟨_, -, rfl⟩ := List.mem_map.mp hx
    obtain ⟨_, -, hk⟩ := List.mem_map.mp hx'
    cases hk

end Piece

namespace Tables

variable {h : Sharding} {t t' copy : Tables} {x y : Piece h.count}

@[simp] theorem piece_empty : (empty.piece h x) = empty := by
  cases x <;> rfl

@[simp] theorem add_empty : t.add empty = t := by
  rw [add, empty, Finmap.union_empty, Finmap.union_empty]

@[simp] theorem empty_add : empty.add t = t := by
  rw [add, empty, Finmap.empty_union, Finmap.empty_union]

theorem piece_add : (t.add copy).piece h x = (t.piece h x).add (copy.piece h x) := by
  cases x with
  | queues k =>
    rw [piece, piece, piece, add, add, Table.restrict_union, Finmap.union_empty]
  | inFlight k =>
    rw [piece, piece, piece, add, add, Table.restrict_union, Finmap.union_empty]

@[simp] theorem piece_piece_self : (t.piece h x).piece h x = t.piece h x := by
  cases x with
  | queues k => rw [piece, piece, Table.restrict_restrict_self]
  | inFlight k => rw [piece, piece, Table.restrict_restrict_self]

theorem piece_piece_of_ne (hxy : x ≠ y) : (t.piece h x).piece h y = empty := by
  cases x with
  | queues k =>
    cases y with
    | queues k' =>
      -- no key is in two shards
      have hk : ∀ name, h.queueShard name = k' → ¬ h.queueShard name = k := by
        rintro name rfl rfl
        exact hxy rfl
      rw [piece, piece, Table.restrict_restrict_of_disjoint hk, empty]
    | inFlight k' => rw [piece, piece, Table.restrict_empty, empty]
  | inFlight k =>
    cases y with
    | queues k' => rw [piece, piece, Table.restrict_empty, empty]
    | inFlight k' =>
      have hk : ∀ id, h.taskShard id = k' → ¬ h.taskShard id = k := by
        rintro id rfl rfl
        exact hxy rfl
      rw [piece, piece, Table.restrict_restrict_of_disjoint hk, empty]

/-- Tables with the same shards are the same. -/
theorem eq_of_pieces (hp : ∀ x, t.piece h x = t'.piece h x) : t = t' := by
  have hqueues : t.queues = t'.queues :=
    Table.eq_of_restrict h.queueShard fun k => congrArg Tables.queues (hp (.queues k))
  have hinFlight : t.inFlight = t'.inFlight :=
    Table.eq_of_restrict h.taskShard fun k => congrArg Tables.inFlight (hp (.inFlight k))
  cases t
  cases t'
  rw [mk.injEq]
  exact ⟨hqueues, hinFlight⟩

/-- The copy of one more shard. -/
theorem piece_add_piece (hfresh : copy.piece h x = empty) :
    ((t.piece h x).add copy).piece h y = if x = y then t.piece h y else copy.piece h y := by
  rw [piece_add]
  split
  · next hxy =>
    subst hxy
    rw [piece_piece_self, hfresh, add_empty]
  · next hxy => rw [piece_piece_of_ne hxy, empty_add]

end Tables

/-! ### The entries applied so far -/

/-- One more entry. -/
theorem CombinedStorage.applyToStateMachine_concat {c : CombinedStorage} {envs : ℕ → Env}
    {entries : List Entry} {responses : List ClientResponse} {entry : Entry} {res : ClientResponse}
    {s : InMemoryStorage Bytes} (h : (c.applyToStateMachine envs entries).1 = some responses)
    (ha : entry.payload.apply (c.applyToStateMachine envs entries).2.stateMachine
      (envs entries.length) = (some res, s)) :
    c.applyToStateMachine envs (entries ++ [entry])
      = (some (responses ++ [res]), ⟨s, some entry.logId⟩) := by
  -- on the entries: the first one moves the state and shifts the draws, the last one stays the last
  induction entries generalizing c envs responses with
  | nil =>
    rw [applyToStateMachine] at h
    cases h
    change entry.payload.apply c.stateMachine (envs 0) = (some res, s) at ha
    rw [List.nil_append, applyToStateMachine, ha]
    rfl
  | cons e entries ih =>
    rw [applyToStateMachine] at h ha
    rw [List.cons_append, applyToStateMachine]
    cases he : e.payload.apply c.stateMachine (envs 0) with
    | mk res₀ s₀ =>
      rw [he] at h ha
      cases res₀ with
      | none => cases h
      | some res₀ =>
        obtain ⟨responses', hr, rfl⟩ := Option.map_eq_some_iff.mp h
        have hrest := ih hr ha
        change (applyToStateMachine ⟨s₀, some e.logId⟩ (fun k => envs (k + 1))
          (entries ++ [entry])).map (Option.map (res₀ :: ·)) id = _
        rw [hrest]
        rfl

namespace SharedStorage

section Apply

variable {n : ℕ} {envs : ℕ → Env} {log : List Entry} {s s' : SharedStorage n}

/-- What a step of the apply task does. -/
inductive Move (envs : ℕ → Env) (log : List Entry) (s : SharedStorage n) : SharedStorage n → Prop
  | skip {entry : Entry} (hentry : log[s.applied]? = some entry) (hstage : s.stage = .next)
    (hpayload : ∀ t env, entry.payload.apply t env = (some .ok, t)) :
    Move envs log s { s with stage := .record }
  | enter {entry : Entry} {req : ClientRequest} (hentry : log[s.applied]? = some entry)
    (hstage : s.stage = .next) (hpayload : entry.payload = .normal req) :
    Move envs log s { s with stage := .call (.start req.call) }
  | access {pc pc' : Pc Bytes} {t : InMemoryStorage Bytes} (hstage : s.stage = .call pc)
    (hadvance : advance (envs s.applied) (s.storage.stateMachine, pc) = (t, pc')) :
    Move envs log s
      { s with storage := { s.storage with stateMachine := t }, stage := .call pc' }
  | leave {r : Outcome (Reply Bytes)} (hstage : s.stage = .call (.done r)) (hr : r ≠ .panic) :
    Move envs log s { s with stage := .record }
  | record {entry : Entry} (hentry : log[s.applied]? = some entry) (hstage : s.stage = .record) :
    Move envs log s
      { s with
        storage := { s.storage with lastAppliedLog := some entry.logId }
        applied := s.applied + 1
        stage := .next }

theorem move_applyStep (hs : s.applyStep envs log = some s') : Move envs log s s' := by
  unfold applyStep at hs
  cases hentry : log[s.applied]? with
  | none =>
    rw [hentry] at hs
    cases hs
  | some entry =>
    simp only [hentry] at hs
    cases hstage : s.stage with
    | next =>
      simp only [hstage] at hs
      cases hpayload : entry.payload with
      | normal req =>
        simp only [hpayload, Option.some.injEq] at hs
        subst hs
        exact .enter hentry hstage hpayload
      | blank =>
        simp only [hpayload, Option.some.injEq] at hs
        subst hs
        exact .skip hentry hstage fun t env => by rw [hpayload]; rfl
      | membership m =>
        simp only [hpayload, Option.some.injEq] at hs
        subst hs
        exact .skip hentry hstage fun t env => by rw [hpayload]; rfl
    | call pc =>
      simp only [hstage] at hs
      split at hs
      · next heq => cases heq
      · cases hs
      · next r hr heq =>
        cases heq
        cases hs
        exact .leave hstage hr
      · next heq =>
        cases heq
        cases hs
        exact .access hstage rfl
      · next heq => cases heq
    | record =>
      simp only [hstage, Option.some.injEq] at hs
      subst hs
      exact .record hentry hstage

/-- Where the command in progress stands, from the tables the recorded entries left. -/
def InProgress (envs : ℕ → Env) (log : List Entry) (s : SharedStorage n) : Prop :=
  let t := (replica envs (log.take s.applied)).2.stateMachine
  match s.stage with
  | .next => s.storage.stateMachine = t
  | .call pc =>
    ∃ entry req k, log[s.applied]? = some entry ∧ entry.payload = .normal req ∧
      (advance (envs s.applied))^[k] (t, .start req.call) = (s.storage.stateMachine, pc)
  | .record =>
    ∃ entry res, log[s.applied]? = some entry ∧
      entry.payload.apply t (envs s.applied) = (some res, s.storage.stateMachine)

/-- The apply task has recorded a prefix of the log and is at work on the next entry. -/
structure Applied (envs : ℕ → Env) (log : List Entry) (s : SharedStorage n) : Prop where
  ran : ∃ responses, (replica envs (log.take s.applied)).1 = some responses
  le : s.applied ≤ log.length
  last : s.storage.lastAppliedLog = (log.take s.applied).getLast?.map Entry.logId
  inProgress : s.InProgress envs log

theorem applied_start (h : Sharding) (envs : ℕ → Env) (log : List Entry) :
    (start h).Applied envs log where
  ran := ⟨[], rfl⟩
  le := Nat.zero_le _
  last := rfl
  inProgress := rfl

/-- An entry in front of its record is applied in full. -/
theorem Applied.replica_record (ha : s.Applied envs log) {entry : Entry}
    (hentry : log[s.applied]? = some entry) (hstage : s.stage = .record) :
    log.take (s.applied + 1) = log.take s.applied ++ [entry] ∧
      ∃ responses, replica envs (log.take (s.applied + 1))
        = (some responses, ⟨s.storage.stateMachine, some entry.logId⟩) := by
  have htake : log.take (s.applied + 1) = log.take s.applied ++ [entry] := by
    rw [List.take_add_one, hentry, Option.toList_some]
  refine ⟨htake, ?_⟩
  obtain ⟨responses, hran⟩ := ha.ran
  have hp := ha.inProgress
  rw [InProgress, hstage] at hp
  obtain ⟨entry', res, hentry', happly⟩ := hp
  obtain rfl : entry = entry' := Option.some.inj (hentry.symm.trans hentry')
  have hlength : (log.take s.applied).length = s.applied := List.length_take_of_le ha.le
  rw [htake]
  exact ⟨_, CombinedStorage.applyToStateMachine_concat hran (by rw [hlength]; exact happly)⟩

/-- A command that has come to its end has the effect of its entry. -/
theorem InProgress.leave (hp : s.InProgress envs log) {r : Outcome (Reply Bytes)}
    (hstage : s.stage = .call (.done r)) (hr : r ≠ .panic) :
    ({ s with stage := .record } : SharedStorage n).InProgress envs log := by
  rw [InProgress, hstage] at hp
  obtain ⟨entry, req, k, hentry, hpayload, hpath⟩ := hp
  let t := (replica envs (log.take s.applied)).2.stateMachine
  let env := envs s.applied
  have hcall : ∀ timeout, req.call ≠ .cleanupExpiredTasks timeout := by
    intro timeout
    cases req <;> nofun
  have hend : Ends env (t, .start req.call) s.storage.stateMachine r := ⟨k, hpath⟩
  -- the steps of a call that runs alone end where the whole method does
  obtain ⟨hstore, houtcome⟩ := hend.unique (ends_call env t hcall)
  obtain ⟨hstate, hpanic⟩ := req.apply_call t env
  have happly : entry.payload.apply t env = req.apply t env := by rw [hpayload, EntryPayload.apply]
  refine ⟨entry, ?_⟩
  cases hres : (req.apply t env).1 with
  | none => exact absurd (houtcome.trans (hpanic hres)) hr
  | some res =>
    refine ⟨res, hentry, ?_⟩
    change entry.payload.apply t env = (some res, s.storage.stateMachine)
    rw [happly, hstore, ← hstate, ← hres]

/-- **A step of the apply task.** -/
theorem Applied.step (ha : s.Applied envs log) (hm : Move envs log s s') :
    s'.Applied envs log := by
  cases hm with
  | skip hentry hstage hpayload =>
    have hp := ha.inProgress
    rw [InProgress, hstage] at hp
    refine ⟨ha.ran, ha.le, ha.last, ?_⟩
    exact ⟨_, .ok, hentry, by rw [hpayload, ← hp]⟩
  | enter hentry hstage hpayload =>
    have hp := ha.inProgress
    rw [InProgress, hstage] at hp
    refine ⟨ha.ran, ha.le, ha.last, ?_⟩
    exact ⟨_, _, 0, hentry, hpayload, by rw [Function.iterate_zero, id, ← hp]⟩
  | access hstage hadvance =>
    have hp := ha.inProgress
    rw [InProgress, hstage] at hp
    obtain ⟨entry, req, k, hentry, hpayload, hpath⟩ := hp
    refine ⟨ha.ran, ha.le, ha.last, entry, req, k + 1, hentry, hpayload, ?_⟩
    -- one more step of the same path
    rw [Function.iterate_succ_apply', hpath]
    exact hadvance
  | leave hstage hr => exact ⟨ha.ran, ha.le, ha.last, ha.inProgress.leave hstage hr⟩
  | record hentry hstage =>
    -- the recorded entries are one more, and the tables are what they leave
    obtain ⟨htake, responses, hreplica⟩ := ha.replica_record hentry hstage
    refine ⟨⟨responses, ?_⟩, ?_, ?_, ?_⟩
    · exact congrArg Prod.fst hreplica
    · exact (List.getElem?_eq_some_iff.mp hentry).1
    · change some _ = (log.take (s.applied + 1)).getLast?.map Entry.logId
      rw [htake, List.getLast?_concat, Option.map_some]
    · change s.storage.stateMachine = (replica envs (log.take (s.applied + 1))).2.stateMachine
      rw [hreplica]

end Apply

/-! ### What the copies are worth -/

/-- The tables the recorded entries left. -/
def recorded {n : ℕ} (envs : ℕ → Env) (log : List Entry) (s : SharedStorage n) : Tables :=
  (replica envs (log.take s.applied)).2.stateMachine.getSnapshotData

section Copies

variable {h : Sharding} {envs : ℕ → Env} {log : List Entry} {s s' : SharedStorage h.count}
  {marks : Marks h.count} {todo : List (Piece h.count)} {copy : Tables} {x : Piece h.count}

/-- The shards of a snapshot in progress. Without marks ahead of its copy, a shard has not moved
on from the recorded entries by the time it is copied; without marks behind its copy, it has not
moved on from the copy. -/
structure Copies (h : Sharding) (envs : ℕ → Env) (log : List Entry) (s : SharedStorage h.count)
    (marks : Marks h.count) (todo : List (Piece h.count)) (copy : Tables) : Prop where
  nodup : todo.Nodup
  fresh : ∀ x ∈ todo, copy.piece h x = .empty
  ahead : ∀ x ∈ todo, (x, false) ∉ marks →
    s.tables.piece h x = (s.recorded envs log).piece h x
  behind : ∀ x ∉ todo, (x, true) ∉ marks → copy.piece h x = s.tables.piece h x
  kept : ∀ x ∉ todo, (x, false) ∉ marks → copy.piece h x = (s.recorded envs log).piece h x

/-- The copies of a snapshot in progress, or the snapshot that was built. -/
def Matches (h : Sharding) (envs : ℕ → Env) (log : List Entry)
    (s : SharedStorage h.count × Marks h.count) : Prop :=
  match s.1.builder with
  | .copying todo copy => Copies h envs log s.1 s.2 todo copy
  | .built _ _ => s.1.Consistent envs log

theorem matches_start (h : Sharding) (envs : ℕ → Env) (log : List Entry) :
    Matches h envs log (start h, []) where
  nodup := Piece.nodup_all _
  fresh _ _ := Tables.piece_empty
  ahead _ _ _ := rfl
  behind x hx := absurd (Piece.mem_all x) hx
  kept x hx := absurd (Piece.mem_all x) hx

theorem Move.builder (hm : Move envs log s s') : s'.builder = s.builder := by
  cases hm <;> rfl

/-- A shard that is not marked was not changed. -/
theorem notMem_mark {pc : Pc Bytes} {b : Bool} (hstage : s.stage = .call pc)
    (hs : s.applyStep envs log = some s') (hx : (x, b) ∉ s.mark h envs log .apply marks) :
    (x, b) ∉ marks ∧ (decide (s.Copied x) = b → s.tables.piece h x = s'.tables.piece h x) := by
  simp only [mark, hstage, hs, List.mem_append, not_or] at hx
  refine ⟨hx.2, fun hb => ?_⟩
  by_contra hne
  -- a changed shard is marked with whether its copy was made
  refine hx.1 (List.mem_map.mpr ⟨x, List.mem_filter.mpr ⟨Piece.mem_all x, ?_⟩, ?_⟩)
  · exact decide_eq_true hne
  · rw [hb]

/-- A step inside a command: what it changes is marked. -/
theorem Copies.call {pc : Pc Bytes} (hc : Copies h envs log s marks todo copy)
    (hb : s.builder = .copying todo copy) (hstage : s.stage = .call pc)
    (hs : s.applyStep envs log = some s') (happlied : s'.applied = s.applied) :
    Copies h envs log s' (s.mark h envs log .apply marks) todo copy := by
  have hrecorded : s'.recorded envs log = s.recorded envs log := by
    rw [recorded, recorded, happlied]
  have hcopied : ∀ x, s.Copied x ↔ x ∉ todo := by
    intro x
    rw [Copied, hb]
  refine ⟨hc.nodup, hc.fresh, ?_, ?_, ?_⟩
  · intro x hx hmark
    obtain ⟨hold, hsame⟩ := notMem_mark hstage hs hmark
    -- not copied yet, so a change would be marked as ahead
    have hnot : ¬ s.Copied x := fun hcop => (hcopied x).mp hcop hx
    rw [← hsame (decide_eq_false hnot), hrecorded]
    exact hc.ahead x hx hold
  · intro x hx hmark
    obtain ⟨hold, hsame⟩ := notMem_mark hstage hs hmark
    -- copied already, so a change would be marked as behind
    rw [← hsame (decide_eq_true ((hcopied x).mpr hx))]
    exact hc.behind x hx hold
  · intro x hx hmark
    obtain ⟨hold, -⟩ := notMem_mark hstage hs hmark
    rw [hrecorded]
    exact hc.kept x hx hold

/-- The record of an entry: without marks behind a copy, the copies are those of the tables now. -/
theorem Copies.record (hc : Copies h envs log s marks todo copy) (ha : s.Applied envs log)
    {entry : Entry} (hentry : log[s.applied]? = some entry) (hstage : s.stage = .record)
    (hmarks : ∀ m ∈ marks, m.2 = false) (htables : s'.tables = s.tables)
    (happlied : s'.applied = s.applied + 1) : Copies h envs log s' [] todo copy := by
  obtain ⟨-, responses, hreplica⟩ := ha.replica_record hentry hstage
  have hrecorded : s'.recorded envs log = s'.tables := by
    rw [recorded, happlied, hreplica, htables]
    rfl
  have hbehind : ∀ x ∉ todo, copy.piece h x = s'.tables.piece h x := by
    intro x hx
    rw [htables]
    exact hc.behind x hx fun hm => Bool.noConfusion (hmarks _ hm)
  -- with the entry recorded the tables now and the recorded ones are the same, and no mark is left
  refine ⟨hc.nodup, hc.fresh, ?_, fun x hx _ => hbehind x hx, ?_⟩
  · intro x _ _
    rw [hrecorded]
  · intro x hx _
    rw [hrecorded]
    exact hbehind x hx

theorem Copies.apply (hc : Copies h envs log s marks todo copy) (ha : s.Applied envs log)
    (hb : s.builder = .copying todo copy) (hok : Orderly (s, marks) .apply)
    (hs : s.applyStep envs log = some s') :
    Copies h envs log s' (s.mark h envs log .apply marks) todo copy := by
  have hm := move_applyStep hs
  cases hm with
  | skip hentry hstage hpayload =>
    have hmark : s.mark h envs log .apply marks = marks := by simp only [mark, hstage]
    rw [hmark]
    exact ⟨hc.nodup, hc.fresh, hc.ahead, hc.behind, hc.kept⟩
  | enter hentry hstage hpayload =>
    have hmark : s.mark h envs log .apply marks = marks := by simp only [mark, hstage]
    rw [hmark]
    exact ⟨hc.nodup, hc.fresh, hc.ahead, hc.behind, hc.kept⟩
  | access hstage hadvance => exact hc.call hb hstage hs rfl
  | leave hstage hr => exact hc.call hb hstage hs rfl
  | record hentry hstage =>
    -- the one step on which the order is asked for: nothing may have changed behind a copy
    have hmark : s.mark h envs log .apply marks = [] := by simp only [mark, hstage]
    have hrecords : s.records = true := by rw [records, hstage]
    have hbuilding : s.building = true := by rw [building, hb]
    rw [hmark]
    exact hc.record ha hentry hstage (hok hrecords hbuilding) rfl rfl

/-- The copy of one more shard. -/
theorem Copies.visit (hc : Copies h envs log s marks (x :: todo) copy)
    (htables : s'.tables = s.tables) (happlied : s'.applied = s.applied) :
    Copies h envs log s' marks todo ((s.tables.piece h x).add copy) := by
  obtain ⟨hx, hnodup⟩ := List.nodup_cons.mp hc.nodup
  have hrecorded : s'.recorded envs log = s.recorded envs log := by
    rw [recorded, recorded, happlied]
  have hpiece : ∀ y, ((s.tables.piece h x).add copy).piece h y
      = if x = y then s.tables.piece h y else copy.piece h y :=
    fun y => Tables.piece_add_piece (hc.fresh x List.mem_cons_self)
  refine ⟨hnodup, ?_, ?_, ?_, ?_⟩
  · intro y hy
    have hxy : x ≠ y := fun hxy => hx (hxy ▸ hy)
    rw [hpiece, if_neg hxy]
    exact hc.fresh y (List.mem_cons_of_mem _ hy)
  · intro y hy hmark
    rw [htables, hrecorded]
    exact hc.ahead y (List.mem_cons_of_mem _ hy) hmark
  · intro y hy hmark
    rw [hpiece, htables]
    split
    · rfl
    · next hxy => exact hc.behind y (List.not_mem_cons_of_ne_of_not_mem (Ne.symm hxy) hy) hmark
  · intro y hy hmark
    rw [hpiece, hrecorded]
    split
    · next hxy =>
      subst hxy
      -- copied without a change ahead of it: what the recorded entries left
      exact hc.ahead x List.mem_cons_self hmark
    · next hxy => exact hc.kept y (List.not_mem_cons_of_ne_of_not_mem (Ne.symm hxy) hy) hmark

/-- **A step keeps what is known of the snapshot.** -/
theorem Matches.step {t : NodeTask} (hm : Matches h envs log (s, marks)) (ha : s.Applied envs log)
    (hok : Orderly (s, marks) t) (hs : (machine h envs log).step s t = some s') :
    Matches h envs log (s', s.mark h envs log t marks) := by
  cases t with
  | apply =>
    have hbuilder : s'.builder = s.builder := (move_applyStep hs).builder
    rw [Matches] at hm ⊢
    rw [hbuilder]
    cases hb : s.builder with
    | copying todo copy =>
      rw [hb] at hm
      exact hm.apply ha hb hok hs
    | built copy snapshotMeta =>
      rw [hb] at hm
      change s'.Consistent envs log
      rw [Consistent, hbuilder]
      exact hm
  | build =>
    change s.buildStep h = some s' at hs
    rw [Matches] at hm
    unfold buildStep at hs
    cases hb : s.builder with
    | copying todo copy =>
      rw [hb] at hm hs
      cases todo with
      | cons x todo =>
        obtain ⟨-, hs⟩ := Option.ite_none_left_eq_some.mp hs
        cases hs
        exact hm.visit rfl rfl
      | nil =>
        cases hs
        have hreads : s.readsLast = true := by rw [readsLast, hb]
        -- all shards are copied and none was changed ahead of its copy: the recorded tables
        have hfalse : ∀ x, (x, false) ∉ marks := fun x hx => Bool.noConfusion (hok hreads _ hx)
        have hcopy : copy = s.recorded envs log :=
          Tables.eq_of_pieces fun x => hm.kept x List.not_mem_nil (hfalse x)
        exact ⟨s.applied, ha.le, ha.last.symm, hcopy⟩
    | built copy snapshotMeta =>
      rw [hb] at hs
      cases hs

/-- The builder on its own copies shard after shard and reads the last id at the end. -/
theorem run_build (envs : ℕ → Env) (log : List Entry) (hfree : ∀ x, ¬ s.Locked h x)
    (hb : s.builder = .copying todo copy) (hnodup : todo.Nodup)
    (hfresh : ∀ x ∈ todo, copy.piece h x = .empty)
    (hdone : ∀ x ∉ todo, copy.piece h x = s.tables.piece h x) :
    ∃ snapshotMeta, (machine h envs log).run (fun _ _ => True) s
        (List.replicate (todo.length + 1) .build)
          = some { s with builder := .built s.tables snapshotMeta } ∧
      ∀ format, s.storage.buildSnapshot format = ⟨snapshotMeta, format.toVec s.tables⟩ := by
  -- on the shards that are left; what is copied so far is as in the tables
  induction todo generalizing s copy with
  | nil =>
    have hcopy : copy = s.tables := Tables.eq_of_pieces fun x => hdone x List.not_mem_nil
    refine ⟨_, ?_, fun format => rfl⟩
    rw [List.length_nil, Nat.zero_add, List.replicate_one, System.run, if_pos trivial]
    change (s.buildStep h).bind _ = _
    rw [buildStep, hb]
    simp only [Option.bind_some, System.run, hcopy]
  | cons x todo ih =>
    obtain ⟨hx, hnodup⟩ := List.nodup_cons.mp hnodup
    let s₁ : SharedStorage h.count :=
      { s with builder := .copying todo ((s.tables.piece h x).add copy) }
    have hpiece : ∀ y, ((s.tables.piece h x).add copy).piece h y
        = if x = y then s.tables.piece h y else copy.piece h y :=
      fun y => Tables.piece_add_piece (hfresh x List.mem_cons_self)
    have hstep : (machine h envs log).step s .build = some s₁ := by
      change s.buildStep h = some s₁
      rw [buildStep, hb]
      exact if_neg (hfree x)
    have hrest := ih (s := s₁) hfree rfl hnodup
      (fun y hy => by
        have hxy : x ≠ y := fun hxy => hx (hxy ▸ hy)
        rw [hpiece, if_neg hxy]
        exact hfresh y (List.mem_cons_of_mem _ hy))
      (fun y hy => by
        rw [hpiece]
        split
        · rfl
        · next hxy => exact hdone y (List.not_mem_cons_of_ne_of_not_mem (Ne.symm hxy) hy))
    obtain ⟨snapshotMeta, hrun, hsnapshot⟩ := hrest
    refine ⟨snapshotMeta, ?_, hsnapshot⟩
    rw [List.length_cons, List.replicate_succ, System.run, if_pos trivial, hstep, Option.bind_some]
    exact hrun

/-- **Between two entries, the builder on its own builds the snapshot of `buildSnapshot`.** -/
theorem run_build_next (envs : ℕ → Env) (log : List Entry) (hstage : s.stage = .next)
    (hb : s.builder = .copying (Piece.all h.count) .empty) :
    ∃ snapshotMeta, (machine h envs log).run (fun _ _ => True) s
        (List.replicate ((Piece.all h.count).length + 1) .build)
          = some { s with builder := .built s.tables snapshotMeta } ∧
      ∀ format, s.storage.buildSnapshot format = ⟨snapshotMeta, format.toVec s.tables⟩ := by
  refine run_build envs log ?_ hb (Piece.nodup_all _) (fun _ _ => Tables.piece_empty)
    fun x hx => absurd (Piece.mem_all x) hx
  intro x
  rw [Locked, hstage]
  exact id

end Copies

/-! ### Every run -/

/-- A step of the builder leaves the apply task where it is. -/
theorem Applied.build {h : Sharding} {envs : ℕ → Env} {log : List Entry}
    {s s' : SharedStorage h.count} (ha : s.Applied envs log) (hs : s.buildStep h = some s') :
    s'.Applied envs log := by
  unfold buildStep at hs
  split at hs
  · obtain ⟨-, hs⟩ := Option.ite_none_left_eq_some.mp hs
    cases hs
    exact ⟨ha.ran, ha.le, ha.last, ha.inProgress⟩
  · cases hs
    exact ⟨ha.ran, ha.le, ha.last, ha.inProgress⟩
  · cases hs

/-- **Every snapshot of an orderly run is consistent.** -/
theorem consistent_run {h : Sharding} {envs : ℕ → Env} {log : List Entry}
    {s : SharedStorage h.count × Marks h.count}
    (hr : ((machine h envs log).recording (mark h envs log)).Reach Orderly (start h, []) s) :
    s.1.Consistent envs log := by
  have hinv : s.1.Applied envs log ∧ Matches h envs log s := by
    refine hr.invariant (fun s => s.1.Applied envs log ∧ Matches h envs log s) ?_ ?_
    · exact ⟨applied_start h envs log, matches_start h envs log⟩
    · rintro ⟨s, marks⟩ t ⟨s', marks'⟩ ⟨ha, hm⟩ hok hs
      obtain ⟨hstep, hmarks⟩ := System.recording_step.mp hs
      change (machine h envs log).step s t = some s' at hstep
      change marks' = s.mark h envs log t marks at hmarks
      subst hmarks
      refine ⟨?_, hm.step ha hok hstep⟩
      cases t with
      | apply => exact ha.step (move_applyStep hstep)
      | build => exact ha.build hstep
  obtain ⟨-, hm⟩ := hinv
  rw [Consistent]
  rw [Matches] at hm
  cases hb : s.1.builder with
  | copying todo copy => trivial
  | built copy snapshotMeta =>
    rw [hb] at hm
    rw [Consistent, hb] at hm
    exact hm

/-! ### A queue with one message -/

/-- One message is queued and then taken. -/
def jobLog : List Entry :=
  [⟨⟨⟨1, 1⟩, 1⟩, .normal (.createQueue "jobs")⟩,
    ⟨⟨⟨1, 1⟩, 2⟩, .normal (.enqueue "jobs" [0x68])⟩,
    ⟨⟨⟨1, 1⟩, 3⟩, .normal (.dequeue "jobs")⟩]

/-- All keys in one shard. -/
def oneShard : Sharding := ⟨1, fun _ => ⟨0, Nat.one_pos⟩, fun _ => ⟨0, Nat.one_pos⟩⟩

/-- The task is acknowledged between the copy of the queues and the copy of the tasks. That entry
touches no queue, so the snapshot may name it. -/
theorem consistent_run_acked :
    let log := jobLog ++ [⟨⟨⟨1, 1⟩, 4⟩, .normal (.ack "t")⟩]
    let envs : ℕ → Env := fun _ => Env.quiet ["t"]
    ∃ s, ((machine oneShard envs log).recording (mark oneShard envs log)).Reach Orderly
        (start oneShard, []) s ∧ (s.1.building = false ∧ s.1.applied = 4) ∧
      s.1.Consistent envs log := by
  intro log envs
  obtain ⟨s, hr, hbuilt⟩ := System.Reach.exists_of_run
    ((machine oneShard envs log).recording (mark oneShard envs log)) Orderly (start oneShard, [])
    (fun s => s.1.building = false ∧ s.1.applied = 4)
    (List.replicate 15 .apply ++ [.build] ++ List.replicate 5 .apply ++ [.build, .build])
    (by decide +kernel)
  exact ⟨s, hr, hbuilt, consistent_run hr⟩

/-- The message is taken between the copy of the queues and the copy of the tasks, so that the
snapshot holds it pending and in flight. -/
theorem not_consistent_dequeue :
    ¬ ∀ (h : Sharding) (envs : ℕ → Env) (log : List Entry) (s : SharedStorage h.count),
      (machine h envs log).Reach (fun _ _ => True) (start h) s → s.Consistent envs log := by
  intro hall
  obtain ⟨s, hr, hnot⟩ := System.Reach.exists_of_run
    (machine oneShard (fun _ => Env.quiet ["t"]) jobLog) (fun _ _ => True) (start oneShard)
    (fun s => ¬ s.Consistent (fun _ => Env.quiet ["t"]) jobLog)
    (List.replicate 10 .apply ++ [.build] ++ List.replicate 5 .apply ++ [.build, .build])
    (by decide +kernel)
  exact hnot (hall _ _ _ s hr)

end SharedStorage

end Oxideq
