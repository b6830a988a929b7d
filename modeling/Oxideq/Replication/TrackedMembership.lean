import Oxideq.Lib.Runs
import Oxideq.Replication.RaftStorage

/-!
# The reported membership

Which membership a node reports, in `last_applied_state` and in the meta of a snapshot it builds.
What it should report follows from what was applied and installed: a run of
`apply_to_state_machine` and `install_snapshot` calls is a sequence of changes, each with a log
id, some of which carry a membership. The membership to report is the one carried last
(`membershipOf`).

The code keeps the log id of the last change and no membership. It reports that id with the
empty membership, so its answer is right exactly when that happens to be what was carried last
(`tracked_iff`): nothing has changed yet, or an empty membership was carried last, under the id
of the last change.
-/

namespace Oxideq

namespace CombinedStorage

/-! ### Calls and changes -/

/-- The calls that change the state machine of a node. -/
inductive Call where
  | applyToStateMachine (envs : ℕ → Env) (entries : List Entry)
  | installSnapshot (snapshotMeta : SnapshotMeta) (snapshot : Bytes)

/-- What a call does to the log position of the state machine. -/
inductive Change where
  | applied (entry : Entry)
  | installed (snapshotMeta : SnapshotMeta)
  deriving DecidableEq, Repr

namespace Change

def logId : Change → Option LogId
  | .applied entry => some entry.logId
  | .installed snapshotMeta => snapshotMeta.lastLogId

/-- The membership a change carries. -/
def carried : Change → Option StoredMembership
  | .applied entry =>
    match entry.payload with
    | .membership m => some ⟨some entry.logId, m⟩
    | _ => none
  | .installed snapshotMeta => some snapshotMeta.lastMembership

end Change

/-- The id of the last change. -/
def lastId (changes : List Change) : Option LogId := changes.getLast?.bind Change.logId

/-- The membership carried last; the default one before any is carried. -/
def membershipOf (changes : List Change) : StoredMembership :=
  changes.foldl (fun m c => c.carried.getD m) .default

/-- The entries `apply_to_state_machine` gets through: all of them, unless one panics. -/
def entriesApplied (c : CombinedStorage) (envs : ℕ → Env) : List Entry → List Entry
  | [] => []
  | entry :: entries =>
    match entry.payload.apply c.stateMachine (envs 0) with
    | (none, _) => []
    | (some _, s) =>
      entry :: entriesApplied ⟨s, some entry.logId⟩ (fun k => envs (k + 1)) entries

/-- The changes a call makes. -/
def changesOf (format : SnapshotFormat) (c : CombinedStorage) : Call → List Change
  | .applyToStateMachine envs entries => (c.entriesApplied envs entries).map .applied
  -- a snapshot that does not decode changes nothing
  | .installSnapshot snapshotMeta snapshot =>
    match (c.installSnapshot format snapshotMeta snapshot).1 with
    | .ok () => [.installed snapshotMeta]
    | .error _ => []

def call (format : SnapshotFormat) (c : CombinedStorage) : Call → CombinedStorage
  | .applyToStateMachine envs entries => (c.applyToStateMachine envs entries).2
  | .installSnapshot snapshotMeta snapshot =>
    (c.installSnapshot format snapshotMeta snapshot).2

/-- A call, with the changes made so far. -/
def trackedCall (format : SnapshotFormat) (s : CombinedStorage × List Change) (call : Call) :
    CombinedStorage × List Change :=
  (s.1.call format call, s.2 ++ s.1.changesOf format call)

/-- The state and the changes after some calls on a new node. -/
def runCalls (format : SnapshotFormat) (calls : List Call) : CombinedStorage × List Change :=
  calls.foldl (trackedCall format) (.new, [])

/-! ### What is kept -/

@[simp] theorem lastId_nil : lastId [] = none := rfl

@[simp] theorem lastId_concat (changes : List Change) (c : Change) :
    lastId (changes ++ [c]) = c.logId := by
  simp [lastId]

/-- `apply_to_state_machine` leaves the id of the last entry it got through. -/
theorem lastAppliedLog_applyToStateMachine (c : CombinedStorage) (envs : ℕ → Env)
    (entries : List Entry) (changes : List Change) (h : c.lastAppliedLog = lastId changes) :
    (c.applyToStateMachine envs entries).2.lastAppliedLog
      = lastId (changes ++ (c.entriesApplied envs entries).map .applied) := by
  -- on the entries, each of which becomes the last change
  induction entries generalizing c envs changes with
  | nil =>
    simp only [applyToStateMachine, entriesApplied, List.map_nil, List.append_nil]
    exact h
  | cons entry entries ih =>
    rw [applyToStateMachine, entriesApplied]
    cases hres : entry.payload.apply c.stateMachine (envs 0) with
    | mk res s =>
      cases res with
      | none =>
        -- the panic leaves the id of the entry before
        simp only [List.map_nil, List.append_nil]
        exact h
      | some res =>
        have hnext := ih ⟨s, some entry.logId⟩ (fun k => envs (k + 1))
          (changes ++ [Change.applied entry]) (lastId_concat changes (.applied entry)).symm
        simp only [Prod.map, id, List.map_cons]
        rw [hnext, List.append_assoc, List.singleton_append]

/-- **The log position is kept.** It is the id of the last change, whatever is called. -/
theorem lastAppliedLog_trackedCall {format : SnapshotFormat} {s : CombinedStorage × List Change}
    (h : s.1.lastAppliedLog = lastId s.2) (call : Call) :
    (trackedCall format s call).1.lastAppliedLog = lastId (trackedCall format s call).2 := by
  cases call with
  | applyToStateMachine envs entries =>
    exact lastAppliedLog_applyToStateMachine s.1 envs entries s.2 h
  | installSnapshot snapshotMeta snapshot =>
    simp only [trackedCall, CombinedStorage.call, changesOf, installSnapshot]
    -- the id is taken over with the tables, or neither is
    cases format.fromSlice snapshot with
    | error e =>
      simp only [List.append_nil]
      exact h
    | ok tables => exact (lastId_concat s.2 (.installed snapshotMeta)).symm

theorem lastAppliedLog_runCalls (format : SnapshotFormat) (calls : List Call) :
    (runCalls format calls).1.lastAppliedLog = lastId (runCalls format calls).2 := by
  have hmeets : Meets (trackedCall format) (fun _ _ => True) (CombinedStorage.new, []) calls :=
    Meets.of_forall_mem fun _ _ _ => trivial
  exact hmeets.invariant (fun s => s.1.lastAppliedLog = lastId s.2) rfl
    fun _ call h _ => lastAppliedLog_trackedCall h call

/-! ### What is reported -/

/-- The membership is tracked: `last_applied_state` and the meta of a snapshot built now report
the membership carried last, and so does every node that installs that snapshot. -/
structure Tracked (format : SnapshotFormat) (s : CombinedStorage × List Change) : Prop where
  state : s.1.lastAppliedState.2 = membershipOf s.2
  snapshot : (s.1.buildSnapshot format).snapshotMeta.lastMembership = membershipOf s.2
  installed : ∀ other other' : CombinedStorage,
    other.installSnapshot format (s.1.buildSnapshot format).snapshotMeta
        (s.1.buildSnapshot format).snapshot = (.ok (), other') →
      other'.lastAppliedState.2 = membershipOf s.2

/-- What the code reports instead. -/
theorem tracked_iff_eq {format : SnapshotFormat} {s : CombinedStorage × List Change}
    (h : s.1.lastAppliedLog = lastId s.2) :
    Tracked format s ↔ membershipOf s.2 = ⟨lastId s.2, .default⟩ := by
  constructor
  · intro ht
    rw [← ht.state, lastAppliedState, h]
  · intro heq
    refine ⟨?_, ?_, fun other other' hins => ?_⟩
    · rw [heq, lastAppliedState, h]
    · rw [heq, buildSnapshot, h]
    · -- the other node takes over the log id of the meta, and nothing else of it
      have hlast : other'.lastAppliedLog = lastId s.2 := by
        rw [installSnapshot] at hins
        split at hins
        · cases hins
        · rw [Prod.mk.injEq] at hins
          rw [← hins.2]
          exact h
      rw [heq, lastAppliedState, hlast]

/-! ### The membership carried last -/

theorem membershipOf_append_of_not_carried {changes post : List Change}
    (h : ∀ c ∈ post, c.carried = none) : membershipOf (changes ++ post) = membershipOf changes := by
  induction post using List.reverseRecOn with
  | nil => rw [List.append_nil]
  | append_singleton post c ih =>
    have hc : c.carried = none := h c (by simp)
    rw [← List.append_assoc, membershipOf, List.foldl_append]
    simp only [List.foldl_cons, List.foldl_nil, hc, Option.getD_none]
    exact ih fun c' hc' => h c' (List.mem_append_left _ hc')

theorem membershipOf_concat (changes : List Change) {c : Change} {m : StoredMembership}
    (h : c.carried = some m) : membershipOf (changes ++ [c]) = m := by
  rw [membershipOf, List.foldl_append]
  simp only [List.foldl_cons, List.foldl_nil, h, Option.getD_some]

/-- Either no change carries a membership, or one of them does so last. -/
theorem exists_last_carried (changes : List Change) :
    (∀ c ∈ changes, c.carried = none) ∨
      ∃ pre c post m, changes = pre ++ c :: post ∧ c.carried = some m ∧
        ∀ c' ∈ post, c'.carried = none := by
  induction changes using List.reverseRecOn with
  | nil => exact Or.inl fun c hc => by cases hc
  | append_singleton changes c ih =>
    cases hc : c.carried with
    | some m =>
      exact Or.inr ⟨changes, c, [], m, rfl, hc, fun c' hc' => by cases hc'⟩
    | none =>
      rcases ih with hnone | ⟨pre, c₀, post, m, rfl, hm, hpost⟩
      · refine Or.inl fun c' hc' => ?_
        rcases List.mem_append.mp hc' with hc' | hc'
        · exact hnone c' hc'
        · rw [List.mem_singleton.mp hc', hc]
      -- one more change behind the one that carries
      · refine Or.inr ⟨pre, c₀, post ++ [c], m, by simp, hm, fun c' hc' => ?_⟩
        rcases List.mem_append.mp hc' with hc' | hc'
        · exact hpost c' hc'
        · rw [List.mem_singleton.mp hc', hc]

/-- An empty membership was carried last, under the id of the last change. -/
def CarriesDefault (changes : List Change) : Prop :=
  ∃ pre c post, changes = pre ++ c :: post ∧ (∀ c' ∈ post, c'.carried = none) ∧
    c.carried = some ⟨lastId changes, .default⟩

theorem membershipOf_eq_iff (changes : List Change) :
    membershipOf changes = ⟨lastId changes, .default⟩ ↔
      changes = [] ∨ CarriesDefault changes := by
  constructor
  · intro h
    rcases exists_last_carried changes with hnone | ⟨pre, c, post, m, rfl, hm, hpost⟩
    · -- nothing is carried, so the last change would have to be without an id
      left
      have hdefault : membershipOf changes = .default := by
        have happ : membershipOf ([] ++ changes) = membershipOf [] :=
          membershipOf_append_of_not_carried hnone
        rwa [List.nil_append] at happ
      rw [hdefault, StoredMembership.default, StoredMembership.mk.injEq] at h
      rcases List.eq_nil_or_concat changes with rfl | ⟨init, c, rfl⟩
      · rfl
      · have hid := h.1
        rw [List.concat_eq_append, lastId_concat] at hid
        have hc := hnone c (by simp)
        cases c with
        | applied entry => cases hid
        | installed snapshotMeta => cases hc
    · right
      have hsplit : pre ++ c :: post = (pre ++ [c]) ++ post := by simp
      -- what follows the change that carries `m` leaves `m` in place
      have heq : membershipOf (pre ++ c :: post) = m := by
        rw [hsplit, membershipOf_append_of_not_carried hpost, membershipOf_concat pre hm]
      exact ⟨pre, c, post, rfl, hpost, by rw [hm, ← h, heq]⟩
  · rintro (rfl | ⟨pre, c, post, hsplit, hpost, hc⟩)
    · rfl
    · have happ : pre ++ c :: post = (pre ++ [c]) ++ post := by simp
      calc membershipOf changes = membershipOf ((pre ++ [c]) ++ post) := by rw [hsplit, happ]
        _ = membershipOf (pre ++ [c]) := membershipOf_append_of_not_carried hpost
        _ = ⟨lastId changes, .default⟩ := membershipOf_concat pre hc

/-- **When the membership is tracked.** After any calls on a new node, the membership it reports
is the one carried last exactly when nothing was applied or installed yet, or an empty membership
was carried last, under the id of the last change. -/
theorem tracked_iff (format : SnapshotFormat) (calls : List Call) :
    Tracked format (runCalls format calls) ↔
      (runCalls format calls).2 = [] ∨ CarriesDefault (runCalls format calls).2 := by
  rw [tracked_iff_eq (lastAppliedLog_runCalls format calls), membershipOf_eq_iff]

/-- A cluster of three voters is formed. -/
def threeVoters : Membership :=
  ⟨[[1, 2, 3]], [(1, ⟨"127.0.0.1:8541"⟩), (2, ⟨"127.0.0.1:8542"⟩), (3, ⟨"127.0.0.1:8543"⟩)]⟩

theorem not_tracked_threeVoters :
    ¬ Tracked .emptyTables (runCalls .emptyTables
      [.applyToStateMachine (fun _ => Env.quiet [])
        [⟨⟨⟨1, 1⟩, 1⟩, .membership threeVoters⟩]]) := by
  intro h
  have hstate := congrArg StoredMembership.membership h.state
  revert hstate
  decide

end CombinedStorage

end Oxideq
