import Oxideq.Lib.Runs
import Oxideq.Replication.RaftStorage

/-!
# Purging the log

What a node can still answer once openraft purges its log. A node is run together with a record
of its past (`Past`): the entries appended and neither deleted nor purged since, the ids purged,
and the snapshots built or installed. Two questions are put to it after every event:

* `ReportsLog` — `get_log_state` returns the largest id ever purged and the id of the
  highest-index entry still stored, or the last purged id when nothing is stored;
* `Recoverable` — what was purged is covered by a snapshot that `get_current_snapshot` offers.

Neither survives the first purge. `purge_logs_upto` writes the purged id to the tree `store`,
where `get_log_state` does not look; and `get_current_snapshot` has nothing to offer, in the
process that built the snapshot or after a restart. Until then the tree `logs` holds exactly the
entries of the record (`Stores`), so both questions are answered rightly: `reportsLog_iff` and
`recoverable_iff` say that this is the whole story.

openraft's own rules for these calls are `Issued`. The theorems do not need them; the examples
obey them.
-/

namespace Oxideq

namespace RaftNode

/-! ### The record of a run -/

/-- The position of an entry in the log. -/
abbrev position (e : Entry) : ℕ := e.logId.index.toNat

/-- What has happened to a directory. -/
structure Past where
  stored : List Entry
  purged : List LogId
  snapshots : List LogId

namespace Past

/-- Before the first event. -/
def nothing : Past := ⟨[], [], []⟩

/-- An appended entry takes the place of one with the same index. -/
def put (stored : List Entry) (e : Entry) : List Entry :=
  stored.filter (fun e' => position e' ≠ position e) ++ [e]

/-- The record after an event on node `n`. -/
def record (format : SnapshotFormat) (n : RaftNode) (p : Past) : Event → Past
  | .appendToLog entries => { p with stored := entries.foldl put p.stored }
  -- a conflict deletes the index named and those above it, a purge the index named and those below
  | .deleteConflictLogsSince logId =>
    { p with stored := p.stored.filter fun e => position e < logId.index.toNat }
  | .purgeLogsUpto logId =>
    { p with
      stored := p.stored.filter fun e => logId.index.toNat < position e
      purged := logId :: p.purged }
  | .buildSnapshot =>
    { p with
      snapshots :=
        (n.storage.buildSnapshot format).snapshotMeta.lastLogId.toList ++ p.snapshots }
  | .installSnapshot snapshotMeta snapshot =>
    match (n.storage.installSnapshot format snapshotMeta snapshot).1 with
    | .ok () => { p with snapshots := snapshotMeta.lastLogId.toList ++ p.snapshots }
    | .error _ => p
  | .saveVote _ => p
  | .applyToStateMachine _ _ => p
  | .restart => p

theorem mem_put {stored : List Entry} {e e' : Entry} :
    e' ∈ put stored e ↔ e' = e ∨ (position e' ≠ position e ∧ e' ∈ stored) := by
  simp only [put, List.mem_append, List.mem_filter, List.mem_singleton, decide_eq_true_eq]
  tauto

end Past

/-- A node and its past, after an event. -/
def tracedStep (format : SnapshotFormat) (s : RaftNode × Past) (ev : Event) : RaftNode × Past :=
  (s.1.step format ev, s.2.record format s.1 ev)

/-- A node that is started for the first time. -/
def fresh : RaftNode × Past := (new, .nothing)

/-- How openraft issues the calls: appended indexes are consecutive, follow what is stored and
stay above what is purged; and only what a snapshot covers is purged. -/
def Issued (s : RaftNode × Past) : Event → Prop
  | .appendToLog entries =>
    entries.IsChain (fun a b => position b = position a + 1) ∧
      ∀ e ∈ entries.head?,
        (s.2.stored = [] ∨ ∃ e' ∈ s.2.stored, position e = position e' + 1) ∧
        (∀ e' ∈ s.2.stored, position e' < position e) ∧
        ∀ l ∈ s.2.purged, l.index.toNat < position e
  | .purgeLogsUpto logId => ∃ l ∈ s.2.snapshots, logId ≤ l
  | _ => True

instance (s : RaftNode × Past) : ∀ ev, Decidable (Issued s ev)
  | .appendToLog _ => inferInstanceAs (Decidable (_ ∧ ∀ e ∈ _, _))
  | .purgeLogsUpto _ => inferInstanceAs (Decidable (∃ l ∈ _, _))
  | .deleteConflictLogsSince _ | .saveVote _ | .applyToStateMachine .. | .buildSnapshot
  | .installSnapshot .. | .restart => inferInstanceAs (Decidable True)

/-- The events that purge. -/
def Event.purges : Event → Bool
  | .purgeLogsUpto _ => true
  | _ => false

/-! ### What the directory holds -/

/-- The tree `logs` holds the entries of the record, each under its index. -/
def Stores (s : RaftNode × Past) : Prop :=
  ∀ k e, (k, e) ∈ s.1.db.logs.entries ↔ e ∈ s.2.stored ∧ position e = k

theorem stores_fresh : Stores fresh := by
  intro k e
  simp [fresh, new, SledDb.empty, Past.nothing]

/-- Appending keeps tree and record in agreement, entry by entry. -/
theorem mem_foldl_insert {t : SortedTree ℕ Entry} {stored : List Entry}
    (h : ∀ k e, (k, e) ∈ t.entries ↔ e ∈ stored ∧ position e = k) (entries : List Entry) :
    ∀ k e, (k, e) ∈ (entries.foldl (fun t e => t.insert (position e) e) t).entries ↔
      e ∈ entries.foldl Past.put stored ∧ position e = k := by
  induction entries generalizing t stored with
  | nil => exact h
  | cons e₀ entries ih =>
    refine ih fun k e => ?_
    rw [SortedTree.mem_insert, Past.mem_put, h, Prod.mk.injEq]
    constructor
    · rintro (⟨rfl, rfl⟩ | ⟨hk, he, rfl⟩)
      · exact ⟨Or.inl rfl, rfl⟩
      · exact ⟨Or.inr ⟨hk, he⟩, rfl⟩
    · rintro ⟨rfl | ⟨hk, he⟩, rfl⟩
      · exact Or.inl ⟨rfl, rfl⟩
      · exact Or.inr ⟨hk, he, rfl⟩

/-- So does removing a range of indexes. -/
theorem mem_removeWhere_filter {t : SortedTree ℕ Entry} {stored : List Entry}
    (h : ∀ k e, (k, e) ∈ t.entries ↔ e ∈ stored ∧ position e = k) (gone : ℕ → Prop)
    [DecidablePred gone] (kept : Entry → Bool) (hkept : ∀ e, kept e = true ↔ ¬ gone (position e)) :
    ∀ k e, (k, e) ∈ (t.removeWhere gone).entries ↔ e ∈ stored.filter kept ∧ position e = k := by
  intro k e
  rw [SortedTree.mem_removeWhere, h, List.mem_filter, hkept]
  constructor
  · rintro ⟨⟨he, rfl⟩, hnot⟩
    exact ⟨⟨he, hnot⟩, rfl⟩
  · rintro ⟨⟨he, hnot⟩, rfl⟩
    exact ⟨⟨he, rfl⟩, hnot⟩

/-- **The log store holds what the record says**, whatever is called. -/
theorem Stores.step {format : SnapshotFormat} {s : RaftNode × Past} (h : Stores s) (ev : Event) :
    Stores (tracedStep format s ev) := by
  cases ev with
  | appendToLog entries => exact mem_foldl_insert h entries
  | deleteConflictLogsSince logId =>
    exact mem_removeWhere_filter h (logId.index.toNat ≤ ·) _ fun e => by
      rw [decide_eq_true_eq, not_le]
  | purgeLogsUpto logId =>
    exact mem_removeWhere_filter h (· ≤ logId.index.toNat) _ fun e => by
      rw [decide_eq_true_eq, not_le]
  | installSnapshot snapshotMeta snapshot =>
    -- a snapshot only touches the state machine
    have hstored : (tracedStep format s (.installSnapshot snapshotMeta snapshot)).2.stored
        = s.2.stored := by
      simp only [tracedStep, Past.record]
      split <;> rfl
    intro k e
    rw [hstored]
    exact h k e
  | saveVote vote => exact h
  | applyToStateMachine envs entries => exact h
  | buildSnapshot => exact h
  | restart => exact h

/-- Only a purge adds to the purged ids. -/
theorem purged_step {format : SnapshotFormat} {s : RaftNode × Past} {ev : Event}
    (hev : ev.purges = false) : (tracedStep format s ev).2.purged = s.2.purged := by
  cases ev with
  | purgeLogsUpto logId => cases hev
  | installSnapshot snapshotMeta snapshot =>
    simp only [tracedStep, Past.record]
    split <;> rfl
  | appendToLog entries => rfl
  | deleteConflictLogsSince logId => rfl
  | saveVote vote => rfl
  | applyToStateMachine envs entries => rfl
  | buildSnapshot => rfl
  | restart => rfl

/-! ### The log state -/

/-- `get_log_state` tells the past: the largest id ever purged, and the highest entry still
stored or, when there is none, the last purged id. -/
structure ReportsLog (s : RaftNode × Past) : Prop where
  lastPurged : Largest s.2.purged s.1.db.getLogState.lastPurgedLogId
  lastLog : (∃ e ∈ s.2.stored, s.1.db.getLogState.lastLogId = some e.logId ∧
      ∀ e' ∈ s.2.stored, position e' ≤ position e) ∨
    s.2.stored = [] ∧ Largest s.2.purged s.1.db.getLogState.lastLogId

/-- Nothing purged, and the tree in order. -/
def Unpurged (s : RaftNode × Past) : Prop := Stores s ∧ s.2.purged = []

theorem Unpurged.reportsLog {s : RaftNode × Past} (h : Unpurged s) : ReportsLog s := by
  obtain ⟨hstores, hpurged⟩ := h
  cases hlast : s.1.db.logs.last with
  | none =>
    have hempty : s.1.db.logs.entries = [] := SortedTree.last_eq_none_iff.mp hlast
    have hstored : s.2.stored = [] := by
      refine List.eq_nil_iff_forall_not_mem.mpr fun e he => ?_
      have hmem := (hstores (position e) e).mpr ⟨he, rfl⟩
      rw [hempty] at hmem
      cases hmem
    -- an empty tree: no last entry, and nothing was purged that could stand for it
    have hstate : s.1.db.getLogState = ⟨none, none⟩ := by simp only [SledDb.getLogState, hlast]
    refine ⟨?_, Or.inr ⟨hstored, ?_⟩⟩
    · rw [hstate]
      exact hpurged
    · rw [hstate]
      exact hpurged
  | some p =>
    obtain ⟨k, e⟩ := p
    -- the last key of the tree is the highest index of the record
    obtain ⟨hmem, hmax⟩ := SortedTree.last_eq_some_iff.mp hlast
    obtain ⟨hstored, rfl⟩ := (hstores k e).mp hmem
    have hstate : s.1.db.getLogState = ⟨none, some e.logId⟩ := by
      simp only [SledDb.getLogState, hlast]
    refine ⟨?_, Or.inl ⟨e, hstored, ?_, fun e' he' => ?_⟩⟩
    · rw [hstate]
      exact hpurged
    · rw [hstate]
    · exact hmax (position e', e') ((hstores _ _).mpr ⟨he', rfl⟩)

theorem Unpurged.step {format : SnapshotFormat} {s : RaftNode × Past} {ev : Event}
    (h : Unpurged s) (hev : ev.purges = false) : Unpurged (tracedStep format s ev) :=
  ⟨h.1.step ev, (purged_step hev).trans h.2⟩

/-- The log state of a directory never mentions what was purged from it. -/
theorem lastPurgedLogId_getLogState (db : SledDb) : db.getLogState.lastPurgedLogId = none := by
  unfold SledDb.getLogState
  split <;> rfl

theorem not_reportsLog {format : SnapshotFormat} {s : RaftNode × Past} {ev : Event}
    (hev : ev.purges ≠ false) : ¬ ReportsLog (tracedStep format s ev) := by
  intro h
  cases ev with
  | purgeLogsUpto logId =>
    have hnone := h.lastPurged
    -- reported as `None`, with `logId` just purged
    rw [lastPurgedLogId_getLogState] at hnone
    cases hnone
  | _ => exact hev rfl

/-- **When the log state is right.** Over any calls and restarts on one directory, after each of
them `get_log_state` returns the largest purged id and the last log id, exactly when nothing is
ever purged. -/
theorem reportsLog_iff (format : SnapshotFormat) (events : List Event) :
    Along (tracedStep format) ReportsLog fresh events ↔ ∀ ev ∈ events, ev.purges = false := by
  have h : Along (tracedStep format) ReportsLog fresh events ↔
      Meets (tracedStep format) (fun _ ev => ev.purges = false) fresh events :=
    along_iff_meets Unpurged (fun _ h => h.reportsLog) (fun _ _ h hev => h.step hev)
      (fun _ _ _ hev => not_reportsLog hev) ⟨stores_fresh, rfl⟩
  rw [h, Meets.iff_forall_mem]

/-! ### The current snapshot -/

/-- The tables after the entries of `log` up to `l`. -/
def tablesUpTo (log : List Entry) (l : LogId) (envs : ℕ → Env) : Tables :=
  (CombinedStorage.new.applyToStateMachine envs
    (log.filter fun e => position e ≤ l.index.toNat)).2.stateMachine.getSnapshotData

/-- What was purged can be recovered: `get_current_snapshot` offers a snapshot that reaches at
least the largest purged id, and its data is the state after applying `log` up to its id. -/
def Recoverable (format : SnapshotFormat) (log : List Entry) (s : RaftNode × Past) : Prop :=
  ∀ p, Largest s.2.purged (some p) →
    ∃ snap, s.1.storage.getCurrentSnapshot = some snap ∧
      ∃ l, snap.snapshotMeta.lastLogId = some l ∧ p ≤ l ∧
        ∃ envs, snap.snapshot = format.toVec (tablesUpTo log l envs)

theorem recoverable_of_purged_nil {format : SnapshotFormat} {log : List Entry}
    {s : RaftNode × Past} (h : s.2.purged = []) : Recoverable format log s := by
  rintro p ⟨hp, -⟩
  rw [h] at hp
  cases hp

/-- After the first purge there is something to recover, and nothing to recover it from. -/
theorem not_recoverable {format : SnapshotFormat} {log : List Entry} {s : RaftNode × Past}
    {ev : Event} (h : s.2.purged = []) (hev : ev.purges ≠ false) :
    ¬ Recoverable format log (tracedStep format s ev) := by
  intro hrec
  cases ev with
  | purgeLogsUpto logId =>
    have hpurged : (tracedStep format s (.purgeLogsUpto logId)).2.purged = [logId] := by
      simp only [tracedStep, Past.record, h]
    obtain ⟨snap, hsnap, -⟩ := hrec logId (by
      rw [hpurged]
      exact ⟨List.mem_singleton.mpr rfl, fun l hl => by
        rw [List.mem_singleton.mp hl]
        exact LogId.le_refl _⟩)
    -- `get_current_snapshot` returns `None`
    cases hsnap
  | _ => exact hev rfl

/-- **When compaction loses nothing.** Over any calls and restarts of a node, whatever has been
purged can be recovered from its current snapshot exactly when nothing is ever purged. -/
theorem recoverable_iff (format : SnapshotFormat) (log : List Entry) (events : List Event) :
    Along (tracedStep format) (Recoverable format log) fresh events ↔
      ∀ ev ∈ events, ev.purges = false := by
  have h : Along (tracedStep format) (Recoverable format log) fresh events ↔
      Meets (tracedStep format) (fun _ ev => ev.purges = false) fresh events := by
    refine along_iff_meets (fun s : RaftNode × Past => s.2.purged = []) ?_ ?_ ?_ rfl
    · exact fun s hs => recoverable_of_purged_nil hs
    · exact fun s ev hs hev => (purged_step hev).trans hs
    · exact fun s ev hs hev => not_recoverable hs hev
  rw [h, Meets.iff_forall_mem]

/-! ### A run as openraft makes it -/

/-- The entries of a leader without clients. -/
def leaderLog : List Entry :=
  [⟨⟨⟨1, 1⟩, 1⟩, .blank⟩, ⟨⟨⟨1, 1⟩, 2⟩, .blank⟩, ⟨⟨⟨1, 1⟩, 3⟩, .blank⟩]

/-- They are appended, applied, covered by a snapshot, and purged. -/
def compacted : List Event :=
  [.appendToLog leaderLog, .applyToStateMachine (fun _ => Env.quiet []) leaderLog,
    .buildSnapshot, .purgeLogsUpto ⟨⟨1, 1⟩, 3⟩]

theorem not_reportsLog_compacted :
    Meets (tracedStep .emptyTables) Issued fresh compacted ∧
      ¬ Along (tracedStep .emptyTables) ReportsLog fresh compacted := by
  refine ⟨by decide +kernel, fun h => ?_⟩
  exact not_reportsLog (by decide) h.finish

theorem not_recoverable_compacted :
    Meets (tracedStep .emptyTables) Issued fresh compacted ∧
      ¬ Along (tracedStep .emptyTables) (Recoverable .emptyTables leaderLog) fresh compacted := by
  refine ⟨by decide +kernel, fun h => ?_⟩
  exact not_recoverable rfl (by decide) h.finish

end RaftNode

end Oxideq
