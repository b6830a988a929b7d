import Oxideq.Lib.Runs
import Oxideq.Sequential.Changes

/-!
# Runs with restarts

A store with the entries of its log file, for payloads of any type: calls are made one after the
other, and between two of them the process may stop and start again. A store with a log is then
rebuilt from the entries, one without a log starts empty. Over bytes a journal with a log is a
`Node` whose file is read as entries (`Journal.node_run`).

While every append succeeds, a restart finds the tables it left, clock readings aside, so over
whole runs too the tables are made by the elementary changes and by nothing else
(`Journal.run_changes`).
-/

namespace Oxideq

variable {α : Type}

/-- A store and the entries its log file had when it was opened. -/
structure Journal (α : Type) where
  past : List (WalEntry α)
  store : InMemoryStorage α

namespace Journal

/-- The entries of the file now. -/
def entries (j : Journal α) : List (WalEntry α) :=
  j.past ++ j.store.wal.elim [] WalManager.written

/-- A process that finds the entries in its log file. -/
def start (envs : ℕ → Env) (entries : List (WalEntry α)) : Journal α :=
  ⟨entries, InMemoryStorage.recover envs entries⟩

/-- The first process: with an empty log file, or without one. -/
def first (persistent : Bool) (envs : ℕ → Env) : Journal α :=
  if persistent then start envs [] else ⟨[], .new⟩

/-- A call, or a stop of the process and its next start. -/
inductive Event (α : Type) where
  | call (envs : ℕ → Env) (c : Call α)
  | restart (envs : ℕ → Env)

def step (j : Journal α) : Event α → Journal α
  | .call envs c => { j with store := (j.store.call envs c).2 }
  | .restart envs =>
    match j.store.wal with
    | some _ => start envs j.entries
    | none => ⟨[], .new⟩

/-- No append of the event fails. -/
def Event.AppendsSucceed : Event α → Prop
  | .call envs _ => ∀ k, (envs k).append = .ok ()
  | .restart _ => True

/-- What an event does for clients. -/
def tally (j : Journal α) : Event α → Tally α
  | .call envs c => c.tally (j.store.call envs c).1
  | .restart _ => .nothing

/-- An event, with the tally of the run so far. -/
def tallied (s : Journal α × Tally α) (ev : Event α) : Journal α × Tally α :=
  (s.1.step ev, s.2.append (s.1.tally ev))

/-- A run, with what its events do for clients. -/
def run (persistent : Bool) (envs : ℕ → Env) (events : List (Event α)) : Journal α × Tally α :=
  events.foldl tallied (first persistent envs, .nothing)

/-! ### Restarts -/

/-- Where the log is open, its entries make the tables. -/
def Rebuilds (j : Journal α) : Prop :=
  j.store.wal.isSome →
    SameState ((InMemoryStorage.new : InMemoryStorage α).effects (j.entries.map WalEntry.op))
      j.store

theorem entries_start (envs : ℕ → Env) (entries : List (WalEntry α)) :
    (start envs entries).entries = entries :=
  List.append_nil _

theorem rebuilds_start (envs : ℕ → Env) (entries : List (WalEntry α)) :
    Rebuilds (start envs entries) := by
  intro _
  rw [entries_start]
  exact InMemoryStorage.recover_sameState envs entries

theorem rebuilds_without_log : Rebuilds (⟨[], .new⟩ : Journal α) := fun h => nomatch h

theorem rebuilds_first (persistent : Bool) (envs : ℕ → Env) :
    Rebuilds (first persistent envs : Journal α) := by
  cases persistent with
  | true => exact rebuilds_start envs []
  | false => exact rebuilds_without_log

theorem step_restart_of_isSome {j : Journal α} (h : j.store.wal.isSome) (envs : ℕ → Env) :
    j.step (.restart envs) = start envs j.entries := by
  obtain ⟨m, hm⟩ := Option.isSome_iff_exists.mp h
  rw [Journal.step, hm]

theorem step_restart_of_none {j : Journal α} (h : j.store.wal = none) (envs : ℕ → Env) :
    j.step (.restart envs) = ⟨[], .new⟩ := by
  rw [Journal.step, h]

/-- A call keeps the log open, or leaves the store without one. -/
theorem isSome_wal_call (j : Journal α) {envs : ℕ → Env} (c : Call α)
    (hev : (Event.call envs c).AppendsSucceed) :
    (j.step (.call envs c)).store.wal.isSome = j.store.wal.isSome := by
  obtain ⟨es, hwal, -⟩ := InMemoryStorage.call_logged envs j.store c (Or.inl hev)
  rw [Journal.step, hwal, Option.isSome_map]

theorem Rebuilds.step {j : Journal α} (h : Rebuilds j) {ev : Event α}
    (hev : ev.AppendsSucceed) : Rebuilds (j.step ev) := by
  cases ev with
  | restart envs =>
    cases hm : j.store.wal with
    | none =>
      rw [step_restart_of_none hm]
      exact rebuilds_without_log
    | some m =>
      rw [step_restart_of_isSome (by rw [hm]; rfl)]
      exact rebuilds_start envs j.entries
  | call envs c =>
    intro hopen
    -- a store that has a log behind the call had it before
    rw [isSome_wal_call j c hev] at hopen
    have hs := h hopen
    -- the call has the effect of the entries it wrote
    obtain ⟨es, hwal, hs'⟩ := InMemoryStorage.call_logged envs j.store c (Or.inl hev)
    obtain ⟨m, hm⟩ := Option.isSome_iff_exists.mp hopen
    rw [hm, Option.map_some] at hwal
    have hentries : (j.step (.call envs c)).entries = j.entries ++ es := by
      simp [Journal.step, entries, hwal, hm, WalManager.extend]
    rw [hentries, List.map_append, InMemoryStorage.effects_append]
    exact (hs.effects _).trans hs'

/-- A restart finds the tables as they were, or empty tables where there is no log. -/
theorem Rebuilds.restart_changes {j : Journal α} (h : Rebuilds j) (envs : ℕ → Env) :
    Changes j.store (j.step (.restart envs)).store .nothing := by
  cases hm : j.store.wal with
  | none =>
    rw [step_restart_of_none hm]
    exact .of_change .forget
  | some m =>
    have hopen : j.store.wal.isSome := by rw [hm]; rfl
    have hstart := rebuilds_start envs j.entries rfl
    rw [entries_start] at hstart
    rw [step_restart_of_isSome hopen]
    -- both are the effects of the same entries
    exact .same ((h hopen).symm.trans hstart)

/-- **A run is a list of elementary changes**, restarts included, and they add up to its tally. -/
theorem run_changes (persistent : Bool) (envs : ℕ → Env) {events : List (Event α)}
    (hev : ∀ ev ∈ events, ev.AppendsSucceed) :
    Changes .new (run persistent envs events).1.store (run persistent envs events).2 := by
  have hfirst : SameState .new (first persistent envs : Journal α).store := by
    cases persistent with
    | true => exact SameState.of_tables rfl rfl
    | false => exact SameState.refl _
  have hinv : Rebuilds (run persistent envs events).1 ∧
      Changes .new (run persistent envs events).1.store (run persistent envs events).2 := by
    have hmeets : Meets tallied (fun _ ev => ev.AppendsSucceed) (first persistent envs, .nothing)
        events := Meets.iff_forall_mem.mpr hev
    refine hmeets.invariant (fun s => Rebuilds s.1 ∧ Changes .new s.1.store s.2) ?_ ?_
    · exact ⟨rebuilds_first persistent envs, .same hfirst⟩
    · rintro ⟨j, t⟩ ev ⟨hr, hc⟩ hok
      refine ⟨hr.step hok, ?_⟩
      cases ev with
      | call envs c => exact hc.trans (InMemoryStorage.call_changes envs j.store c)
      | restart envs => exact hc.trans (hr.restart_changes envs)
  exact hinv.2

/-! ### Nodes -/

/-- The event on a node. -/
def Event.onNode : Event Bytes → Node.Event
  | .call envs c => .call envs c
  | .restart envs => .restart envs

/-- The node whose file has the entries as its lines. -/
def node (j : Journal Bytes) : Node :=
  ⟨Json.unlines (j.past.map WalEntry.line), j.store⟩

theorem contents_node (j : Journal Bytes) :
    j.node.contents = Json.unlines (j.entries.map WalEntry.line) := by
  rw [entries, List.map_append, Json.unlines_append, Node.contents]
  cases hw : j.store.wal with
  | none => simp [node, hw, Json.unlines]
  | some m => simp [node, hw, WalManager.bytes]

theorem node_start (envs : ℕ → Env) (entries : List (WalEntry Bytes)) :
    (start envs entries).node = Node.start envs (Json.unlines (entries.map WalEntry.line)) := by
  rw [start, node, Node.start, Node.newPersistent_unlines]

/-- **Over bytes a journal is a node**, whose file is read as entries. -/
theorem node_step {j : Journal Bytes} (hopen : j.store.wal.isSome) (ev : Event Bytes) :
    (j.step ev).node = j.node.step ev.onNode := by
  cases ev with
  | call envs c => rfl
  | restart envs =>
    change _ = Node.start envs j.node.contents
    rw [step_restart_of_isSome hopen, node_start, contents_node]

theorem isSome_wal_step {j : Journal Bytes} (hopen : j.store.wal.isSome) {ev : Event Bytes}
    (hev : ev.AppendsSucceed) : (j.step ev).store.wal.isSome := by
  cases ev with
  | call envs c => rwa [isSome_wal_call j c hev]
  | restart envs =>
    rw [step_restart_of_isSome hopen]
    rfl

theorem node_run {j : Journal Bytes} (hopen : j.store.wal.isSome) {events : List (Event Bytes)}
    (hev : ∀ ev ∈ events, ev.AppendsSucceed) :
    (events.foldl step j).node = j.node.run (events.map Event.onNode) := by
  induction events generalizing j with
  | nil => rfl
  | cons ev events ih =>
    rw [List.forall_mem_cons] at hev
    rw [List.foldl_cons, ih (isSome_wal_step hopen hev.1) hev.2, node_step hopen]
    rfl

end Journal

end Oxideq
