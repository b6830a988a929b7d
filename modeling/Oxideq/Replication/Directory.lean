import Oxideq.Replication.LogStore
import Oxideq.Replication.MessageText

/-!
# The directory across power failures

The sled directory of a node with its vote beside the log, written as the callbacks of
`replication/combined_storage.rs` write it: a callback issues some writes and then flushes, and it
returns after the flush. What was flushed is there for good. When the power fails before the flush
returns, the node starts again on a directory in which the writes of that one callback may be
there or not, each of them by itself; a batch is one write.

So a callback that returned has taken effect, and an interrupted one comes to something simpler
(`Attempt.effect`): an append of those of its entries whose writes are there, or, for the others,
the callback or nothing. The last purged log id that a purge writes second is never read. The
directory then reads as if the effects had happened one after the other, with no failure among them
(`LogStore.recovered`): no read fails, the vote is the last one whose write is there, the log has
the entries appended last and not removed since. In particular a vote or an entry that was
acknowledged is lost to no failure.

Entries and votes are JSON texts here, so that they are read back is no hypothesis as it is in
`LogStore`, but follows from `MessageText`.
-/

namespace Oxideq

open scoped BigEndian

open BigEndian (toBeBytes)

/-- `serde_json` at the type of log entries. `refusal` is what it says about other texts. -/
def EntryFormat.json (refusal : Bytes → String) : EntryFormat where
  toVec entry := Json.print entry.toValue
  fromSlice bs :=
    match (Json.parse bs).bind Entry.ofValue with
    | some entry => .ok entry
    | none => .error (refusal bs)

theorem EntryFormat.fromSlice_toVec {refusal : Bytes → String} {entry : Entry}
    (h : entry.Ordered) :
    (json refusal).fromSlice ((json refusal).toVec entry) = .ok entry := by
  have hparse : (Json.parse (Json.print entry.toValue)).bind Entry.ofValue = some entry :=
    (Entry.reads h).parse_print
  simp only [json, hparse]

namespace LogStore

/-! ### Writes -/

/-- A write to one of the trees. -/
inductive Write where
  | insertLog (key value : Bytes)
  | removeLogs (keys : List Bytes)
  | insertStore (key value : Bytes)

def write (db : LogStore) : Write → LogStore
  | .insertLog key value => { db with logs := db.logs.insert key value }
  -- `apply_batch`: all keys or none
  | .removeLogs keys => { db with logs := db.logs.removeWhere (· ∈ keys) }
  | .insertStore key value => { db with store := db.store.insert key value }

/-- The callbacks that write. -/
inductive Callback where
  | appendToLog (entries : List Entry)
  | deleteConflictLogsSince (logId : LogId)
  | purgeLogsUpto (logId : LogId)
  | saveVote (vote : Vote)
  deriving Repr

/-- What a callback writes before it flushes. -/
def writes (db : LogStore) : Callback → List Write
  | .appendToLog entries =>
    entries.map fun entry => .insertLog (toBeBytes entry.logId.index) (Json.print entry.toValue)
  | .deleteConflictLogsSince logId =>
    [.removeLogs ((db.logs.rangeFrom (toBeBytes logId.index)).map Prod.fst)]
  | .purgeLogsUpto logId =>
    [.removeLogs ((db.logs.entries.filter (·.1 ≤ toBeBytes logId.index)).map Prod.fst),
      .insertStore (Json.utf8 "last_purged_log_id") (Json.print logId.toValue)]
  | .saveVote vote => [.insertStore (Json.utf8 "vote") (Json.print vote.toValue)]

/-- The flag of a write says whether it is there after a power failure. -/
def surviving {α : Type} (kept : List Bool) (xs : List α) : List α :=
  (xs.zip kept).filterMap fun p => if p.2 then some p.1 else none

/-- A callback that returns, or one that a power failure interrupts before its flush returns. -/
inductive Attempt where
  | finished (callback : Callback)
  | interrupted (callback : Callback) (kept : List Bool)
  deriving Repr

/-- The directory after an attempt; after a failure, as the next process finds it. -/
def attempt (db : LogStore) : Attempt → LogStore
  | .finished callback => (db.writes callback).foldl write db
  | .interrupted callback kept => (surviving kept (db.writes callback)).foldl write db

/-- `read_vote`; `none` is a panic. -/
def readVote (db : LogStore) : Option (Option Vote) :=
  match db.store.get (Json.utf8 "vote") with
  | none => some none
  | some val => ((Json.parse val).bind Vote.ofValue).map some

/-! ### What an attempt comes to -/

/-- The callbacks that an attempt amounts to. -/
def Attempt.effect : Attempt → List Callback
  | .finished callback => [callback]
  | .interrupted (.appendToLog entries) kept => [.appendToLog (surviving kept entries)]
  -- of a purge only the first write is ever read
  | .interrupted callback kept => if kept.head? = some true then [callback] else []

def Callback.appended : Callback → List Entry
  | .appendToLog entries => entries
  | _ => []

/-- What a callback is for the log. -/
def Callback.logEvents : Callback → List Event
  | .appendToLog entries => [.appendToLog entries]
  | .deleteConflictLogsSince logId => [.deleteConflictLogsSince logId]
  | .purgeLogsUpto logId => [.purgeLogsUpto logId]
  | .saveVote _ => []

def Callback.vote : Callback → Option Vote
  | .saveVote vote => some vote
  | _ => none

/-- The vote that was saved last. -/
def lastVote (done : List Callback) : Option Vote := (done.filterMap Callback.vote).getLast?

/-! ### Surviving writes -/

section Surviving

variable {α β : Type} {kept : List Bool} {xs : List α}

theorem mem_of_mem_surviving {x : α} (h : x ∈ surviving kept xs) : x ∈ xs := by
  obtain ⟨p, hp, hx⟩ := List.mem_filterMap.mp h
  obtain ⟨-, hx⟩ := Option.ite_none_right_eq_some.mp hx
  rw [← Option.some_inj.mp hx]
  exact (List.of_mem_zip hp).1

theorem surviving_map (f : α → β) (kept : List Bool) (xs : List α) :
    surviving kept (xs.map f) = (surviving kept xs).map f := by
  induction xs generalizing kept with
  | nil => rfl
  | cons x xs ih =>
    cases kept with
    | nil => rfl
    | cons b kept =>
      cases b with
      | false => exact ih kept
      | true => exact congrArg (f x :: ·) (ih kept)

theorem surviving_singleton (kept : List Bool) (x : α) :
    surviving kept [x] = if kept.head? = some true then [x] else [] := by
  cases kept with
  | nil => rfl
  | cons b kept => cases b <;> rfl

end Surviving

/-- What is not an append happens as a whole or not at all. -/
theorem Attempt.effect_interrupted {callback : Callback}
    (h : ∀ entries, callback ≠ .appendToLog entries) (kept : List Bool) :
    (interrupted callback kept).effect
      = if kept.head? = some true then [callback] else [] := by
  cases callback with
  | appendToLog entries => exact absurd rfl (h entries)
  | _ => rfl

/-! ### The log -/

variable {db : LogStore} {m : LogMap} {refusal : Bytes → String}

/-- Only the tree `logs` matters. -/
theorem Represents.of_logs {format : EntryFormat} (h : Represents format db m) {db' : LogStore}
    (hlogs : db'.logs = db.logs) : Represents format db' m :=
  ⟨h.filed, hlogs ▸ h.files, h.readable⟩

/-- The entries are inserted one after the other, as `append_to_log` does it. -/
theorem logs_insert (db : LogStore) (entries : List Entry) :
    ((entries.map fun entry => Write.insertLog (toBeBytes entry.logId.index)
      (Json.print entry.toValue)).foldl write db).logs
      = (db.appendToLog (.json refusal) entries).logs := by
  induction entries generalizing db with
  | nil => rfl
  | cons entry entries ih => exact ih (db.write (.insertLog _ _))

/-- The keys of a scan are those of its range. -/
theorem logs_remove (db : LogStore) (p : Bytes → Prop) [DecidablePred p] :
    db.logs.removeWhere (· ∈ (db.logs.entries.filter (p ·.1)).map Prod.fst)
      = db.logs.removeWhere p := by
  refine SortedTree.removeWhere_congr fun e he => ?_
  rw [List.mem_map]
  constructor
  · rintro ⟨e', he', heq⟩
    rw [← heq]
    exact of_decide_eq_true (List.mem_filter.mp he').2
  · exact fun hp => ⟨e, List.mem_filter.mpr ⟨he, decide_eq_true hp⟩, rfl⟩

/-- What a callback leaves in the log is what the calls on the log leave there. -/
theorem logs_finished (db : LogStore) (callback : Callback) :
    (db.attempt (.finished callback)).logs
      = (callback.logEvents.foldl (step (.json refusal)) db).logs := by
  cases callback with
  | appendToLog entries => exact logs_insert db entries
  | deleteConflictLogsSince logId => exact logs_remove db (toBeBytes logId.index ≤ ·)
  | purgeLogsUpto logId => exact logs_remove db (· ≤ toBeBytes logId.index)
  | saveVote vote => rfl

theorem logs_interrupted (db : LogStore) (callback : Callback) (kept : List Bool) :
    (db.attempt (.interrupted callback kept)).logs
      = (((Attempt.interrupted callback kept).effect.flatMap Callback.logEvents).foldl
          (step (.json refusal)) db).logs := by
  cases callback with
  | appendToLog entries =>
    change ((surviving kept (entries.map _)).foldl write db).logs = _
    rw [surviving_map]
    exact logs_insert db (surviving kept entries)
  | deleteConflictLogsSince logId =>
    rw [attempt, writes, surviving_singleton, Attempt.effect_interrupted (by simp)]
    split
    · exact logs_finished db (.deleteConflictLogsSince logId)
    · rfl
  | purgeLogsUpto logId =>
    -- the second write is to the other tree
    match kept with
    | [] => rfl
    | [false] => rfl
    | [true] => exact logs_finished db (.purgeLogsUpto logId)
    | false :: false :: _ => rfl
    | false :: true :: _ => rfl
    | true :: false :: _ => exact logs_finished db (.purgeLogsUpto logId)
    | true :: true :: _ => exact logs_finished db (.purgeLogsUpto logId)
  | saveVote vote =>
    rw [attempt, writes, surviving_singleton, Attempt.effect_interrupted (by simp)]
    split <;> rfl

/-- The effect of an attempt is its effect on the log. -/
theorem logs_attempt (db : LogStore) (a : Attempt) :
    (db.attempt a).logs
      = ((a.effect.flatMap Callback.logEvents).foldl (step (.json refusal)) db).logs := by
  cases a with
  | finished callback =>
    rw [logs_finished, Attempt.effect, List.flatMap_cons, List.flatMap_nil, List.append_nil]
  | interrupted callback kept => exact logs_interrupted db callback kept

/-! ### The vote -/

/-- The vote that a store has, as `save_vote` writes it. -/
def HasVote (db : LogStore) (vote : Option Vote) : Prop :=
  db.store.get (Json.utf8 "vote") = vote.map fun v => Json.print v.toValue

theorem HasVote.readVote {vote : Option Vote} (h : db.HasVote vote) :
    db.readVote = some vote := by
  rw [LogStore.readVote, h]
  cases vote with
  | none => rfl
  | some v =>
    have hparse : (Json.parse (Json.print v.toValue)).bind Vote.ofValue = some v :=
      v.reads.parse_print
    exact congrArg (Option.map some) hparse

/-- Only a vote is written under its key. -/
theorem get_vote_foldl (db : LogStore) {ws : List Write}
    (h : ∀ key value, Write.insertStore key value ∈ ws → key ≠ Json.utf8 "vote") :
    (ws.foldl write db).store.get (Json.utf8 "vote") = db.store.get (Json.utf8 "vote") := by
  induction ws generalizing db with
  | nil => rfl
  | cons w ws ih =>
    rw [List.foldl_cons, ih _ fun key value hmem => h key value (List.mem_cons_of_mem _ hmem)]
    cases w with
    | insertLog key value => rfl
    | removeLogs keys => rfl
    | insertStore key value =>
      exact SortedTree.get_insert_of_ne (h key value List.mem_cons_self).symm

/-- The vote after some callbacks more. -/
def nextVote (vote : Option Vote) (done : List Callback) : Option Vote :=
  done.foldl (fun vote callback => callback.vote.or vote) vote

theorem lastVote_eq (done : List Callback) : lastVote done = nextVote none done := by
  have hgen : ∀ vote, nextVote vote done = (lastVote done).or vote := by
    induction done with
    | nil => exact fun _ => rfl
    | cons callback done ih =>
      intro vote
      rw [nextVote, List.foldl_cons]
      refine (ih _).trans ?_
      rw [lastVote, lastVote]
      cases hvote : callback.vote with
      | none => rw [List.filterMap_cons_none hvote, Option.none_or]
      | some v =>
        rw [List.filterMap_cons_some hvote, List.getLast?_cons]
        cases (done.filterMap Callback.vote).getLast? <;> rfl
  rw [hgen none, Option.or_none]

theorem HasVote.attempt {vote : Option Vote} (h : db.HasVote vote) (a : Attempt) :
    (db.attempt a).HasVote (nextVote vote a.effect) := by
  have hother : ∀ (callback : Callback) {ws : List Write}, callback.vote = none →
      (∀ w ∈ ws, w ∈ db.writes callback) → (ws.foldl write db).HasVote vote := by
    intro callback ws hvote hws
    unfold HasVote
    rw [get_vote_foldl db fun key value hmem => ?_, h]
    have hkey := hws _ hmem
    cases callback with
    | appendToLog entries =>
      obtain ⟨entry, -, heq⟩ := List.mem_map.mp hkey
      cases heq
    | deleteConflictLogsSince logId => simp [writes] at hkey
    | purgeLogsUpto logId =>
      simp only [writes, List.mem_cons, List.not_mem_nil, or_false, reduceCtorEq, false_or,
        Write.insertStore.injEq] at hkey
      rw [hkey.1]
      decide
    | saveVote vote => cases hvote
  have hsaved : ∀ v : Vote, (db.write (.insertStore (Json.utf8 "vote")
      (Json.print v.toValue))).HasVote (some v) := fun v => SortedTree.get_insert_self ..
  cases a with
  | finished callback =>
    cases callback with
    | saveVote v => exact hsaved v
    | _ => exact hother _ rfl fun w hw => hw
  | interrupted callback kept =>
    cases callback with
    | saveVote v =>
      rw [LogStore.attempt, writes, surviving_singleton, Attempt.effect_interrupted (by simp)]
      split
      · exact hsaved v
      · exact h
    | appendToLog entries => exact hother _ rfl fun w hw => mem_of_mem_surviving hw
    | deleteConflictLogsSince logId =>
      have hsame : nextVote vote (Attempt.interrupted (.deleteConflictLogsSince logId) kept).effect
          = vote := by
        rw [Attempt.effect_interrupted (by simp)]
        split <;> rfl
      rw [hsame]
      exact hother (.deleteConflictLogsSince logId) rfl
        fun w hw => mem_of_mem_surviving hw
    | purgeLogsUpto logId =>
      have hsame : nextVote vote (Attempt.interrupted (.purgeLogsUpto logId) kept).effect
          = vote := by
        rw [Attempt.effect_interrupted (by simp)]
        split <;> rfl
      rw [hsame]
      exact hother (.purgeLogsUpto logId) rfl fun w hw => mem_of_mem_surviving hw

/-! ### Runs -/

/-- The directory after some attempts. -/
def attempts (as : List Attempt) : LogStore := as.foldl attempt empty

/-- The callbacks they come to. -/
def done (as : List Attempt) : List Callback := as.flatMap Attempt.effect

/-- The entry at each index, after some callbacks. -/
def logMap (done : List Callback) : LogMap := LogMap.run (done.flatMap Callback.logEvents)

def Attempt.callback : Attempt → Callback
  | .finished callback => callback
  | .interrupted callback _ => callback

theorem Attempt.mem_appended {a : Attempt} {event : Event}
    (hevent : event ∈ a.effect.flatMap Callback.logEvents) {entry : Entry}
    (hentry : entry ∈ event.appended) : entry ∈ a.callback.appended := by
  have hcallback : ∀ {c : Callback}, event ∈ c.logEvents → entry ∈ c.appended := by
    intro c hc
    cases c with
    | saveVote vote => cases hc
    | _ =>
      rw [Callback.logEvents, List.mem_singleton] at hc
      rw [hc] at hentry
      exact hentry
  obtain ⟨c, hc, hmem⟩ := List.mem_flatMap.mp hevent
  cases a with
  | finished callback =>
    rw [effect, List.mem_singleton] at hc
    exact hcallback (hc ▸ hmem)
  | interrupted callback kept =>
    cases callback with
    | appendToLog entries =>
      rw [effect, List.mem_singleton] at hc
      rw [hc] at hmem
      rw [Callback.logEvents, List.mem_singleton] at hmem
      rw [hmem] at hentry
      exact mem_of_mem_surviving hentry
    | _ =>
      rw [effect_interrupted (by simp)] at hc
      split at hc
      · rw [List.mem_singleton] at hc
        exact hcallback (hc ▸ hmem)
      · cases hc

/-- One attempt more. -/
theorem Represents.attempt (h : Represents (EntryFormat.json refusal) db m) {a : Attempt}
    (hordered : ∀ entry ∈ a.callback.appended, entry.Ordered) :
    Represents (EntryFormat.json refusal) (db.attempt a)
      ((a.effect.flatMap Callback.logEvents).foldl LogMap.step m) := by
  have hrun : ∀ {events : List Event}, (∀ event ∈ events, ∀ entry ∈ event.appended,
      entry.Ordered) → ∀ {db : LogStore} {m : LogMap},
      Represents (EntryFormat.json refusal) db m →
      Represents (EntryFormat.json refusal) (events.foldl (LogStore.step (.json refusal)) db)
        (events.foldl LogMap.step m) := by
    intro events
    induction events with
    | nil => exact fun _ _ _ h => h
    | cons event events ih =>
      intro hevents db m h
      rw [List.forall_mem_cons] at hevents
      exact ih hevents.2
        (h.step fun entry hentry => EntryFormat.fromSlice_toVec (hevents.1 entry hentry))
  refine (hrun (fun event hevent entry hentry => ?_) h).of_logs (logs_attempt db a)
  exact hordered entry (Attempt.mem_appended hevent hentry)

theorem represents_attempts {as : List Attempt}
    (hordered : ∀ a ∈ as, ∀ entry ∈ a.callback.appended, entry.Ordered) :
    Represents (EntryFormat.json refusal) (attempts as) (logMap (done as)) ∧
      (attempts as).HasVote (nextVote none (done as)) := by
  have hrun : ∀ {db : LogStore} {m : LogMap} {vote : Option Vote},
      Represents (EntryFormat.json refusal) db m → db.HasVote vote →
      Represents (EntryFormat.json refusal) (as.foldl attempt db)
          (((done as).flatMap Callback.logEvents).foldl LogMap.step m) ∧
        (as.foldl attempt db).HasVote (nextVote vote (done as)) := by
    induction as with
    | nil => exact fun h hvote => ⟨h, hvote⟩
    | cons a as ih =>
      intro db m vote h hvote
      rw [List.forall_mem_cons] at hordered
      have hnext := ih hordered.2 (h.attempt hordered.1) (hvote.attempt a)
      rw [done, List.flatMap_cons, List.flatMap_append, List.foldl_append, nextVote,
        List.foldl_append]
      exact hnext
  exact hrun (represents_empty _) rfl

/-- **Nothing acknowledged is lost.** After any callbacks on one directory, each of them finished
or interrupted by a power failure that loses any of the writes not yet flushed, no read fails: the
vote is the last one that took effect, a read of the log with any bounds returns the entries
that were appended last at the indexes of its range and not removed since, in the order of their
indexes, and the log state has the id of the highest entry. -/
theorem recovered (refusal : Bytes → String) (as : List Attempt)
    (hordered : ∀ a ∈ as, ∀ entry ∈ a.callback.appended, entry.Ordered) :
    (attempts as).readVote = some (lastVote (done as)) ∧
    (∀ range : IndexRange, range.startBound ≠ .excluded 18446744073709551615 →
      ∃ entries, (attempts as).tryGetLogEntries (.json refusal) range = some entries ∧
        entries.Pairwise (fun a b => a.logId.index < b.logId.index) ∧
        ∀ entry, entry ∈ entries ↔ range.Contains entry.logId.index ∧
          logMap (done as) entry.logId.index = some entry) ∧
    ∃ state, (attempts as).getLogState (.json refusal) = some state ∧
      ((∀ i, logMap (done as) i = none) → state.lastLogId = none) ∧
      ∀ i entry, logMap (done as) i = some entry →
        (∀ j, i < j → logMap (done as) j = none) → state.lastLogId = some entry.logId := by
  obtain ⟨hlog, hvote⟩ :
      Represents (EntryFormat.json refusal) (attempts as) (logMap (done as)) ∧ _ :=
    represents_attempts hordered
  obtain ⟨state, hstate, -, hlast⟩ := hlog.getLogState
  refine ⟨?_, fun range hstart => hlog.tryGetLogEntries range hstart, state, hstate, hlast⟩
  rw [lastVote_eq]
  exact hvote.readVote

/-- The entry that makes node 1 the only voter of a cluster of two nodes. -/
def membershipEntry (index : UInt64) : Entry :=
  ⟨⟨⟨1, 1⟩, index⟩, .membership ⟨[[1]], [(1, ⟨"127.0.0.1:8541"⟩), (2, ⟨"127.0.0.1:8542"⟩)]⟩⟩

theorem ordered_membershipEntry (index : UInt64) : (membershipEntry index).Ordered := by
  intro m hm
  cases hm
  exact ⟨by decide, by decide⟩

/-- A vote and two entries are acknowledged. Then the power fails during an append, of which the
second write is there, during the save of another vote, and during a purge. -/
def failures : List Attempt :=
  [.finished (.saveVote ⟨⟨1, 1⟩, true⟩),
    .finished (.appendToLog [blankEntry 1, blankEntry 2]),
    .interrupted (.appendToLog [blankEntry 3, membershipEntry 4]) [false, true],
    .interrupted (.saveVote ⟨⟨2, 2⟩, false⟩) [false],
    .interrupted (.purgeLogsUpto ⟨⟨1, 1⟩, 1⟩) [true, false]]

theorem recovered_failures :
    (attempts failures).readVote = some (some ⟨⟨1, 1⟩, true⟩) ∧
    ∃ entries, (attempts failures).tryGetLogEntries (.json fun _ => "expected value")
        ⟨.unbounded, .unbounded⟩ = some entries ∧
      membershipEntry 4 ∈ entries ∧ blankEntry 2 ∈ entries ∧ blankEntry 1 ∉ entries := by
  have hordered : ∀ a ∈ failures, ∀ entry ∈ a.callback.appended, entry.Ordered := by
    intro a ha entry hentry
    have hblank : ∀ index, (blankEntry index).Ordered := fun index m hm => nomatch hm
    simp only [failures, List.mem_cons, List.not_mem_nil, or_false] at ha
    rcases ha with rfl | rfl | rfl | rfl | rfl
    all_goals simp only [Attempt.callback, Callback.appended, List.mem_cons, List.not_mem_nil,
      or_false] at hentry
    · rcases hentry with rfl | rfl <;> exact hblank _
    · rcases hentry with rfl | rfl
      · exact hblank 3
      · exact ordered_membershipEntry 4
  obtain ⟨hvote, hlog, -⟩ := recovered (fun _ => "expected value") failures hordered
  obtain ⟨entries, hread, -, hmem⟩ := hlog ⟨.unbounded, .unbounded⟩ (by decide)
  refine ⟨hvote, entries, hread, ?_, ?_, ?_⟩
  · exact (hmem _).mpr ⟨⟨trivial, trivial⟩, by decide +kernel⟩
  · exact (hmem _).mpr ⟨⟨trivial, trivial⟩, by decide +kernel⟩
  · exact fun h => absurd ((hmem _).mp h).2 (by decide +kernel)

end LogStore

end Oxideq
