import Oxideq.Lib.BigEndian
import Oxideq.Lib.Runs
import Oxideq.Replication.AppendEntries

/-!
# The log store

The Raft log as the sled directory has it: in the tree `logs` every entry is filed under the eight
big-endian bytes of its index, as JSON. Reading scans from a start key and stops on a test of its
own, deleting and purging remove what a scan finds, and the last key gives the log state
(`LogStore`). A call panics where bytes that it reads are not what it has written.

What the log is for is a map from indexes to entries (`LogMap`). The store represents one
(`LogStore.Represents`) because big-endian keys are ordered as the indexes are: an operation cuts
the same indexes out of the map as it cuts keys out of the tree. So after any calls and restarts a
read returns the entries of the map in its range, whatever its bounds, in the order of their
indexes, and the log state is that of the highest entry (`LogStore.ordered_map`).

What `serde_json` makes of an entry is a parameter, `EntryFormat`; that the entries of a run are
read back is a hypothesis. The directory of `RaftStorage`, whose log is keyed by the numbers, files
the same map (`LogStore.files_logs`) and so reports the same log state
(`LogStore.getLogState_run`).
-/

namespace Oxideq

open scoped BigEndian

open BigEndian (toBeBytes fromBeBytes)

/-! ### Ranges -/

/-- `std::ops::Bound` of an index. -/
inductive Bound where
  | included (i : UInt64)
  | excluded (i : UInt64)
  | unbounded
  deriving DecidableEq, Repr

/-- Any range of indexes, by its bounds. -/
structure IndexRange where
  startBound : Bound
  endBound : Bound
  deriving DecidableEq, Repr

/-- The index is not before the start. -/
def Bound.After (i : UInt64) : Bound → Prop
  | .included start => start ≤ i
  | .excluded start => start < i
  | .unbounded => True

/-- The index is not behind the end. -/
def Bound.Before (i : UInt64) : Bound → Prop
  | .included stop => i ≤ stop
  | .excluded stop => i < stop
  | .unbounded => True

/-- `RangeBounds::contains`. -/
def IndexRange.Contains (range : IndexRange) (i : UInt64) : Prop :=
  range.startBound.After i ∧ range.endBound.Before i

/-! ### The directory -/

/-- `serde_json::to_vec` and `serde_json::from_slice` at the type of log entries. -/
structure EntryFormat where
  toVec : Entry → Bytes
  fromSlice : Bytes → Except String Entry

/-- A format that reads the entries of a list, and no others. -/
def EntryFormat.reading (known : List Entry) : EntryFormat where
  toVec entry := Json.print entry.toValue
  fromSlice bs :=
    match known.find? fun entry => Json.print entry.toValue = bs with
    | some entry => .ok entry
    | none => .error "expected value at line 1 column 1"

/-- The trees `logs` and `store`, keys and values as bytes. -/
structure LogStore where
  logs : SortedTree Bytes Bytes
  store : SortedTree Bytes Bytes

namespace LogStore

/-- A directory that is opened for the first time. -/
def empty : LogStore := ⟨.empty, .empty⟩

/-- The first index that `try_get_log_entries` looks for. The addition wraps. -/
def startIndex : Bound → UInt64
  | .included i => i
  -- `u64::MAX + 1` is 0 in a release build
  | .excluded i => i + 1
  | .unbounded => 0

/-- The test that ends the scan. -/
def pastEnd (index : UInt64) : Bound → Bool
  | .included e => decide (e < index)
  | .excluded e => decide (e ≤ index)
  | .unbounded => false

/-- The loop of `try_get_log_entries`; `none` is a panic. -/
def collect (format : EntryFormat) (endBound : Bound) :
    List (Bytes × Bytes) → Option (List Entry)
  | [] => some []
  | (key, value) :: rest =>
    match fromBeBytes key with
    -- the slice of a key is converted to eight bytes with `unwrap`
    | none => none
    | some index =>
      -- the index is tested before the value is decoded
      if pastEnd index endBound then some []
      else
        match format.fromSlice value with
        | .error _ => none
        | .ok entry => (collect format endBound rest).map (entry :: ·)

def tryGetLogEntries (format : EntryFormat) (db : LogStore) (range : IndexRange) :
    Option (List Entry) :=
  collect format range.endBound (db.logs.rangeFrom (toBeBytes (startIndex range.startBound)))

/-- `get_log_state`; `none` is a panic. -/
def getLogState (format : EntryFormat) (db : LogStore) : Option LogState :=
  match db.logs.last with
  | none => some ⟨none, none⟩
  | some (_, value) =>
    match format.fromSlice value with
    | .error _ => none
    | .ok entry => some ⟨none, some entry.logId⟩

def appendToLog (format : EntryFormat) (db : LogStore) (entries : List Entry) : LogStore :=
  { db with
    logs := entries.foldl
      (fun t entry => t.insert (toBeBytes entry.logId.index) (format.toVec entry)) db.logs }

def deleteConflictLogsSince (db : LogStore) (logId : LogId) : LogStore :=
  { db with logs := db.logs.removeWhere (toBeBytes logId.index ≤ ·) }

def purgeLogsUpto (db : LogStore) (logId : LogId) : LogStore where
  logs := db.logs.removeWhere (· ≤ toBeBytes logId.index)
  store := db.store.insert (Json.utf8 "last_purged_log_id") (Json.print logId.toValue)

/-- A call on the log, or a restart on the same directory. -/
inductive Event where
  | appendToLog (entries : List Entry)
  | deleteConflictLogsSince (logId : LogId)
  | purgeLogsUpto (logId : LogId)
  | restart

def step (format : EntryFormat) (db : LogStore) : Event → LogStore
  | .appendToLog entries => db.appendToLog format entries
  | .deleteConflictLogsSince logId => db.deleteConflictLogsSince logId
  | .purgeLogsUpto logId => db.purgeLogsUpto logId
  | .restart => db

/-- The entries that the event appends. -/
def Event.appended : Event → List Entry
  | .appendToLog entries => entries
  | _ => []

end LogStore

/-! ### The map -/

/-- The entry at each index. -/
abbrev LogMap := UInt64 → Option Entry

namespace LogMap

def empty : LogMap := fun _ => none

/-- The map after an event: an appended entry is the one at its index, a deletion clears its index
and those above, a purge its index and those below. -/
def step (m : LogMap) : LogStore.Event → LogMap
  | .appendToLog entries =>
    entries.foldl (fun m entry => Function.update m entry.logId.index (some entry)) m
  | .deleteConflictLogsSince logId => fun i => if logId.index ≤ i then none else m i
  | .purgeLogsUpto logId => fun i => if i ≤ logId.index then none else m i
  | .restart => m

/-- The map after some events. -/
def run (events : List LogStore.Event) : LogMap := events.foldl step empty

/-- An entry was appended by the last event, or it was there before. -/
theorem step_some {m : LogMap} {ev : LogStore.Event} {i : UInt64} {entry : Entry}
    (h : m.step ev i = some entry) :
    (entry ∈ ev.appended ∧ entry.logId.index = i) ∨ m i = some entry := by
  cases ev with
  | appendToLog entries =>
    change entries.foldl _ m i = some entry at h
    change (entry ∈ entries ∧ _) ∨ _
    -- By induction on the entries: a later one at the same index hides an earlier one.
    induction entries generalizing m with
    | nil => exact Or.inr h
    | cons first entries ih =>
      rcases ih h with ⟨hmem, hidx⟩ | hm
      · exact Or.inl ⟨List.mem_cons_of_mem _ hmem, hidx⟩
      · change Function.update m first.logId.index (some first) i = some entry at hm
        by_cases hidx : i = first.logId.index
        · rw [hidx, Function.update_self, Option.some_inj] at hm
          rw [hidx, ← hm]
          exact Or.inl ⟨List.mem_cons_self, rfl⟩
        · rw [Function.update_of_ne hidx] at hm
          exact Or.inr hm
  | deleteConflictLogsSince logId => exact Or.inr (Option.ite_none_left_eq_some.mp h).2
  | purgeLogsUpto logId => exact Or.inr (Option.ite_none_left_eq_some.mp h).2
  | restart => exact Or.inr h

/-- Every entry is at its own index. -/
def Filed (m : LogMap) : Prop := ∀ i entry, m i = some entry → entry.logId.index = i

theorem Filed.step {m : LogMap} (h : m.Filed) (ev : LogStore.Event) : (m.step ev).Filed := by
  intro i entry hi
  rcases step_some hi with ⟨-, hidx⟩ | hi
  · exact hidx
  · exact h _ _ hi

/-! ### A tree that files a map -/

section Files

variable {κ V : Type} [LinearOrder κ] {m : LogMap} {key : UInt64 → κ} {val : Entry → V}
  {t : SortedTree κ V}

/-- The tree has the entries of the map under their keys, and no others. -/
def Files (m : LogMap) (key : UInt64 → κ) (val : Entry → V) (t : SortedTree κ V) : Prop :=
  ∀ k v, (k, v) ∈ t.entries ↔ ∃ i entry, k = key i ∧ v = val entry ∧ m i = some entry

theorem files_empty (key : UInt64 → κ) (val : Entry → V) : Files empty key val .empty := by
  intro k v
  constructor
  · intro h
    exact absurd h List.not_mem_nil
  · rintro ⟨i, entry, -, -, hi⟩
    cases hi

theorem Files.mem (h : Files m key val t) {i : UInt64} {entry : Entry} (hi : m i = some entry) :
    (key i, val entry) ∈ t.entries :=
  (h _ _).mpr ⟨i, entry, rfl, rfl, hi⟩

theorem Files.insert (h : Files m key val t) (hkey : Function.Injective key) (entry : Entry) :
    Files (Function.update m entry.logId.index (some entry)) key val
      (t.insert (key entry.logId.index) (val entry)) := by
  intro k v
  rw [SortedTree.mem_insert, h, Prod.mk.injEq]
  constructor
  · rintro (⟨rfl, rfl⟩ | ⟨hne, i, entry', rfl, rfl, hi⟩)
    · exact ⟨_, entry, rfl, rfl, Function.update_self ..⟩
    · refine ⟨i, entry', rfl, rfl, ?_⟩
      rwa [Function.update_of_ne fun heq => hne (congrArg key heq)]
  · rintro ⟨i, entry', rfl, rfl, hi⟩
    -- at the index of the entry the tree and the map are overwritten, elsewhere they stay
    by_cases hidx : i = entry.logId.index
    · rw [hidx, Function.update_self, Option.some_inj] at hi
      rw [hidx, hi]
      exact Or.inl ⟨rfl, rfl⟩
    · rw [Function.update_of_ne hidx] at hi
      exact Or.inr ⟨fun heq => hidx (hkey heq), i, entry', rfl, rfl, hi⟩

theorem Files.append (h : Files m key val t) (hkey : Function.Injective key)
    (entries : List Entry) :
    Files (m.step (.appendToLog entries)) key val
      (entries.foldl (fun t entry => t.insert (key entry.logId.index) (val entry)) t) := by
  induction entries generalizing m t with
  | nil => exact h
  | cons entry entries ih => exact ih (h.insert hkey entry)

/-- Keys are removed where the indexes are cleared. -/
theorem Files.remove (h : Files m key val t) {p : κ → Prop} [DecidablePred p] {q : UInt64 → Prop}
    [DecidablePred q] (hpq : ∀ i, p (key i) ↔ q i) :
    Files (fun i => if q i then none else m i) key val (t.removeWhere p) := by
  intro k v
  rw [SortedTree.mem_removeWhere, h]
  constructor
  · rintro ⟨⟨i, entry, rfl, rfl, hi⟩, hp⟩
    exact ⟨i, entry, rfl, rfl, Option.ite_none_left_eq_some.mpr ⟨(hpq i).not.mp hp, hi⟩⟩
  · rintro ⟨i, entry, rfl, rfl, hi⟩
    obtain ⟨hq, hi⟩ := Option.ite_none_left_eq_some.mp hi
    exact ⟨⟨i, entry, rfl, rfl, hi⟩, (hpq i).not.mpr hq⟩

end Files

end LogMap

namespace LogStore

/-! ### The store is the map -/

variable {format : EntryFormat} {db : LogStore} {m : LogMap}

/-- The tree `logs` has the entries of the map under their keys, and each is read back. -/
structure Represents (format : EntryFormat) (db : LogStore) (m : LogMap) : Prop where
  filed : m.Filed
  files : m.Files toBeBytes format.toVec db.logs
  readable : ∀ {i entry}, m i = some entry →
    format.fromSlice (format.toVec entry) = .ok entry

theorem represents_empty (format : EntryFormat) : Represents format empty .empty :=
  ⟨fun _ _ hi => (nomatch hi), LogMap.files_empty _ _, fun hi => (nomatch hi)⟩

theorem toBeBytes_inj {i j : UInt64} : toBeBytes i = toBeBytes j ↔ i = j :=
  BigEndian.toBeBytes_strictMono.injective.eq_iff

theorem toBeBytes_le {i j : UInt64} : toBeBytes i ≤ toBeBytes j ↔ i ≤ j :=
  BigEndian.toBeBytes_strictMono.le_iff_le

theorem toBeBytes_lt {i j : UInt64} : toBeBytes i < toBeBytes j ↔ i < j :=
  BigEndian.toBeBytes_strictMono.lt_iff_lt

/-- What an event leaves or appends is read back. -/
theorem Represents.readable_step (h : Represents format db m) {ev : Event}
    (hread : ∀ entry ∈ ev.appended, format.fromSlice (format.toVec entry) = .ok entry)
    {i : UInt64} {entry : Entry} (hi : m.step ev i = some entry) :
    format.fromSlice (format.toVec entry) = .ok entry := by
  rcases LogMap.step_some hi with ⟨happended, -⟩ | hi
  · exact hread entry happended
  · exact h.readable hi

/-- **Every call does to the store what it does to the map.** -/
theorem Represents.step (h : Represents format db m) {ev : Event}
    (hread : ∀ entry ∈ ev.appended, format.fromSlice (format.toVec entry) = .ok entry) :
    Represents format (db.step format ev) (m.step ev) := by
  refine ⟨LogMap.Filed.step h.filed ev, ?_, fun hi => h.readable_step hread hi⟩
  -- the keys are cut where the indexes are, since their order is the same
  cases ev with
  | appendToLog entries => exact h.files.append BigEndian.toBeBytes_strictMono.injective entries
  | deleteConflictLogsSince logId => exact h.files.remove fun _ => toBeBytes_le
  | purgeLogsUpto logId => exact h.files.remove fun _ => toBeBytes_le
  | restart => exact h.files

/-! ### Reads -/

theorem pastEnd_eq_false {i : UInt64} {b : Bound} : pastEnd i b = false ↔ b.Before i := by
  cases b with
  | included e => exact decide_eq_false_iff_not.trans not_lt
  | excluded e => exact decide_eq_false_iff_not.trans not_le
  | unbounded => exact iff_of_true rfl trivial

/-- What is past the end stays so further on. -/
theorem pastEnd_mono {i j : UInt64} {b : Bound} (h : pastEnd i b = true) (hij : i < j) :
    pastEnd j b = true := by
  cases b with
  | included e => exact decide_eq_true ((of_decide_eq_true h).trans hij)
  | excluded e => exact decide_eq_true ((of_decide_eq_true h).trans hij.le)
  | unbounded => cases h

/-- Where the addition does not wrap, the scan starts at the first index of the range. -/
theorem startIndex_le {i : UInt64} {b : Bound} (hb : b ≠ .excluded 18446744073709551615) :
    startIndex b ≤ i ↔ b.After i := by
  cases b with
  | included start => exact Iff.rfl
  | excluded start =>
    -- the start that is left out is the one whose successor is 0
    have hlt : start.toNat + 1 < 2 ^ 64 := by
      have hmax : start.toNat ≠ 18446744073709551615 := by
        intro heq
        exact hb (congrArg Bound.excluded (UInt64.toNat_inj.mp heq))
      have hsize := start.toNat_lt
      omega
    change start + 1 ≤ i ↔ start < i
    rw [UInt64.le_iff_toNat_le, UInt64.lt_iff_toNat_lt, UInt64.toNat_add]
    change (start.toNat + 1) % 2 ^ 64 ≤ i.toNat ↔ _
    rw [Nat.mod_eq_of_lt hlt]
    exact Nat.succ_le_iff
  | unbounded => exact iff_of_true (UInt64.zero_le ..) trivial

/-- The loop returns the entries before the end, in the order of the scan. -/
theorem collect_eq (endBound : Bound) {kvs : List (Bytes × Bytes)}
    (hsorted : kvs.Pairwise fun a b => a.1 < b.1)
    (hkvs : ∀ kv ∈ kvs, ∃ i entry, kv = (toBeBytes i, format.toVec entry) ∧
      entry.logId.index = i ∧ format.fromSlice (format.toVec entry) = .ok entry) :
    ∃ entries, collect format endBound kvs = some entries ∧
      entries.Pairwise (fun a b => a.logId.index < b.logId.index) ∧
      ∀ entry, entry ∈ entries ↔ endBound.Before entry.logId.index ∧
        ∃ kv ∈ kvs, kv = (toBeBytes entry.logId.index, format.toVec entry) ∧
          format.fromSlice kv.2 = .ok entry := by
  -- By induction on what the scan has found; the keys are ascending, so what is past the end has
  -- only such entries behind it.
  induction kvs with
  | nil =>
    refine ⟨[], rfl, .nil, fun entry => ⟨fun h => absurd h List.not_mem_nil, ?_⟩⟩
    rintro ⟨-, kv, hkv, -⟩
    exact absurd hkv List.not_mem_nil
  | cons kv kvs ih =>
    rw [List.pairwise_cons] at hsorted
    rw [List.forall_mem_cons] at hkvs
    obtain ⟨⟨i, entry, rfl, hidx, hread⟩, hrest⟩ := hkvs
    obtain ⟨entries, hcollect, hpairwise, hmem⟩ := ih hsorted.2 hrest
    -- the keys behind the first are larger
    have hlater : ∀ entry', (toBeBytes entry'.logId.index, format.toVec entry') ∈ kvs →
        i < entry'.logId.index := fun entry' h => toBeBytes_lt.mp (hsorted.1 _ h)
    rw [collect, BigEndian.fromBeBytes_toBeBytes]
    simp only
    split
    · next hpast =>
      -- the scan ends here, and all that follows is past the end too
      refine ⟨[], rfl, .nil, fun entry' => ⟨fun h => absurd h List.not_mem_nil, ?_⟩⟩
      rintro ⟨hbefore, kv, hkv, rfl, -⟩
      rw [← pastEnd_eq_false] at hbefore
      rcases List.mem_cons.mp hkv with heq | hkv
      · rw [Prod.mk.injEq, toBeBytes_inj] at heq
        rw [heq.1, hpast] at hbefore
        cases hbefore
      · rw [pastEnd_mono hpast (hlater entry' hkv)] at hbefore
        cases hbefore
    · next hpast =>
      have hbefore : endBound.Before i := pastEnd_eq_false.mp (Bool.eq_false_iff.mpr hpast)
      simp only [hread, hcollect, Option.map_some]
      refine ⟨_, rfl, List.pairwise_cons.mpr ⟨fun entry' h => ?_, hpairwise⟩, fun entry' => ?_⟩
      · obtain ⟨-, kv, hkv, rfl, -⟩ := (hmem entry').mp h
        rw [hidx]
        exact hlater entry' hkv
      · rw [List.mem_cons, hmem]
        constructor
        · rintro (rfl | ⟨hb, kv, hkv, hrestkv⟩)
          · exact ⟨hidx ▸ hbefore, _, List.mem_cons_self, by rw [hidx], hread⟩
          · exact ⟨hb, kv, List.mem_cons_of_mem _ hkv, hrestkv⟩
        · rintro ⟨hb, kv, hkv, rfl, hread'⟩
          rcases List.mem_cons.mp hkv with heq | hkv
          · -- the value is read as one entry only
            rw [Prod.mk.injEq] at heq
            rw [heq.2, hread] at hread'
            exact Or.inl (Except.ok.inj hread').symm
          · exact Or.inr ⟨hb, _, hkv, rfl, hread'⟩

/-- **A read returns the entries of its range**, in the order of their indexes. -/
theorem Represents.tryGetLogEntries (h : Represents format db m) (range : IndexRange)
    (hstart : range.startBound ≠ .excluded 18446744073709551615) :
    ∃ entries, db.tryGetLogEntries format range = some entries ∧
      entries.Pairwise (fun a b => a.logId.index < b.logId.index) ∧
      ∀ entry, entry ∈ entries ↔
        range.Contains entry.logId.index ∧ m entry.logId.index = some entry := by
  have hkvs : ∀ kv ∈ db.logs.rangeFrom (toBeBytes (startIndex range.startBound)),
      ∃ i entry, kv = (toBeBytes i, format.toVec entry) ∧ entry.logId.index = i ∧
        format.fromSlice (format.toVec entry) = .ok entry := by
    rintro ⟨key, value⟩ hkv
    obtain ⟨i, entry, rfl, rfl, hi⟩ := (h.files _ _).mp (SortedTree.mem_rangeFrom.mp hkv).1
    exact ⟨i, entry, rfl, h.filed _ _ hi, h.readable hi⟩
  obtain ⟨entries, hcollect, hpairwise, hmem⟩ := collect_eq range.endBound
    (db.logs.sorted_rangeFrom _) hkvs
  refine ⟨entries, hcollect, hpairwise, fun entry => ?_⟩
  rw [hmem]
  constructor
  · rintro ⟨hbefore, kv, hkv, rfl, hread⟩
    obtain ⟨hlogs, hle⟩ := SortedTree.mem_rangeFrom.mp hkv
    obtain ⟨i, entry', hkey, hvalue, hi⟩ := (h.files _ _).mp hlogs
    rw [toBeBytes_inj] at hkey
    -- the value is read as the entry of the map
    rw [hvalue, h.readable hi, Except.ok.injEq] at hread
    rw [hread, ← hkey] at hi
    exact ⟨⟨(startIndex_le hstart).mp (toBeBytes_le.mp hle), hbefore⟩, hi⟩
  · rintro ⟨⟨hafter, hbefore⟩, hi⟩
    have hlogs := h.files.mem hi
    have hle := toBeBytes_le.mpr ((startIndex_le hstart).mpr hafter)
    exact ⟨hbefore, _, SortedTree.mem_rangeFrom.mpr ⟨hlogs, hle⟩, rfl, h.readable hi⟩

/-- **The log state is that of the highest entry.** -/
theorem Represents.getLogState (h : Represents format db m) :
    ∃ state, db.getLogState format = some state ∧ state.lastPurgedLogId = none ∧
      ((∀ i, m i = none) → state.lastLogId = none) ∧
      ∀ i entry, m i = some entry → (∀ j, i < j → m j = none) →
        state.lastLogId = some entry.logId := by
  cases hlast : db.logs.last with
  | none =>
    have hempty := SortedTree.last_eq_none_iff.mp hlast
    refine ⟨⟨none, none⟩, by rw [LogStore.getLogState, hlast], rfl, fun _ => rfl, ?_⟩
    intro i entry hi
    have hmem := h.files.mem hi
    rw [hempty] at hmem
    exact absurd hmem List.not_mem_nil
  | some kv =>
    obtain ⟨key, value⟩ := kv
    obtain ⟨hmem, hmax⟩ := SortedTree.last_eq_some_iff.mp hlast
    obtain ⟨k, last, rfl, rfl, hk⟩ := (h.files _ _).mp hmem
    refine ⟨⟨none, some last.logId⟩, ?_, rfl, fun hnone => ?_, fun i entry hi habove => ?_⟩
    · rw [LogStore.getLogState, hlast]
      simp only [h.readable hk]
    · rw [hnone] at hk
      cases hk
    · -- no other index has the last key
      have hle : i ≤ k := toBeBytes_le.mp (hmax _ (h.files.mem hi))
      rcases hle.lt_or_eq with hlt | rfl
      · rw [habove k hlt] at hk
        cases hk
      · rw [hi, Option.some_inj] at hk
        rw [hk]

/-! ### Runs -/

/-- The directory after some events. -/
def run (format : EntryFormat) (events : List Event) : LogStore :=
  events.foldl (step format) empty

theorem represents_run {events : List Event}
    (hformat : ∀ ev ∈ events, ∀ entry ∈ ev.appended,
      format.fromSlice (format.toVec entry) = .ok entry) :
    Represents format (run format events) (LogMap.run events) := by
  have hrun : ∀ {db : LogStore} {m : LogMap}, Represents format db m →
      Represents format (events.foldl (LogStore.step format) db) (events.foldl LogMap.step m) := by
    induction events with
    | nil => exact fun h => h
    | cons ev events ih =>
      rw [List.forall_mem_cons] at hformat
      exact fun h => ih hformat.2 (h.step hformat.1)
  exact hrun (represents_empty format)

/-- **The log store is an ordered map.** After any calls and restarts on one directory, a read with
any bounds returns the entries appended last at the indexes of its range and not removed since, in
the order of their indexes; and the log state has the id of the highest entry. -/
theorem ordered_map (format : EntryFormat) (events : List Event)
    (hformat : ∀ ev ∈ events, ∀ entry ∈ ev.appended,
      format.fromSlice (format.toVec entry) = .ok entry) :
    (∀ range : IndexRange, range.startBound ≠ .excluded 18446744073709551615 →
      ∃ entries, (run format events).tryGetLogEntries format range = some entries ∧
        entries.Pairwise (fun a b => a.logId.index < b.logId.index) ∧
        ∀ entry, entry ∈ entries ↔ range.Contains entry.logId.index ∧
          LogMap.run events entry.logId.index = some entry) ∧
    ∃ state, (run format events).getLogState format = some state ∧
      ((∀ i, LogMap.run events i = none) → state.lastLogId = none) ∧
      ∀ i entry, LogMap.run events i = some entry →
        (∀ j, i < j → LogMap.run events j = none) → state.lastLogId = some entry.logId := by
  have h := represents_run hformat
  obtain ⟨state, hstate, -, hlast⟩ := h.getLogState
  exact ⟨fun range hstart => h.tryGetLogEntries range hstart, state, hstate, hlast⟩

/-- A blank entry of the first leader. -/
def blankEntry (index : UInt64) : Entry := ⟨⟨⟨1, 1⟩, index⟩, .blank⟩

/-- The entries 255 and 256: the last bytes of their keys are in the other order. -/
theorem ordered_map_restart :
    ∃ entries, (run (.reading [blankEntry 255, blankEntry 256])
        [.appendToLog [blankEntry 256, blankEntry 255], .restart]).tryGetLogEntries
          (.reading [blankEntry 255, blankEntry 256]) ⟨.excluded 7, .unbounded⟩ = some entries ∧
      entries.Pairwise (fun a b => a.logId.index < b.logId.index) ∧
      ∀ entry, entry ∈ entries ↔
        IndexRange.Contains ⟨.excluded 7, .unbounded⟩ entry.logId.index ∧
          LogMap.run [.appendToLog [blankEntry 256, blankEntry 255], .restart] entry.logId.index
            = some entry :=
  (ordered_map _ _ (by decide +kernel)).1 ⟨.excluded 7, .unbounded⟩ (by decide)

/-! ### Keys that are numbers -/

end LogStore

/-- The event on a directory whose log is keyed by the numbers. -/
def SledDb.logStep (db : SledDb) : LogStore.Event → SledDb
  | .appendToLog entries => db.appendToLog entries
  | .deleteConflictLogsSince logId => db.deleteConflictLogsSince logId
  | .purgeLogsUpto logId => db.purgeLogsUpto logId
  | .restart => db

namespace LogStore

theorem toNat_injective : Function.Injective UInt64.toNat := fun _ _ => UInt64.toNat_inj.mp

theorem files_logStep {m : LogMap} {db : SledDb} (h : m.Files UInt64.toNat id db.logs)
    (ev : Event) : (m.step ev).Files UInt64.toNat id (db.logStep ev).logs := by
  cases ev with
  | appendToLog entries => exact h.append toNat_injective entries
  | deleteConflictLogsSince logId => exact h.remove fun _ => UInt64.le_iff_toNat_le.symm
  | purgeLogsUpto logId => exact h.remove fun _ => UInt64.le_iff_toNat_le.symm
  | restart => exact h

/-- A log keyed by the numbers has the entries of the map too. -/
theorem files_logs (events : List Event) :
    (LogMap.run events).Files UInt64.toNat id (events.foldl SledDb.logStep .empty).logs := by
  have hrun : ∀ {m : LogMap} {db : SledDb}, m.Files UInt64.toNat id db.logs →
      (events.foldl LogMap.step m).Files UInt64.toNat id
        (events.foldl SledDb.logStep db).logs := by
    induction events with
    | nil => exact fun h => h
    | cons ev events ih => exact fun h => ih (files_logStep h ev)
  exact hrun (LogMap.files_empty _ _)

/-- **Keys may be numbers.** The directory keyed by numbers reports the log state of the bytes. -/
theorem getLogState_run {events : List Event}
    (hformat : ∀ ev ∈ events, ∀ entry ∈ ev.appended,
      format.fromSlice (format.toVec entry) = .ok entry) :
    (run format events).getLogState format
      = some (events.foldl SledDb.logStep .empty).getLogState := by
  have hfiles := files_logs events
  obtain ⟨⟨lastPurgedLogId, lastLogId⟩, hstate, hpurged, hempty, hhighest⟩ :=
    (represents_run hformat).getLogState
  change lastPurgedLogId = none at hpurged
  rw [hstate, hpurged, SledDb.getLogState]
  cases hlast : (events.foldl SledDb.logStep .empty).logs.last with
  | none =>
    have hnone : ∀ i, LogMap.run events i = none := by
      intro i
      by_contra hsome
      obtain ⟨entry, hi⟩ := Option.ne_none_iff_exists'.mp hsome
      have hmem := hfiles.mem hi
      rw [SortedTree.last_eq_none_iff.mp hlast] at hmem
      exact absurd hmem List.not_mem_nil
    exact congrArg (fun id => some (LogState.mk none id)) (hempty hnone)
  | some kv =>
    obtain ⟨k, last⟩ := kv
    obtain ⟨hmem, hmax⟩ := SortedTree.last_eq_some_iff.mp hlast
    obtain ⟨i, entry, rfl, rfl, hi⟩ := (hfiles _ _).mp hmem
    have habove : ∀ j, i < j → LogMap.run events j = none := by
      intro j hij
      by_contra hsome
      obtain ⟨entry', hj⟩ := Option.ne_none_iff_exists'.mp hsome
      have hle := hmax _ (hfiles.mem hj)
      exact absurd (UInt64.lt_iff_toNat_lt.mp hij) hle.not_gt
    exact congrArg (fun id => some (LogState.mk none id)) (hhighest i last hi habove)

end LogStore

end Oxideq
