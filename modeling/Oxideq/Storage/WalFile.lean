import Oxideq.Storage.Wal

/-!
# A log file over its handles

One log file, written through one handle after the other: each is opened in append mode by
`WalManager::new`, so it leaves the bytes that are there and writes behind them. A handle knows
only what was appended through it; the file is what it found and what it wrote.

The file stays a list of complete lines, one to an entry. A line break between entries is the only
newline byte of the file, whatever names, ids and payloads the entries hold, so the entries are
read back one for one (`replay_run_append`).
-/

namespace Oxideq

open Json

/-- A log file and the handle it is open in. -/
structure WalFile where
  found : Bytes
  manager : WalManager Bytes

namespace WalFile

/-- `WalManager::new` on a file with the given bytes. -/
def new (found : Bytes) : WalFile := ⟨found, .new⟩

/-- The bytes of the file now. -/
def contents (f : WalFile) : Bytes := f.found ++ f.manager.bytes

/-- What happens to the file: an append, with the result of its write, or the end of the handle
and the next `WalManager::new`. -/
inductive Event where
  | append (io : Except String Unit) (entry : WalEntry Bytes)
  | reopen

def step (f : WalFile) : Event → WalFile
  | .append io entry =>
    match f.manager.append io entry with
    | .ok manager => { f with manager := manager }
    -- a failed append has written nothing
    | .error _ => f
  | .reopen => new f.contents

def run (f : WalFile) (events : List Event) : WalFile := events.foldl step f

/-- The entry an event adds to the file. -/
def Event.entry : Event → Option (WalEntry Bytes)
  | .append (.ok _) entry => some entry
  | _ => none

/-- The entries appended by a list of events, in order. -/
def appended (events : List Event) : List (WalEntry Bytes) := events.filterMap Event.entry

theorem contents_new (found : Bytes) : (new found).contents = found := by
  simp [contents, new, WalManager.bytes, WalManager.new]

/-- An event adds the line of its entry, and nothing where it has none. -/
theorem contents_step (f : WalFile) (ev : Event) :
    (f.step ev).contents = f.contents ++ unlines (ev.entry.toList.map WalEntry.line) := by
  cases ev with
  | append io entry =>
    cases io with
    | ok u =>
      simp [step, contents, Event.entry, WalManager.append, WalManager.bytes, unlines_append]
    | error e => simp [step, Event.entry, WalManager.append]
  | reopen => simp [step, Event.entry, contents_new]

theorem contents_run (f : WalFile) (events : List Event) :
    (f.run events).contents = f.contents ++ unlines ((appended events).map WalEntry.line) := by
  induction events generalizing f with
  | nil => simp [run, appended]
  | cons ev events ih =>
    have hcons : appended (ev :: events) = ev.entry.toList ++ appended events := by
      cases hev : ev.entry with
      | none => exact List.filterMap_cons_none hev
      | some entry => exact List.filterMap_cons_some hev
    show ((f.step ev).run events).contents = _
    rw [ih, contents_step, hcons, List.map_append, unlines_append, List.append_assoc]

/-- Appends that succeed add what they are given. -/
theorem appended_map_append (es : List (WalEntry Bytes)) :
    appended (es.map (Event.append (.ok ()))) = es := by
  rw [appended, List.filterMap_map]
  exact List.filterMap_some

/-- **Framing round trip.** Whatever was appended to a file that was empty once, through any number
of handles, the entries appended next are read back behind the earlier ones, in order. -/
theorem replay_run_append (events : List Event) (es : List (WalEntry Bytes)) :
    WalManager.replay (((new []).run events).run (es.map (Event.append (.ok ())))).contents
      = some (appended events ++ es) := by
  rw [contents_run, contents_run, contents_new, appended_map_append, List.nil_append,
    ← unlines_append, ← List.map_append]
  exact WalManager.replay_written (appended events ++ es)

end WalFile

end Oxideq
