import Oxideq.Storage.Recovery
import Mathlib.Data.Set.Finite.Basic

/-!
# Torn tails

An append that is cut short leaves the beginning of a line at the end of the file. The reopened
log is in append mode, so the next line is written right behind it, and the two together are no
entry: whatever is logged after such a start is lost to the next one, and mostly the whole log
with it. The store recovers as it should exactly when nothing of the line was written
(`tornTailSafe_iff`).
-/

namespace Oxideq

open Json

/-- `t` is what is left of the line of `entry`, newline included, when its end is missing. -/
def Torn (entry : WalEntry Bytes) (t : Bytes) : Prop :=
  ∃ u, u ≠ [] ∧ entry.line ++ [newline] = t ++ u

/-- The entries a file of complete lines and a torn tail holds: only a missing newline still
leaves the entry. -/
def intactEntries (es : List (WalEntry Bytes)) (entry : WalEntry Bytes) (t : Bytes) :
    List (WalEntry Bytes) :=
  if t = entry.line then es ++ [entry] else es

namespace Node

/-- The calls, made one after the other, all return `Ok`. -/
def AllOk : Node → List ((ℕ → Env) × Call Bytes) → Prop
  | _, [] => True
  | n, (envs, c) :: calls =>
    (∃ r, (n.store.call envs c).1 = .ok r) ∧ AllOk (n.step (.call envs c)) calls

/-- The node after the calls. -/
def calls (n : Node) (cs : List ((ℕ → Env) × Call Bytes)) : Node :=
  n.run (cs.map fun c => .call c.1 c.2)

theorem Recovers.calls {n : Node} (hn : Recovers n) {cs : List ((ℕ → Env) × Call Bytes)}
    (hok : n.AllOk cs) : Recovers (n.calls cs) := by
  induction cs generalizing n with
  | nil => exact hn
  | cons c cs ih => exact ih (hn.call (Or.inr hok.1)) hok.2

end Node

/-- A start after a torn write finds the intact entries, and the file keeps what later calls
add: after any calls that return `Ok`, another start rebuilds the live state. -/
structure TornTailSafe (es : List (WalEntry Bytes)) (entry : WalEntry Bytes) (t : Bytes) :
    Prop where
  rebuilds : ∀ envs, SameState
    (InMemoryStorage.newPersistent envs (unlines (es.map WalEntry.line) ++ t))
    (InMemoryStorage.newPersistent envs
      (unlines ((intactEntries es entry t).map WalEntry.line)))
  keeps : ∀ envs envs' calls,
    (Node.start envs (unlines (es.map WalEntry.line) ++ t)).AllOk calls →
    SameState
      (InMemoryStorage.newPersistent envs'
        ((Node.start envs (unlines (es.map WalEntry.line) ++ t)).calls calls).contents)
      ((Node.start envs (unlines (es.map WalEntry.line) ++ t)).calls calls).store

/-- With nothing of the line written, the file is a list of complete lines. -/
theorem tornTailSafe_nil (es : List (WalEntry Bytes)) (entry : WalEntry Bytes) :
    TornTailSafe es entry [] := by
  have hne : [] ≠ entry.line := by
    obtain ⟨l, hl⟩ := entry.line_head
    rw [hl]
    exact List.cons_ne_nil _ _ |>.symm
  refine ⟨fun envs => ?_, fun envs envs' calls hok => ?_⟩
  · rw [List.append_nil, intactEntries, if_neg hne]
    exact SameState.refl _
  · rw [List.append_nil] at hok ⊢
    exact ((Node.recovers_start envs es).calls hok).newPersistent envs'

/-! ### A line behind a torn one -/

theorem Torn.prefix_line {entry : WalEntry Bytes} {t : Bytes} (h : Torn entry t) :
    ∃ u, entry.line = t ++ u := by
  obtain ⟨u, hu, hsplit⟩ := h
  -- what is missing ends with the newline
  obtain ⟨u, b, rfl⟩ := (List.eq_nil_or_concat' u).resolve_left hu
  rw [← List.append_assoc] at hsplit
  exact ⟨u, (List.append_inj' hsplit rfl).1⟩

/-- No torn line followed by a complete one is an entry. -/
theorem Torn.ofLine_append {entry : WalEntry Bytes} {t : Bytes} (h : Torn entry t) (ht : t ≠ [])
    (next : WalEntry Bytes) : WalEntry.ofLine (t ++ next.line) = none := by
  have hparse : parse (t ++ next.line) = none := by
    obtain ⟨u, hu⟩ := h.prefix_line
    by_cases hend : u = []
    · -- only the newline is missing, so one object stands right behind another
      rw [hend, List.append_nil] at hu
      obtain ⟨l, hl⟩ := next.line_head
      rw [← hu, hl]
      exact parse_print_append entry.noFloat_encode (by decide) (by decide)
    · have hfloat := fun e : WalEntry Bytes => e.noFloat_encode
      simp only [WalEntry.encode, noFloat] at hfloat
      -- cut inside a string, the key `op` of the second entry is read outside one, where `o` has no
      -- place; cut outside, the first brace stays open
      refine parse_torn_append (hfloat entry) hu ht hend (hfloat next)
        (show escapeString "op" = [0x6f, 0x70] by decide) fun d => ?_
      simp [scanByte, isFiller, isWs, isDigit]
  unfold WalEntry.ofLine
  rw [hparse, Option.bind_none]

/-- The next start finds none of the entries behind a torn line: it stops at the line, or fails
there and starts from nothing. -/
theorem Torn.replay_append {entry : WalEntry Bytes} {t : Bytes} (h : Torn entry t) (ht : t ≠ [])
    (es : List (WalEntry Bytes)) (next : WalEntry Bytes) :
    WalManager.replay (unlines (es.map WalEntry.line) ++ t ++ (next.line ++ [newline])) = none ∨
      WalManager.replay (unlines (es.map WalEntry.line) ++ t ++ (next.line ++ [newline]))
        = some es := by
  -- the torn line and the next one have no newline between them: one line
  obtain ⟨u, hu⟩ := h.prefix_line
  have hcontrol : ∀ b ∈ t ++ next.line, 0x20 ≤ b := by
    intro b hb
    rcases List.mem_append.mp hb with hb | hb
    · exact entry.printable_line.noControl b (hu ▸ List.mem_append_left u hb)
    · exact next.printable_line.noControl b hb
  have hlines : lines (t ++ next.line ++ [newline]) = [t ++ next.line] := by
    rw [lines_line (notMem_newline hcontrol), stripCr_eq hcontrol]
    rfl
  have hreplay : WalManager.replay (t ++ next.line ++ [newline]) = none ∨
      WalManager.replay (t ++ next.line ++ [newline]) = some [] := by
    obtain ⟨l, hl⟩ := entry.line_head
    obtain ⟨b, t', rfl⟩ := List.exists_cons_of_ne_nil ht
    rw [hl, List.cons_append] at hu
    obtain ⟨rfl, -⟩ := List.cons.inj hu
    unfold WalManager.replay
    rw [hlines, List.cons_append, WalManager.replayLines_brace, ← List.cons_append,
      h.ofLine_append ht next]
    split
    · exact Or.inl rfl
    · exact Or.inr rfl
  rw [List.append_assoc, WalManager.replay_unlines, ← List.append_assoc]
  rcases hreplay with hr | hr
  · exact Or.inl (by rw [hr]; rfl)
  · exact Or.inr (by rw [hr, Option.map_some, List.append_nil])

/-- **A torn tail loses the next call.** A queue created after the start is missing from what
the start after that rebuilds. -/
theorem Torn.not_safe {entry : WalEntry Bytes} {t : Bytes} (h : Torn entry t) (ht : t ≠ [])
    (es : List (WalEntry Bytes)) : ¬ TornTailSafe es entry t := by
  intro hsafe
  let envs : ℕ → Env := fun _ => Env.quiet []
  let n := Node.start envs (unlines (es.map WalEntry.line) ++ t)
  let rebuilt : InMemoryStorage Bytes := InMemoryStorage.recover envs es
  -- a name that is neither in the live store nor among the intact entries
  obtain ⟨name, hname⟩ := (n.store.queues.keys ∪ rebuilt.queues.keys).exists_notMem
  rw [Finset.notMem_union, Finmap.mem_keys, Finmap.mem_keys] at hname
  obtain ⟨hlive, hold⟩ := hname
  have hcall : n.store.createQueue (envs 0) name
      = (.ok (), (n.store.logged (envs 0) (.createQueue name)).setQueue name []) := by
    rw [InMemoryStorage.createQueue, if_neg hlive, InMemoryStorage.logOp_ok rfl]
  have hok : n.AllOk [(envs, .createQueue name)] :=
    ⟨⟨.done, by rw [InMemoryStorage.call, hcall]; rfl⟩, trivial⟩
  let next : WalEntry Bytes := ⟨.createQueue name, timestampMillis 0⟩
  have hnode : n.calls [(envs, .createQueue name)]
      = { n with store := (n.store.logged (envs 0) (.createQueue name)).setQueue name [] } := by
    show ({ n with store := (n.store.call envs (.createQueue name)).2 } : Node) = _
    rw [InMemoryStorage.call, hcall]
    rfl
  have hfile : (n.calls [(envs, .createQueue name)]).contents
      = unlines (es.map WalEntry.line) ++ t ++ (next.line ++ [newline]) := by
    rw [hnode]
    show unlines (es.map WalEntry.line) ++ t ++ unlines [next.line] = _
    simp [unlines]
  have hstore : name ∈ (n.calls [(envs, .createQueue name)]).store.queues := by
    rw [hnode]
    exact Finmap.mem_insert.mpr (Or.inl rfl)
  have hsame := (hsafe.keeps envs envs _ hok).queues
  rw [← hsame, hfile, InMemoryStorage.newPersistent] at hstore
  -- the queue is in the live store, but not in what either outcome of the replay rebuilds
  rcases h.replay_append ht es next with hr | hr
  · rw [hr] at hstore
    exact absurd hstore (Finmap.notMem_empty)
  · rw [hr] at hstore
    exact hold hstore

/-- **Torn tails are recovered from exactly when they are empty.** -/
theorem tornTailSafe_iff (es : List (WalEntry Bytes)) {entry : WalEntry Bytes} {t : Bytes}
    (h : Torn entry t) : TornTailSafe es entry t ↔ t = [] := by
  constructor
  · intro hsafe
    by_contra ht
    exact h.not_safe ht es hsafe
  · rintro rfl
    exact tornTailSafe_nil es entry

/-- The entry whose append is cut short in the examples below. -/
def cutEntry : WalEntry Bytes := ⟨.enqueue "jobs" [0x68, 0x69], 1700000000000⟩

theorem torn_brace (entry : WalEntry Bytes) : Torn entry [0x7b] := by
  obtain ⟨l, hl⟩ := entry.line_head
  exact ⟨l ++ [newline], by simp, by rw [hl]; rfl⟩

theorem tornTailSafe_iff_brace :
    TornTailSafe [⟨.createQueue "jobs", 1700000000000⟩] cutEntry [0x7b]
      ↔ ([0x7b] : Bytes) = [] :=
  tornTailSafe_iff _ (torn_brace cutEntry)

/-- One byte of a second line is enough. -/
theorem not_tornTailSafe_brace :
    ¬ ∀ (es : List (WalEntry Bytes)) (entry : WalEntry Bytes) (t : Bytes),
      Torn entry t → TornTailSafe es entry t := fun hall =>
  (torn_brace cutEntry).not_safe (List.cons_ne_nil _ _) _
    (hall [⟨.createQueue "jobs", 1700000000000⟩] cutEntry [0x7b] (torn_brace cutEntry))

end Oxideq
