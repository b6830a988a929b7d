import Mathlib.Data.List.DropRight
import Mathlib.Data.Set.Finite.Basic
import Oxideq.Lib.JsonPrefix
import Oxideq.Storage.Divergence

/-!
# Starting on any file

What `new_persistent` and the calls after it make of a log file, whatever bytes are in it: a file
the program wrote, one that was cut off or damaged, or one that somebody edited. The file is opened
in append mode, so what is there stays there, and every later start reads it again together with
what was appended. Two things decide how that goes: whether `replay` gets past the lines that are
complete, and what stands behind the last newline, because the first line that is appended is
written right behind it (`standing`).

* The file is **sound** when every line is read and only white space follows the last newline.
  Then it is as good as a file of the program, though it may have blank lines, carriage returns or
  spaces the program never writes.
* It is **stuck** when `replay` stops at bytes that are not UTF-8. It stops there at every later
  start as well, and nothing that is appended is ever read.
* It is **lost** when a line is no entry, or when the last line becomes none by what is written
  behind it. Once anything is written, every later start begins with no queues.

The bytes behind the last newline and the first appended line make one line. It is an entry only if
these bytes are white space (`Json.parse_append_obj`), even if they are a complete entry whose
newline is missing.
-/

namespace Oxideq

open Json

/-! ### The lines of a file -/

/-- What stands behind the last newline. -/
def lastLine (file : Bytes) : Bytes := file.rtakeWhile fun b => b ≠ newline

/-- The lines that end with a newline. -/
def wholeLines (file : Bytes) : List Bytes := lines (file.rdropWhile fun b => b ≠ newline)

theorem newline_notMem_lastLine (file : Bytes) : newline ∉ lastLine file := fun hmem => by
  simpa using List.mem_rtakeWhile_imp hmem

theorem linesFrom_append_newline (acc bs bs' : Bytes) :
    linesFrom acc (bs ++ newline :: bs') = linesFrom acc (bs ++ [newline]) ++ lines bs' := by
  induction bs generalizing acc with
  | nil => simp [linesFrom, lines]
  | cons b bs ih =>
    rw [List.cons_append, List.cons_append, linesFrom, linesFrom]
    split
    · rw [ih, List.cons_append]
    · exact ih _

/-- What is written behind a file goes on with its last line. -/
theorem lines_append (file bs : Bytes) :
    lines (file ++ bs) = wholeLines file ++ lines (lastLine file ++ bs) := by
  have hsplit : file.rdropWhile (fun b => b ≠ newline) ++ lastLine file = file :=
    List.rdropWhile_append_rtakeWhile ..
  unfold wholeLines
  have hlast := List.rdropWhile_last_not (fun b => b ≠ newline) file
  generalize file.rdropWhile (fun b => b ≠ newline) = whole at hsplit hlast ⊢
  conv_lhs => rw [← hsplit]
  generalize lastLine file = last
  rcases List.eq_nil_or_concat' whole with rfl | ⟨init, b, rfl⟩
  · rfl
  · -- the complete lines end with a newline
    obtain rfl : b = newline := by simpa using hlast (by simp)
    rw [List.append_assoc, List.append_assoc, List.singleton_append]
    exact linesFrom_append_newline [] init _

/-- The last line of the file and the first that is appended are one line. -/
theorem lines_lastLine_append (file : Bytes) (entry : WalEntry Bytes)
    (es : List (WalEntry Bytes)) :
    lines (lastLine file ++ unlines ((entry :: es).map WalEntry.line))
      = (lastLine file ++ entry.line) :: es.map WalEntry.line := by
  have hprint : ∀ l ∈ es.map WalEntry.line, Printable l := by
    intro l hl
    obtain ⟨e, -, rfl⟩ := List.mem_map.mp hl
    exact e.printable_line
  have hline : newline ∉ lastLine file ++ entry.line := by
    rw [List.mem_append, not_or]
    exact ⟨newline_notMem_lastLine file, notMem_newline entry.printable_line.noControl⟩
  have hcr : stripCr (lastLine file ++ entry.line) = lastLine file ++ entry.line := by
    -- the line ends as the entry does, whose bytes are no control bytes
    obtain ⟨l, hl⟩ := entry.line_head
    have hlast : (lastLine file ++ entry.line).getLast? = entry.line.getLast? :=
      List.getLast?_append_of_ne_nil _ (by rw [hl]; exact List.cons_ne_nil _ _)
    unfold stripCr
    rw [hlast, if_neg fun hr => ?_]
    exact absurd (entry.printable_line.noControl _ (List.mem_of_getLast? hr)) (by decide)
  have hrest := lines_unlines_append hprint []
  rw [List.append_nil, show lines [] = [] from rfl, List.append_nil] at hrest
  rw [List.map_cons, unlines, List.flatMap_cons, ← unlines, List.append_assoc,
    List.singleton_append, ← List.append_assoc, lines_line hline, hcr, hrest]

theorem lines_lastLine (file : Bytes) :
    lines (lastLine file) = if lastLine file = [] then [] else [lastLine file] := by
  have h := linesFrom_plain (newline_notMem_lastLine file) [] []
  rw [List.append_nil, List.nil_append] at h
  exact h

namespace WalManager

/-! ### Reading on -/

/-- Lines that are UTF-8 are read first, or fail the whole replay. -/
theorem replayLines_append {ls : List Bytes} (h : ∀ l ∈ ls, ValidUtf8 l) (ls' : List Bytes) :
    replayLines (ls ++ ls')
      = (replayLines ls).bind fun es => (replayLines ls').map (es ++ ·) := by
  induction ls with
  | nil => simp [replayLines]
  | cons l ls ih =>
    obtain ⟨hl, hls⟩ := List.forall_mem_cons.mp h
    obtain ⟨s, hs⟩ := ofUtf8_of_valid hl
    rw [List.cons_append, replayLines, replayLines, hs]
    dsimp only
    split
    · exact ih hls
    · cases WalEntry.ofLine l with
      | none => rfl
      | some entry =>
        simp only [ih hls]
        cases replayLines ls with
        | none => rfl
        | some es => simp [Function.comp_def]

/-- At bytes that are not UTF-8 the replay is over. -/
theorem replayLines_append_of_not {ls : List Bytes} (h : ¬ ∀ l ∈ ls, ValidUtf8 l)
    (ls' : List Bytes) : replayLines (ls ++ ls') = replayLines ls := by
  induction ls with
  | nil => exact absurd (fun _ hl => absurd hl List.not_mem_nil) h
  | cons l ls ih =>
    rw [List.cons_append, replayLines, replayLines]
    cases hu : ofUtf8 l with
    | none => rfl
    | some s =>
      have hl : ValidUtf8 l := utf8_of_ofUtf8 hu ▸ validUtf8_utf8 s
      have hls : ¬ ∀ l ∈ ls, ValidUtf8 l := fun hls => h (List.forall_mem_cons.mpr ⟨hl, hls⟩)
      simp only [ih hls]

/-- The complete lines are read first, and the rest only if they are all UTF-8. -/
theorem replay_append (file bs : Bytes) :
    replay (file ++ bs) =
      if ∀ l ∈ wholeLines file, ValidUtf8 l then
        (replayLines (wholeLines file)).bind fun es =>
          (replayLines (lines (lastLine file ++ bs))).map (es ++ ·)
      else replayLines (wholeLines file) := by
  rw [replay, lines_append]
  split
  · next h => exact replayLines_append h _
  · next h => exact replayLines_append_of_not h _

theorem replayLines_written (es : List (WalEntry Bytes)) :
    replayLines (es.map WalEntry.line) = some es := by
  induction es with
  | nil => rfl
  | cons entry es ih => rw [List.map_cons, replayLines_line, ih]; rfl

end WalManager

/-! ### The line in between -/

/-- A text with a brace in it is not blank. -/
theorem not_isBlank_of_mem {s : String} (h : 0x7b ∈ utf8 s) : isBlank s = false := by
  obtain ⟨c, hc, hmem⟩ := List.mem_flatMap.mp h
  by_cases hascii : c.val.toNat < 0x80
  · rw [utf8EncodeChar_ascii hascii, List.mem_singleton] at hmem
    have hn : c.toNat = 0x7b := by
      have hnat := congrArg UInt8.toNat hmem
      rw [UInt8.toNat_ofNat', Nat.mod_eq_of_lt (by omega)] at hnat
      exact hnat.symm
    refine Bool.eq_false_iff.mpr fun hblank => ?_
    have hws := List.all_eq_true.mp hblank c hc
    simp [isWhitespace, hn] at hws
  · exact absurd (le_of_mem_utf8EncodeChar (not_lt.mp hascii) hmem) (by decide)

/-- White space of JSON is blank. -/
theorem isBlank_of_skipWs {s : String} (h : skipWs (utf8 s) = []) : isBlank s = true := by
  refine List.all_eq_true.mpr fun c hc => ?_
  have hws : ∀ b ∈ String.utf8EncodeChar c, isWs b = true := fun b hb =>
    skipWs_eq_nil.mp h b (List.mem_flatMap.mpr ⟨c, hc, hb⟩)
  by_cases hascii : c.val.toNat < 0x80
  · have hb := hws (UInt8.ofNat c.val.toNat) (by rw [utf8EncodeChar_ascii hascii]; simp)
    simp only [isWs, Bool.or_eq_true, beq_iff_eq, ← UInt8.toNat_inj, UInt8.toNat_ofNat',
      Nat.mod_eq_of_lt (show c.val.toNat < 2 ^ 8 by omega)] at hb
    have hn : ((c.toNat = 32 ∨ c.toNat = 9) ∨ c.toNat = 10) ∨ c.toNat = 13 := hb
    rcases hn with ((hn | hn) | hn) | hn <;> simp [isWhitespace, hn]
  · obtain ⟨b, hb⟩ := List.exists_mem_of_ne_nil _ (String.utf8EncodeChar_ne_nil (c := c))
    have hle := le_of_mem_utf8EncodeChar (not_lt.mp hascii) hb
    have hlow := hws b hb
    simp only [isWs, Bool.or_eq_true, beq_iff_eq] at hlow
    rcases hlow with ((rfl | rfl) | rfl) | rfl <;> exact absurd hle (by decide)

/-- **What is in front of an entry on its line.** -/
theorem ofLine_append_line (t : Bytes) (entry : WalEntry Bytes) :
    WalEntry.ofLine (t ++ entry.line) = if skipWs t = [] then some entry else none := by
  have hfloat := entry.noFloat_encode
  split
  · next hws =>
    rw [WalEntry.ofLine, WalEntry.line, parse_ws_print hws hfloat, Option.bind_some,
      WalEntry.decode_encode]
  · next hws =>
    cases hp : parse (t ++ entry.line) with
    | none => rw [WalEntry.ofLine, hp]; rfl
    | some w =>
      simp only [WalEntry.encode, noFloat] at hfloat
      refine absurd (parse_append_obj hfloat (show escapeString "op" = [0x6f, 0x70] by decide)
        (fun d => ?_) hp) hws
      simp [scanByte, isFiller, isWs, isDigit]

theorem validUtf8_append_line (t : Bytes) (entry : WalEntry Bytes) :
    ValidUtf8 (t ++ entry.line) ↔ ValidUtf8 t := by
  obtain ⟨l, hl⟩ := entry.line_head
  refine ⟨fun h => ?_, fun h => h.append entry.printable_line.utf8⟩
  rw [hl] at h
  exact h.of_append (by decide)

namespace WalManager

/-- The first line that is appended, behind what it finds on its line. -/
theorem replayLines_append_line (t : Bytes) (entry : WalEntry Bytes) (ls : List Bytes) :
    replayLines ((t ++ entry.line) :: ls) =
      if ValidUtf8 t then
        if skipWs t = [] then (replayLines ls).map (entry :: ·) else none
      else some [] := by
  rw [replayLines]
  cases hu : ofUtf8 (t ++ entry.line) with
  | none =>
    rw [if_neg fun hv => ?_]
    obtain ⟨s, hs⟩ := ofUtf8_of_valid ((validUtf8_append_line t entry).mpr hv)
    rw [hu] at hs
    cases hs
  | some s =>
    have hs := utf8_of_ofUtf8 hu
    have hv : ValidUtf8 t := (validUtf8_append_line t entry).mp (hs ▸ validUtf8_utf8 s)
    have hbrace : 0x7b ∈ utf8 s := by
      obtain ⟨l, hl⟩ := entry.line_head
      rw [hs, hl]
      simp
    rw [if_pos hv]
    simp only [not_isBlank_of_mem hbrace, Bool.false_eq_true, if_false, ofLine_append_line]
    by_cases hws : skipWs t = []
    · rw [if_pos hws, if_pos hws]
    · rw [if_neg hws, if_neg hws]

end WalManager

/-! ### How a file stands -/

/-- What a log file is good for. -/
inductive FileStanding where
  | sound
  | stuck
  | lost
  deriving DecidableEq, Repr

def standing (file : Bytes) : FileStanding :=
  match WalManager.replayLines (wholeLines file) with
  -- a complete line is no entry, and no line before it stops the replay
  | none => .lost
  | some _ =>
    if (∀ l ∈ wholeLines file, ValidUtf8 l) ∧ ValidUtf8 (lastLine file) then
      if skipWs (lastLine file) = [] then .sound else .lost
    else .stuck

/-- The complete lines are all read, and what follows them is white space. -/
theorem standing_eq_sound {file : Bytes} : standing file = .sound ↔
    (∃ es, WalManager.replayLines (wholeLines file) = some es) ∧
      (∀ l ∈ wholeLines file, ValidUtf8 l) ∧ ValidUtf8 (lastLine file) ∧
      skipWs (lastLine file) = [] := by
  unfold standing
  cases WalManager.replayLines (wholeLines file) with
  | none => simp
  | some es =>
    dsimp only
    split
    · next h =>
      split
      · next hws => exact iff_of_true rfl ⟨⟨es, rfl⟩, h.1, h.2, hws⟩
      · next hws => exact iff_of_false nofun fun h' => hws h'.2.2.2
    · next h => exact iff_of_false nofun fun h' => h ⟨h'.2.1, h'.2.2.1⟩

/-- The replay ends before a complete line, or at what follows them. -/
theorem standing_eq_stuck {file : Bytes} : standing file = .stuck ↔
    (∃ es, WalManager.replayLines (wholeLines file) = some es) ∧
      ¬ ((∀ l ∈ wholeLines file, ValidUtf8 l) ∧ ValidUtf8 (lastLine file)) := by
  unfold standing
  cases WalManager.replayLines (wholeLines file) with
  | none => simp
  | some es =>
    dsimp only
    split
    · next h =>
      split
      · exact iff_of_false nofun fun h' => h'.2 h
      · exact iff_of_false nofun fun h' => h'.2 h
    · next h => exact iff_of_true rfl ⟨⟨es, rfl⟩, h⟩

theorem standing_eq_lost {file : Bytes} : standing file = .lost ↔
    WalManager.replayLines (wholeLines file) = none ∨
      (∀ l ∈ wholeLines file, ValidUtf8 l) ∧ ValidUtf8 (lastLine file) ∧
        skipWs (lastLine file) ≠ [] := by
  unfold standing
  cases WalManager.replayLines (wholeLines file) with
  | none => simp
  | some es =>
    dsimp only
    split
    · next h =>
      split
      · next hws => exact iff_of_false nofun (by simp [hws])
      · next hws => exact iff_of_true rfl (Or.inr ⟨h.1, h.2, hws⟩)
    · next h => exact iff_of_false nofun fun h' => h'.elim nofun fun h' => h ⟨h'.1, h'.2.1⟩

namespace WalManager

variable {file : Bytes}

/-- What follows the last newline of a file is left out by a replay that does not read it as an
entry. -/
theorem replayLines_lastLine (h : ValidUtf8 (lastLine file) → skipWs (lastLine file) = []) :
    replayLines (lines (lastLine file)) = some [] := by
  rw [lines_lastLine]
  split
  · rfl
  rw [replayLines]
  cases hu : ofUtf8 (lastLine file) with
  | none => rfl
  | some s =>
    have hs := utf8_of_ofUtf8 hu
    have hws := h (hs ▸ validUtf8_utf8 s)
    rw [← hs] at hws
    simp only [isBlank_of_skipWs hws, if_true, replayLines]

/-- A start on the file, and a start on the file with a line behind it. -/
theorem replay_eq (file : Bytes) : replay file =
    if ∀ l ∈ wholeLines file, ValidUtf8 l then
      (replayLines (wholeLines file)).bind fun es =>
        (replayLines (lines (lastLine file))).map (es ++ ·)
    else replayLines (wholeLines file) := by
  have h := replay_append file []
  rwa [List.append_nil, List.append_nil] at h

theorem replay_append_cons (file : Bytes) (entry : WalEntry Bytes) (es : List (WalEntry Bytes)) :
    replay (file ++ unlines ((entry :: es).map WalEntry.line)) =
      if ∀ l ∈ wholeLines file, ValidUtf8 l then
        (replayLines (wholeLines file)).bind fun read =>
          (if ValidUtf8 (lastLine file) then
            if skipWs (lastLine file) = [] then some (entry :: es) else none
          else some []).map (read ++ ·)
      else replayLines (wholeLines file) := by
  rw [replay_append, lines_lastLine_append, replayLines_append_line, replayLines_written,
    Option.map_some]

/-- **Sound files are read on.** -/
theorem replay_of_sound (h : standing file = .sound) : ∃ read, ∀ es : List (WalEntry Bytes),
    replay (file ++ unlines (es.map WalEntry.line)) = some (read ++ es) := by
  obtain ⟨⟨read, hread⟩, hvalid, hlast, hws⟩ := standing_eq_sound.mp h
  refine ⟨read, fun es => ?_⟩
  cases es with
  | nil =>
    rw [List.map_nil, unlines_nil, List.append_nil, replay_eq, if_pos hvalid, hread,
      replayLines_lastLine fun _ => hws]
    rfl
  | cons entry es =>
    rw [replay_append_cons, if_pos hvalid, if_pos hlast, if_pos hws, hread]
    rfl

/-- **Stuck files stay as they are.** -/
theorem replay_of_stuck (h : standing file = .stuck) (es : List (WalEntry Bytes)) :
    replay (file ++ unlines (es.map WalEntry.line)) = replay file := by
  obtain ⟨⟨read, hread⟩, hstuck⟩ := standing_eq_stuck.mp h
  cases es with
  | nil => rw [List.map_nil, unlines_nil, List.append_nil]
  | cons entry es =>
    rw [replay_append_cons, replay_eq]
    split
    · next hvalid =>
      have hlast : ¬ ValidUtf8 (lastLine file) := fun hlast => hstuck ⟨hvalid, hlast⟩
      rw [if_neg hlast, replayLines_lastLine fun h => absurd h hlast]
    · rfl

/-- **Lost files are read no more.** -/
theorem replay_of_lost (h : standing file = .lost) {es : List (WalEntry Bytes)} (hes : es ≠ []) :
    replay (file ++ unlines (es.map WalEntry.line)) = none := by
  obtain ⟨entry, es, rfl⟩ := List.exists_cons_of_ne_nil hes
  rw [replay_append_cons]
  rcases standing_eq_lost.mp h with hread | ⟨hvalid, hlast, hws⟩
  · rw [hread]
    split <;> rfl
  · rw [if_pos hvalid, if_pos hlast, if_neg hws]
    cases replayLines (wholeLines file) <;> rfl

end WalManager

/-! ### Runs -/

namespace Node

variable {file : Bytes} {n : Node}

/-- What a call appends stands behind what was in the file. -/
theorem contents_call {envs : ℕ → Env} {c : Call Bytes} {es : List (WalEntry Bytes)}
    (hopen : n.store.wal.isSome)
    (hwal : (n.store.call envs c).2.wal = n.store.wal.map (·.extend es)) :
    (n.step (.call envs c)).store.wal.isSome ∧
      (n.step (.call envs c)).contents = n.contents ++ unlines (es.map WalEntry.line) := by
  obtain ⟨m, hm⟩ := Option.isSome_iff_exists.mp hopen
  rw [hm, Option.map_some] at hwal
  refine ⟨by rw [step, hwal]; rfl, ?_⟩
  rw [step, contents, contents, hm, hwal]
  simp [WalManager.bytes, WalManager.extend, unlines_append]

/-- A call that does not lose an `ack` logs what it does. -/
theorem logged_of_not_losesAck {envs : ℕ → Env} {c : Call Bytes}
    (h : ¬ LosesAck n (.call envs c)) : Logged n.store (n.store.call envs c).2 := by
  refine InMemoryStorage.call_logged_of_ack ?_
  rintro id rfl hid
  cases happ : (envs 0).append with
  | ok u => rfl
  | error e => exact absurd ⟨hid, e, happ⟩ h

/-- Every call appends some entries, or none. -/
theorem wal_call (hopen : n.store.wal.isSome) (envs : ℕ → Env) (c : Call Bytes) :
    ∃ es, (n.store.call envs c).2.wal = n.store.wal.map (·.extend es) := by
  by_cases hlost : LosesAck n (.call envs c)
  · -- nothing is written by an `ack` whose append fails
    cases c with
    | ack id =>
      obtain ⟨hid, e, happ⟩ := hlost
      have hdrop : (n.store.call envs (.ack id)).2 = n.store.dropTask id :=
        InMemoryStorage.ack_of_append_error hopen happ hid
      refine ⟨[], ?_⟩
      rw [hdrop, InMemoryStorage.dropTask_wal]
      cases n.store.wal <;> simp [WalManager.extend]
    | _ => exact hlost.elim
  · obtain ⟨es, hwal, -⟩ := logged_of_not_losesAck hlost
    exact ⟨es, hwal⟩

/-- The file has what was found in it, and entries behind that. -/
structure Grown (file : Bytes) (n : Node) : Prop where
  isSome : n.store.wal.isSome
  contents : ∃ es : List (WalEntry Bytes), n.contents = file ++ unlines (es.map WalEntry.line)

theorem grown_start (envs : ℕ → Env) (file : Bytes) : Grown file (start envs file) :=
  ⟨rfl, [], by rw [contents_start, List.map_nil, unlines_nil, List.append_nil]⟩

theorem Grown.step (h : Grown file n) (ev : Event) : Grown file (n.step ev) := by
  obtain ⟨hopen, es, hcontents⟩ := h
  cases ev with
  | restart envs => exact ⟨rfl, es, by rw [Node.step, contents_start, hcontents]⟩
  | call envs c =>
    obtain ⟨es', hwal⟩ := wal_call hopen envs c
    obtain ⟨hopen', hcontents'⟩ := contents_call hopen hwal
    refine ⟨hopen', es ++ es', ?_⟩
    rw [hcontents', hcontents, List.map_append, unlines_append, List.append_assoc]

theorem Grown.run (h : Grown file n) (events : List Event) : Grown file (n.run events) := by
  induction events generalizing n with
  | nil => exact h
  | cons ev events ih => exact ih (h.step ev)

/-- The file is read to its end, and the effects of its entries make the tables. -/
structure ReadsOn (file : Bytes) (n : Node) : Prop where
  grown : Grown file n
  rebuilt : ∃ es, WalManager.replay n.contents = some es ∧
    SameState ((InMemoryStorage.new : InMemoryStorage Bytes).effects (es.map WalEntry.op)) n.store

theorem readsOn_start (h : standing file = .sound) (envs : ℕ → Env) :
    ReadsOn file (start envs file) := by
  obtain ⟨read, hread⟩ := WalManager.replay_of_sound h
  have hfile := hread []
  rw [List.map_nil, unlines_nil, List.append_nil, List.append_nil] at hfile
  refine ⟨grown_start envs file, read, by rw [contents_start, hfile], ?_⟩
  rw [start, InMemoryStorage.newPersistent, hfile]
  exact InMemoryStorage.recover_sameState envs read

namespace ReadsOn

/-- What is appended to a sound file is read at the next start. -/
theorem step (h : ReadsOn file n) (hsound : standing file = .sound) {ev : Event}
    (hev : ¬ LosesAck n ev) : ReadsOn file (n.step ev) := by
  refine ⟨h.grown.step ev, ?_⟩
  obtain ⟨⟨hopen, old, hold⟩, es, hread, hs⟩ := h
  cases ev with
  | restart envs =>
    refine ⟨es, ?_, ?_⟩
    · rw [Node.step, contents_start, hread]
    · rw [Node.step, start, InMemoryStorage.newPersistent, hread]
      exact InMemoryStorage.recover_sameState envs es
  | call envs c =>
    obtain ⟨es', hwal, hs'⟩ := logged_of_not_losesAck hev
    obtain ⟨-, hcontents⟩ := contents_call hopen hwal
    refine ⟨es ++ es', ?_, ?_⟩
    · -- the lines of the run are all behind the file it began with
      obtain ⟨found, hfound⟩ := WalManager.replay_of_sound hsound
      rw [hold, hfound] at hread
      cases hread
      rw [hcontents, hold, List.append_assoc, ← unlines_append, ← List.map_append, hfound,
        List.append_assoc]
    · rw [List.map_append, InMemoryStorage.effects_append]
      exact (hs.effects _).trans hs'

theorem inStep (h : ReadsOn file n) : InStep n := fun envs => by
  obtain ⟨-, es, hread, hs⟩ := h
  rw [InMemoryStorage.newPersistent, hread, Option.getD_some]
  exact (InMemoryStorage.recover_sameState envs es).symm.trans hs

theorem run (h : ReadsOn file n) (hsound : standing file = .sound) {events : List Event}
    (hev : Meets Node.step (fun n ev => ¬ LosesAck n ev) n events) :
    ReadsOn file (n.run events) := by
  induction events generalizing n with
  | nil => exact h
  | cons ev events ih => exact ih (h.step hsound hev.1) hev.2

end ReadsOn

/-- A queue that is created on any other file is missing from what the next start makes of it. -/
theorem not_inStep_of_not_sound (h : standing file ≠ .sound) (envs : ℕ → Env)
    (happ : (envs 0).append = .ok ()) : ∃ name,
      ¬ InStep ((start envs file).step (.call envs (.createQueue name))) := by
  obtain ⟨name, hname⟩ := (start envs file).store.queues.keys.exists_notMem
  rw [Finmap.mem_keys] at hname
  refine ⟨name, fun hin => ?_⟩
  have hcall : ((start envs file).store.createQueue (envs 0) name).2
      = ((start envs file).store.logged (envs 0) (.createQueue name)).setQueue name [] := by
    rw [InMemoryStorage.createQueue, if_neg hname, InMemoryStorage.logOp_ok happ]
  have hstore : ((start envs file).step (.call envs (.createQueue name))).store
      = ((start envs file).store.logged (envs 0) (.createQueue name)).setQueue name [] := hcall
  obtain ⟨-, hcontents⟩ := contents_call rfl (congrArg InMemoryStorage.wal hstore)
  have hsame := (hin envs).queues
  rw [hcontents, contents_start, hstore] at hsame
  have hmem : name ∈ (((start envs file).store.logged (envs 0) (.createQueue name)).setQueue
      name []).queues := Finmap.mem_insert.mpr (Or.inl rfl)
  rw [← hsame, InMemoryStorage.newPersistent] at hmem
  cases hstanding : standing file with
  | sound => exact h hstanding
  | stuck =>
    rw [WalManager.replay_of_stuck hstanding] at hmem
    exact hname hmem
  | lost =>
    rw [WalManager.replay_of_lost hstanding (List.cons_ne_nil _ _)] at hmem
    exact absurd hmem Finmap.notMem_empty

/-- Spaces around an entry, a carriage return and a blank line do no harm. -/
example : standing (0x20 :: (WalEntry.line ⟨.createQueue "jobs", 0⟩ ++ [0x20, 0x0d, 0x0a, 0x0a]))
    = .sound := by decide +kernel

/-- An entry without its newline is read once. -/
example : standing (WalEntry.line ⟨.createQueue "jobs", 0⟩) = .lost := by decide +kernel

/-- One byte that is not UTF-8, behind a complete line. -/
example : standing (WalEntry.line ⟨.createQueue "jobs", 0⟩ ++ [0x0a, 0xff]) = .stuck := by
  decide +kernel

end Node

end Oxideq
