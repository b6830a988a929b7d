import Oxideq.Lib.JsonLines
import Oxideq.Storage.Replay

/-!
# The log file

The bytes of the write-ahead log: one JSON text to a line, as `serde_json` writes it for the
derived serialisation of `WalEntry` and `WalOp` (`storage/wal/mod.rs`), and `WalManager::replay`
(`storage/wal/manager.rs`), which reads the file back.

A line that is not UTF-8 ends the replay with the entries read so far, because the reader reports
it as an error of its own; a line that is UTF-8 but no entry makes the whole replay fail, and
`new_persistent` then starts from no entries at all.
-/

namespace Oxideq

open Json

/-! ### Writing -/

/-- A `Vec<u8>` is written as an array of numbers. -/
def encodeBytes (d : Bytes) : Value := .arr (d.map fun b => .int b.toNat)

def encodeStrings (ss : List String) : Value := .arr (ss.map .str)

/-- An enumeration is written as an object with the name of the variant for its only key. -/
def WalOp.encode : WalOp Bytes → Value
  | .createQueue name => .obj [("CreateQueue", .str name)]
  | .enqueue queue data =>
    .obj [("Enqueue", .obj [("queue", .str queue), ("data", encodeBytes data)])]
  | .enqueueBatch queue data =>
    .obj [("EnqueueBatch", .obj [("queue", .str queue), ("data", .arr (data.map encodeBytes))])]
  | .dequeued queue taskId =>
    .obj [("Dequeued", .obj [("queue", .str queue), ("task_id", .str taskId)])]
  | .dequeuedBatch queue taskIds =>
    .obj [("DequeuedBatch", .obj [("queue", .str queue), ("task_ids", encodeStrings taskIds)])]
  | .ack taskId => .obj [("Ack", .str taskId)]
  | .ackBatch taskIds => .obj [("AckBatch", encodeStrings taskIds)]
  | .nack taskId => .obj [("Nack", .str taskId)]
  | .extendVisibility taskId duration =>
    .obj [("ExtendVisibility",
      .obj [("task_id", .str taskId), ("duration", .int duration.toNat)])]

def WalEntry.encode (entry : WalEntry Bytes) : Value :=
  .obj [("op", entry.op.encode), ("timestamp", .int entry.timestamp.toInt)]

/-- The line `WalManager::append` writes, without its newline. -/
def WalEntry.line (entry : WalEntry Bytes) : Bytes := print entry.encode

/-! ### Reading -/

def decodeString : Value → Option String
  | .str s => some s
  | _ => none

/-- An integer in a range; numbers written with a fraction or an exponent are refused. -/
def decodeInt (lo hi : Int) : Value → Option Int
  | .int i => if lo ≤ i ∧ i ≤ hi then some i else none
  | _ => none

def decodeU8 (v : Value) : Option UInt8 := (decodeInt 0 255 v).map fun i => UInt8.ofNat i.toNat

def decodeU64 (v : Value) : Option UInt64 :=
  (decodeInt 0 (2 ^ 64 - 1) v).map fun i => UInt64.ofNat i.toNat

def decodeI64 (v : Value) : Option Int64 :=
  (decodeInt (-2 ^ 63) (2 ^ 63 - 1) v).map Int64.ofInt

def decodeSeq {β : Type} (d : Value → Option β) : Value → Option (List β)
  | .arr xs => xs.mapM d
  | _ => none

/-- A record of two fields, from an object or from an array of their values in order. Keys other
than the two are ignored; a missing or repeated one is an error. -/
def decodeRecord {β γ : Type} (k₁ : String) (d₁ : Value → Option β) (k₂ : String)
    (d₂ : Value → Option γ) : Value → Option (β × γ)
  | .obj ms =>
    match ms.filter (fun m => m.1 = k₁), ms.filter (fun m => m.1 = k₂) with
    | [m₁], [m₂] => (d₁ m₁.2).bind fun x => (d₂ m₂.2).map fun y => (x, y)
    | _, _ => none
  | .arr [v₁, v₂] => (d₁ v₁).bind fun x => (d₂ v₂).map fun y => (x, y)
  | _ => none

def WalOp.decode : Value → Option (WalOp Bytes)
  -- serde's externally tagged variants: one key, which names the variant
  | .obj [(tag, v)] =>
    if tag = "CreateQueue" then (decodeString v).map .createQueue
    else if tag = "Enqueue" then
      (decodeRecord "queue" decodeString "data" (decodeSeq decodeU8) v).map fun p =>
        .enqueue p.1 p.2
    else if tag = "EnqueueBatch" then
      (decodeRecord "queue" decodeString "data" (decodeSeq (decodeSeq decodeU8)) v).map fun p =>
        .enqueueBatch p.1 p.2
    else if tag = "Dequeued" then
      (decodeRecord "queue" decodeString "task_id" decodeString v).map fun p => .dequeued p.1 p.2
    else if tag = "DequeuedBatch" then
      (decodeRecord "queue" decodeString "task_ids" (decodeSeq decodeString) v).map fun p =>
        .dequeuedBatch p.1 p.2
    else if tag = "Ack" then (decodeString v).map .ack
    else if tag = "AckBatch" then (decodeSeq decodeString v).map .ackBatch
    else if tag = "Nack" then (decodeString v).map .nack
    else if tag = "ExtendVisibility" then
      (decodeRecord "task_id" decodeString "duration" decodeU64 v).map fun p =>
        .extendVisibility p.1 p.2
    else none
  | _ => none

def WalEntry.decode (v : Value) : Option (WalEntry Bytes) :=
  (decodeRecord "op" WalOp.decode "timestamp" decodeI64 v).map fun p => ⟨p.1, p.2⟩

/-- `serde_json::from_str` on a line. -/
def WalEntry.ofLine (l : Bytes) : Option (WalEntry Bytes) := (parse l).bind WalEntry.decode

/-- `char::is_whitespace`: the Unicode property `White_Space`. -/
def isWhitespace (c : Char) : Bool :=
  (0x09 ≤ c.toNat && c.toNat ≤ 0x0d) || c.toNat == 0x20 || c.toNat == 0x85 || c.toNat == 0xa0
    || c.toNat == 0x1680 || (0x2000 ≤ c.toNat && c.toNat ≤ 0x200a) || c.toNat == 0x2028
    || c.toNat == 0x2029 || c.toNat == 0x202f || c.toNat == 0x205f || c.toNat == 0x3000

/-- `line.trim().is_empty()`. -/
def isBlank (line : String) : Bool := line.toList.all isWhitespace

namespace WalManager

/-- The loop of `replay`, over the lines of the file; `none` is its error. -/
def replayLines : List Bytes → Option (List (WalEntry Bytes))
  | [] => some []
  | l :: ls =>
    match ofUtf8 l with
    -- `next_line` fails on bytes that are not UTF-8, and the loop stops at its error
    | none => some []
    | some line =>
      if isBlank line then replayLines ls
      else
        match WalEntry.ofLine l with
        -- the `?` on `from_str` leaves `replay`, and the entries read so far are lost
        | none => none
        | some entry => (replayLines ls).map (entry :: ·)

/-- `WalManager::replay` on the bytes of the file; a missing file is an empty one. -/
def replay (file : Bytes) : Option (List (WalEntry Bytes)) := replayLines (lines file)

/-- What the appends through a handle added to the file. -/
def bytes (m : WalManager Bytes) : Bytes := unlines (m.written.map WalEntry.line)

end WalManager

/-- `InMemoryStorage::new_persistent` on the bytes of the file. -/
def InMemoryStorage.newPersistent (envs : ℕ → Env) (file : Bytes) : InMemoryStorage Bytes :=
  -- `unwrap_or_default`: a log that cannot be read is an empty one
  recover envs ((WalManager.replay file).getD [])

/-! ### Round trip -/

theorem decodeInt_int {lo hi i : Int} (h : lo ≤ i ∧ i ≤ hi) :
    decodeInt lo hi (.int i) = some i := if_pos h

theorem decodeU8_encode (b : UInt8) : decodeU8 (.int b.toNat) = some b := by
  have hb := b.toNat_lt
  unfold decodeU8
  rw [decodeInt_int (by omega), Option.map_some, Int.toNat_natCast, UInt8.ofNat_toNat]

theorem decodeU64_encode (n : UInt64) : decodeU64 (.int n.toNat) = some n := by
  have hn := n.toNat_lt
  unfold decodeU64
  rw [decodeInt_int (by omega), Option.map_some, Int.toNat_natCast, UInt64.ofNat_toNat]

theorem decodeI64_encode (n : Int64) : decodeI64 (.int n.toInt) = some n := by
  have hlo := n.minValue_le_toInt
  have hhi := n.toInt_le
  have hmin : Int64.minValue.toInt = -2 ^ 63 := rfl
  have hmax : Int64.maxValue.toInt = 2 ^ 63 - 1 := rfl
  unfold decodeI64
  rw [decodeInt_int (by omega), Option.map_some, Int64.ofInt_toInt]

theorem decodeSeq_arr {β : Type} {d : Value → Option β} {e : β → Value}
    (h : ∀ x, d (e x) = some x) (xs : List β) : decodeSeq d (.arr (xs.map e)) = some xs := by
  unfold decodeSeq
  induction xs with
  | nil => rfl
  | cons x xs ih => simp [List.mapM_cons, h, ih]

theorem decodeSeq_bytes (d : Bytes) : decodeSeq decodeU8 (encodeBytes d) = some d :=
  decodeSeq_arr decodeU8_encode d

@[simp] theorem decodeString_str (s : String) : decodeString (.str s) = some s := rfl

theorem decodeSeq_strings (ss : List String) :
    decodeSeq decodeString (encodeStrings ss) = some ss := decodeSeq_arr decodeString_str ss

theorem decodeRecord_obj {β γ : Type} {k₁ k₂ : String} (hk : k₁ ≠ k₂)
    (d₁ : Value → Option β) (d₂ : Value → Option γ) (v₁ v₂ : Value) :
    decodeRecord k₁ d₁ k₂ d₂ (.obj [(k₁, v₁), (k₂, v₂)])
      = (d₁ v₁).bind fun x => (d₂ v₂).map fun y => (x, y) := by
  simp [decodeRecord, hk, hk.symm]

/-- What is written for an operation stands for it. -/
theorem WalOp.decode_encode (op : WalOp Bytes) : WalOp.decode op.encode = some op := by
  cases op with
  | createQueue name => simp [encode, decode]
  | enqueue queue data => simp [encode, decode, decodeRecord_obj, decodeSeq_bytes]
  | enqueueBatch queue data =>
    simp [encode, decode, decodeRecord_obj, decodeSeq_arr decodeSeq_bytes]
  | dequeued queue taskId => simp [encode, decode, decodeRecord_obj]
  | dequeuedBatch queue taskIds => simp [encode, decode, decodeRecord_obj, decodeSeq_strings]
  | ack taskId => simp [encode, decode]
  | ackBatch taskIds => simp [encode, decode, decodeSeq_strings]
  | nack taskId => simp [encode, decode]
  | extendVisibility taskId duration =>
    simp [encode, decode, decodeRecord_obj, decodeU64_encode]

theorem WalEntry.decode_encode (entry : WalEntry Bytes) :
    WalEntry.decode entry.encode = some entry := by
  unfold decode encode
  rw [decodeRecord_obj (by decide), WalOp.decode_encode, decodeI64_encode]
  rfl

theorem noFloats_map {β : Type} {e : β → Value} (h : ∀ x, noFloat (e x) = true) (xs : List β) :
    noFloats (xs.map e) = true := by
  induction xs with
  | nil => rw [List.map_nil, noFloats]
  | cons x xs ih => rw [List.map_cons, noFloats, h x, ih, Bool.and_self]

theorem noFloat_encodeBytes (d : Bytes) : noFloat (encodeBytes d) = true := by
  rw [encodeBytes, noFloat]
  exact noFloats_map (fun _ => by rw [noFloat]) d

theorem noFloat_encodeStrings (ss : List String) : noFloat (encodeStrings ss) = true := by
  rw [encodeStrings, noFloat]
  exact noFloats_map (fun _ => by rw [noFloat]) ss

theorem WalOp.noFloat_encode (op : WalOp Bytes) : noFloat op.encode = true := by
  cases op with
  | enqueueBatch queue data =>
    have h : noFloats (data.map encodeBytes) = true := noFloats_map noFloat_encodeBytes data
    simp [encode, noFloat, noFloatMembers, h]
  | _ =>
    simp [encode, noFloat, noFloatMembers, noFloat_encodeBytes, noFloat_encodeStrings]

theorem WalEntry.noFloat_encode (entry : WalEntry Bytes) : noFloat entry.encode = true := by
  simp [encode, noFloat, noFloatMembers, WalOp.noFloat_encode]

/-- A written line is read back. -/
theorem WalEntry.ofLine_line (entry : WalEntry Bytes) :
    WalEntry.ofLine entry.line = some entry := by
  unfold ofLine line
  rw [parse_print entry.noFloat_encode, Option.bind_some, decode_encode]

theorem WalEntry.printable_line (entry : WalEntry Bytes) : Printable entry.line :=
  printable_print _ entry.noFloat_encode

/-- Every line starts with the brace of its object. -/
theorem WalEntry.line_head (entry : WalEntry Bytes) : ∃ l, entry.line = 0x7b :: l := by
  rw [line, encode, print]
  exact ⟨_, rfl⟩

/-- A string whose text starts with a brace is not blank. -/
theorem not_isBlank_of_brace {l : Bytes} {s : String} (h : utf8 s = 0x7b :: l) :
    isBlank s = false := by
  unfold utf8 at h
  cases hs : s.toList with
  | nil => rw [hs] at h; cases h
  | cons c cs =>
    rw [hs, List.flatMap_cons] at h
    -- the first byte of the text is in the encoding of its first character
    have hbrace : 0x7b ∈ String.utf8EncodeChar c := by
      cases hc : String.utf8EncodeChar c with
      | nil => exact absurd hc String.utf8EncodeChar_ne_nil
      | cons b bs =>
        rw [hc, List.cons_append] at h
        rw [(List.cons.inj h).1]
        exact List.mem_cons_self
    -- and a character with a byte below 0x80 in it is that byte
    have hlt : c.val.toNat < 0x80 := by
      by_contra hc
      exact absurd (le_of_mem_utf8EncodeChar (by omega) hbrace) (by decide)
    rw [utf8EncodeChar_ascii hlt, List.mem_singleton] at hbrace
    have hn : c.toNat = 0x7b := by
      have := congrArg UInt8.toNat hbrace
      rw [UInt8.toNat_ofNat', Nat.mod_eq_of_lt (by omega)] at this
      exact this.symm
    unfold isBlank
    rw [hs, List.all_cons]
    simp [isWhitespace, hn]

namespace WalManager

/-- A line that starts with a brace is decoded, or ends the replay when it is not UTF-8. -/
theorem replayLines_brace (l : Bytes) (ls : List Bytes) :
    replayLines ((0x7b :: l) :: ls) =
      if ValidUtf8 (0x7b :: l) then
        (WalEntry.ofLine (0x7b :: l)).bind fun entry => (replayLines ls).map (entry :: ·)
      else some [] := by
  rw [replayLines]
  cases hu : ofUtf8 (0x7b :: l) with
  | none =>
    -- not UTF-8, so the condition fails as well
    rw [if_neg fun hv => ?_]
    obtain ⟨s, hs⟩ := ofUtf8_of_valid hv
    rw [hu] at hs
    cases hs
  | some s =>
    have hs := utf8_of_ofUtf8 hu
    rw [if_pos (hs ▸ validUtf8_utf8 s)]
    simp only [not_isBlank_of_brace hs]
    cases WalEntry.ofLine (0x7b :: l) <;> rfl

/-- A written line is replayed as its entry. -/
theorem replayLines_line (entry : WalEntry Bytes) (ls : List Bytes) :
    replayLines (entry.line :: ls) = (replayLines ls).map (entry :: ·) := by
  obtain ⟨l, hl⟩ := entry.line_head
  rw [hl, replayLines_brace, ← hl, if_pos entry.printable_line.utf8, entry.ofLine_line]
  rfl

/-- **Replay reads what was appended**, whatever follows it in the file. -/
theorem replay_unlines (es : List (WalEntry Bytes)) (rest : Bytes) :
    replay (unlines (es.map WalEntry.line) ++ rest) = (replay rest).map (es ++ ·) := by
  have hp : ∀ l ∈ es.map WalEntry.line, Printable l := by
    intro l hl
    obtain ⟨entry, -, rfl⟩ := List.mem_map.mp hl
    exact entry.printable_line
  unfold replay
  rw [lines_unlines_append hp]
  induction es with
  | nil => simp
  | cons entry es ih =>
    rw [List.map_cons, List.cons_append, replayLines_line, ih fun l hl => hp l ?_]
    · rw [Option.map_map]
      rfl
    · rw [List.map_cons]
      exact List.mem_cons_of_mem _ hl

theorem replay_nil : replay [] = some [] := rfl

theorem replay_written (es : List (WalEntry Bytes)) :
    replay (unlines (es.map WalEntry.line)) = some es := by
  have h := replay_unlines es []
  rwa [List.append_nil, replay_nil, Option.map_some, List.append_nil] at h

end WalManager

end Oxideq
