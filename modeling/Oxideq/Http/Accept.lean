import Oxideq.Http.BatchFormats
import Oxideq.Lib.JsonNumber

/-!
# The message and the `Accept` header

`dequeue_batch` decodes a payload before it encodes it again for the response, and it does so in
two ways (`decodeMessage`). A MessagePack response looks at the first byte: `{` and `[` mean JSON,
any other byte MessagePack. A JSON response tries JSON and then MessagePack. So a consumer that
changes its `Accept` header may see another message.

When both ways come to the same value is decided by the first byte and by whether the payload is a
JSON text (`OneReading`):

* behind a bracket both read JSON, but where that fails only the JSON response goes on to
  MessagePack, which takes the bracket for the number 91 or 123;
* behind any other byte a JSON text is read as JSON and as MessagePack. MessagePack takes the first
  byte of a text for a number and leaves the rest, so the text has to be that number itself. There
  are few such texts, `53` and white space followed by its own code;
* what is not a text is left to MessagePack by both.

This is the exact condition (`sameMessage_iff`). For payloads of a batch it says that the value has
to survive either response (`sameMessage_toVec`). Of the two formats only what is documented of
their first bytes and of the texts of small numbers is used, `Formats.Grammar`.
-/

namespace Oxideq

open Json (Value fits)

/-- What is documented of the two formats: no JSON text is empty or starts outside ASCII, a number
has one text up to white space, and MessagePack reads a byte below `0x80` as a number and ignores
what follows. -/
structure Formats.Grammar (formats : Formats) : Prop where
  json_nil : ∃ e, formats.json.fromSlice [] = .error e
  json_high : ∀ (b : UInt8) (r : Bytes), 0x80 ≤ b → ∃ e, formats.json.fromSlice (b :: r) = .error e
  json_int : ∀ (n : ℕ) (data : Bytes), n < 0x80 →
    (formats.json.fromSlice data = .ok (.int n) ↔ Json.Spells n data)
  msgpack_low : ∀ (b : UInt8) (r : Bytes), b < 0x80 →
    formats.msgpack.fromSlice (b :: r) = .ok (.int b.toNat)

/-- The payload is a JSON text. -/
def Formats.IsText (formats : Formats) (data : Bytes) : Prop :=
  ∃ v, formats.json.fromSlice data = .ok v

/-- The message a consumer sees does not depend on its `Accept` header. -/
def SameMessage (formats : Formats) (data : Bytes) : Prop :=
  ∀ accept accept' : Option String,
    decodeMessage formats accept data = decodeMessage formats accept' data

/-- Behind a bracket there is a JSON text; any other JSON text is the number that its first byte
is. -/
def OneReading (formats : Formats) : Bytes → Prop
  | [] => True
  | b :: r =>
    if b = 0x5b ∨ b = 0x7b then formats.IsText (b :: r)
    else formats.IsText (b :: r) → Json.Spells b.toNat (b :: r)

section Readings

variable {formats : Formats}

/-- There are two ways to decode. -/
theorem decodeMessage_cases (formats : Formats) (accept : Option String) (data : Bytes) :
    ∃ a : Encoding, decodeMessage formats accept data
      = decodeMessage formats (some a.header) data := by
  by_cases h : formatName accept = "application/msgpack"
  · refine ⟨.msgpack, ?_⟩
    have hheader : formatName (some Encoding.msgpack.header) = "application/msgpack" := rfl
    rw [decodeMessage, decodeMessage, if_pos h, if_pos hheader]
  · refine ⟨.json, ?_⟩
    have hheader : formatName (some Encoding.json.header) ≠ "application/msgpack" := by decide
    rw [decodeMessage, decodeMessage, if_neg h, if_neg hheader]

theorem sameMessage_iff_pair {data : Bytes} :
    SameMessage formats data ↔ decodeMessage formats (some Encoding.json.header) data
      = decodeMessage formats (some Encoding.msgpack.header) data := by
  constructor
  · intro h
    exact h _ _
  · intro h
    have hjson : ∀ a : Encoding, decodeMessage formats (some a.header) data
        = decodeMessage formats (some Encoding.json.header) data := by
      intro a
      cases a with
      | json => rfl
      | msgpack => exact h.symm
    intro accept accept'
    obtain ⟨a, ha⟩ := decodeMessage_cases formats accept data
    obtain ⟨a', ha'⟩ := decodeMessage_cases formats accept' data
    rw [ha, ha', hjson a, hjson a']

/-- Behind a bracket. -/
theorem sameMessage_bracket (hf : formats.Grammar) {b : UInt8} (hb : b = 0x5b ∨ b = 0x7b)
    (r : Bytes) : SameMessage formats (b :: r) ↔ formats.IsText (b :: r) := by
  rw [sameMessage_iff_pair, decode_json, decode_msgpack_bracket formats hb]
  cases hread : formats.json.fromSlice (b :: r) with
  | ok v => exact iff_of_true rfl ⟨v, hread⟩
  | error e =>
    -- the bracket itself is a number
    have hlow : b < 0x80 := by rcases hb with rfl | rfl <;> decide
    refine iff_of_false ?_ ?_
    · rw [hf.msgpack_low b r hlow]
      intro h
      cases h
    · rintro ⟨v, hv⟩
      rw [hread] at hv
      cases hv

/-- Behind any other byte. -/
theorem sameMessage_other (hf : formats.Grammar) {b : UInt8} (hb : ¬ (b = 0x5b ∨ b = 0x7b))
    (r : Bytes) : SameMessage formats (b :: r) ↔
      (formats.IsText (b :: r) → Json.Spells b.toNat (b :: r)) := by
  rw [not_or] at hb
  rw [sameMessage_iff_pair, decode_json, decode_msgpack_other formats hb.1 hb.2]
  cases hread : formats.json.fromSlice (b :: r) with
  | error e =>
    refine iff_of_true rfl ?_
    rintro ⟨v, hv⟩
    rw [hread] at hv
    cases hv
  | ok v =>
    -- no JSON text starts above ASCII, so MessagePack reads a number here
    have hlow : b < 0x80 := by
      by_contra hhigh
      obtain ⟨e, he⟩ := hf.json_high b r (UInt8.not_lt.mp hhigh)
      rw [hread] at he
      cases he
    rw [hf.msgpack_low b r hlow]
    change v = .int b.toNat ↔ _
    have hspells := hf.json_int b.toNat (b :: r) (UInt8.lt_iff_toNat_lt.mp hlow)
    rw [hread, Except.ok.injEq] at hspells
    rw [hspells]
    -- equal values mean that the text spells the first byte
    exact ⟨fun h _ => h, fun h => h ⟨v, hread⟩⟩

/-- **When the header makes no difference.** -/
theorem sameMessage_iff (hf : formats.Grammar) (data : Bytes) :
    SameMessage formats data ↔ OneReading formats data := by
  cases data with
  | nil =>
    refine iff_of_true (sameMessage_iff_pair.mpr ?_) trivial
    -- nothing to sniff, and nothing for JSON: both leave it to MessagePack
    obtain ⟨e, he⟩ := hf.json_nil
    rw [decode_json, he]
    rfl
  | cons b r =>
    rw [OneReading]
    split
    · next hb => exact sameMessage_bracket hf hb r
    · next hb => exact sameMessage_other hf hb r

/-- **Payloads of a batch.** The header makes no difference for the values that come back as they
were in either format. -/
theorem sameMessage_toVec {read : Encoding → Bytes → Option (List BatchItem)}
    (hf : formats.Documented read) (c : Encoding) {v : Value} (hv : fits v = true) :
    SameMessage formats ((formats.of c).toVec v) ↔ ∀ a, Survives c a v := by
  have hguess := fun a => (guessed hf c a hv).2
  rw [sameMessage_iff_pair]
  constructor
  · intro h
    have hboth : Survives c .json v ↔ Survives c .msgpack v := by
      rw [← hguess, ← hguess, h]
    -- no value is lost in both responses
    have hone : Survives c .json v ∨ Survives c .msgpack v := by
      cases c with
      | json => exact Or.inl trivial
      | msgpack =>
        by_cases hdigit : ∀ n : ℕ, 48 ≤ n → n ≤ 57 → v ≠ .int n
        · exact Or.inl hdigit
        · push Not at hdigit
          obtain ⟨n, hn, hn', rfl⟩ := hdigit
          refine Or.inr ⟨fun heq => ?_, fun heq => ?_⟩
          · have h91 : (n : Int) = 91 := Value.int.inj heq
            omega
          · have h123 : (n : Int) = 123 := Value.int.inj heq
            omega
    intro a
    cases a with
    | json => exact hone.elim id hboth.mpr
    | msgpack => exact hone.elim hboth.mp id
  · intro h
    rw [(hguess .json).mpr (h .json), (hguess .msgpack).mpr (h .msgpack)]

end Readings

/-! ### The codecs of the library -/

theorem libraryFormats_grammar : libraryFormats.Grammar where
  json_nil := ⟨_, rfl⟩
  json_high := libraryFormats_documented.json_high
  json_int n data _ := by
    rw [← Json.parse_eq_int_iff]
    change orError (Json.parse data) = _ ↔ _
    cases Json.parse data with
    | none => exact iff_of_false nofun nofun
    | some v =>
      constructor
      · intro h
        exact congrArg some (Except.ok.inj h)
      · intro h
        rw [Option.some_inj.mp h]
        rfl
  msgpack_low := libraryFormats_documented.msgpack_low

/-- An object is the same message for every consumer. -/
theorem sameMessage_iff_object : SameMessage libraryFormats [0x7b, 0x7d] :=
  (sameMessage_iff libraryFormats_grammar [0x7b, 0x7d]).mpr ⟨.obj [], rfl⟩

/-- The text `1` is the number one for a JSON response, and 49 for a MessagePack response. -/
theorem not_sameMessage_digit :
    (ApiRequest.handle libraryFormats 60 emptyQueue twoIds
          (.enqueue "q" [0x31])).2.queues.lookup "q"
        = some [⟨[0x31], 0⟩] ∧
      ¬ SameMessage libraryFormats [0x31] := by
  refine ⟨by decide +kernel, fun h => ?_⟩
  have hpair := h (some Encoding.json.header) (some Encoding.msgpack.header)
  rw [decode_json, decode_msgpack_other _ (by decide) (by decide)] at hpair
  have hjson : libraryFormats.json.fromSlice [0x31] = .ok (.int 1) :=
    libraryFormats_documented.json_digit 0x31 rfl
  have hmsgpack : libraryFormats.msgpack.fromSlice [0x31] = .ok (.int 49) :=
    libraryFormats_documented.msgpack_low 0x31 [] (by decide)
  rw [hjson, hmsgpack] at hpair
  cases hpair

end Oxideq
