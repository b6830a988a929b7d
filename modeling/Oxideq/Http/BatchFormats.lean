import Oxideq.Http.Handlers
import Oxideq.Lib.JsonRoundTrip
import Oxideq.Lib.MessagePack
import Oxideq.Sequential.Changes

/-!
# Batches in two formats

A batch is enqueued in one format and dequeued in one, each JSON or MessagePack. Every value is
stored encoded in the producer's format, and nothing stored says in which; the consumer's handler
guesses (`decodeMessage`). This module says exactly which values come back as they were, for each
of the four pairs of formats (`Survives`), and that a whole batch does if and only if all its
values do (`batchRoundTrip_iff`).

The two formats are parameters: what is assumed of them is `Formats.Documented`, the round trips
together with the first bytes the formats use. Those decide the guesses:

* JSON text starts below `0x80`, and a MessagePack reader takes such a byte for a small integer
  and leaves the rest unread. Objects and arrays are recognised by their bracket.
* MessagePack starts at `0x80` or above, which no JSON text does, except for the small integers,
  whose one byte may be a bracket or a digit.

The codecs of `Json` and `MessagePack` are formats of this kind (`libraryFormats_documented`).
-/

namespace Json

mutual

/-- A value that fits has no floating-point literal. -/
theorem noFloat_of_fits : ∀ v : Value, fits v = true → noFloat v = true
  | .null, _ => rfl
  | .bool _, _ => rfl
  | .int _, _ => rfl
  | .float _, h => by rw [fits] at h; cases h
  | .str _, _ => rfl
  | .arr xs, h => by
    rw [fits, Bool.and_eq_true] at h
    exact noFloats_of_fits xs h.2
  | .obj ms, h => by
    rw [fits, Bool.and_eq_true] at h
    exact noFloatMembers_of_fits ms h.2

theorem noFloats_of_fits : ∀ xs : List Value, fitsElems xs = true → noFloats xs = true
  | [], _ => rfl
  | x :: xs, h => by
    rw [fitsElems, Bool.and_eq_true] at h
    rw [noFloats, noFloat_of_fits x h.1, noFloats_of_fits xs h.2]
    rfl

theorem noFloatMembers_of_fits : ∀ ms : List (String × Value), fitsMembers ms = true →
    noFloatMembers ms = true
  | [], _ => rfl
  | (k, v) :: ms, h => by
    rw [fitsMembers, Bool.and_eq_true, Bool.and_eq_true] at h
    rw [noFloatMembers, noFloat_of_fits v h.1.2, noFloatMembers_of_fits ms h.2]
    rfl

end

theorem fits_of_mem {xs : List Value} (h : fitsElems xs = true) {x : Value} (hx : x ∈ xs) :
    fits x = true := by
  induction xs with
  | nil => cases hx
  | cons y ys ih =>
    rw [fitsElems, Bool.and_eq_true] at h
    rcases List.mem_cons.mp hx with rfl | hx
    · exact h.1
    · exact ih h.2 hx

end Json

namespace Oxideq

open Json (Value fits fitsElems)

/-! ### The formats -/

/-- The content types of the batch routes. -/
inductive Encoding where
  | json
  | msgpack
  deriving DecidableEq, Repr

def Encoding.header : Encoding → String
  | .json => "application/json"
  | .msgpack => "application/msgpack"

def Formats.of (formats : Formats) : Encoding → Format
  | .json => formats.json
  | .msgpack => formats.msgpack

/-- What is documented of the two formats: both are pairs of an encoder and a decoder, JSON is
text, and in MessagePack the numbers below `0x80` are bytes of their own. `read` is how a consumer
decodes the response. -/
structure Formats.Documented (formats : Formats)
    (read : Encoding → Bytes → Option (List BatchItem)) : Prop where
  fromSlice_toVec : ∀ (e : Encoding) (v : Value), fits v = true →
    (formats.of e).fromSlice ((formats.of e).toVec v) = .ok v
  read_itemsToVec : ∀ (e : Encoding) (items : List BatchItem), items.length < 2 ^ 32 →
    (∀ i ∈ items, (Json.utf8 i.id).length < 2 ^ 32 ∧ fits i.message = true) →
    read e ((formats.of e).itemsToVec items) = some items
  json_toVec : ∀ v : Value, fits v = true → formats.json.toVec v = Json.print v
  json_high : ∀ (b : UInt8) (r : Bytes), 0x80 ≤ b → ∃ e, formats.json.fromSlice (b :: r) = .error e
  json_digit : ∀ b : UInt8, Json.isDigit b = true →
    formats.json.fromSlice [b] = .ok (.int (Json.digitVal b))
  json_byte : ∀ b : UInt8, Json.isDigit b = false → ∃ e, formats.json.fromSlice [b] = .error e
  msgpack_fixint : ∀ n : ℕ, n < 0x80 → formats.msgpack.toVec (.int n) = [UInt8.ofNat n]
  msgpack_high : ∀ v : Value, fits v = true → (∀ n : ℕ, n < 0x80 → v ≠ .int n) →
    ∃ b r, formats.msgpack.toVec v = b :: r ∧ 0x80 ≤ b
  msgpack_low : ∀ (b : UInt8) (r : Bytes), b < 0x80 →
    formats.msgpack.fromSlice (b :: r) = .ok (.int b.toNat)

/-! ### What a consumer makes of one value -/

/-- The values that come back as they were, by the formats of producer and consumer. -/
def Survives : Encoding → Encoding → Value → Prop
  | .json, .json, _ => True
  | .json, .msgpack, v => (∃ xs, v = .arr xs) ∨ (∃ ms, v = .obj ms) ∨ v = .int 53
  | .msgpack, .msgpack, v => v ≠ .int 91 ∧ v ≠ .int 123
  | .msgpack, .json, v => ∀ n : ℕ, 48 ≤ n → n ≤ 57 → v ≠ .int n

section Decode

variable {formats : Formats} {read : Encoding → Bytes → Option (List BatchItem)}

theorem decode_json (formats : Formats) (data : Bytes) :
    decodeMessage formats (some Encoding.json.header) data
      = match formats.json.fromSlice data with
        | .ok v => v
        | .error _ => orNull (formats.msgpack.fromSlice data) :=
  rfl

/-- A MessagePack response reads a bracket as JSON, -/
theorem decode_msgpack_bracket (formats : Formats) {b : UInt8} (h : b = 0x5b ∨ b = 0x7b)
    (r : Bytes) :
    decodeMessage formats (some Encoding.msgpack.header) (b :: r)
      = orNull (formats.json.fromSlice (b :: r)) := by
  rcases h with rfl | rfl <;> rfl

/-- and any other byte as MessagePack. -/
theorem decode_msgpack_other (formats : Formats) {b : UInt8} (h : b ≠ 0x5b) (h' : b ≠ 0x7b)
    (r : Bytes) :
    decodeMessage formats (some Encoding.msgpack.header) (b :: r)
      = orNull (formats.msgpack.fromSlice (b :: r)) := by
  have hhead : ((b :: r).head?.any fun b => b = 123 ∨ b = 91) = false := by
    rw [List.head?_cons, Option.any_some, decide_eq_false_iff_not, not_or]
    exact ⟨h', h⟩
  have hname : formatName (some Encoding.msgpack.header) = "application/msgpack" := rfl
  unfold decodeMessage
  rw [if_pos hname, hhead]
  rfl

/-- The value a consumer gets, and when it is the one that was sent. -/
def Guessed (formats : Formats) (c a : Encoding) (v : Value) : Prop :=
  fits (decodeMessage formats (some a.header) ((formats.of c).toVec v)) = true ∧
    (decodeMessage formats (some a.header) ((formats.of c).toVec v) = v ↔ Survives c a v)

theorem guessed_of_eq {c a : Encoding} {v w : Value} (hw : fits w = true)
    (h : decodeMessage formats (some a.header) ((formats.of c).toVec v) = w)
    (hiff : w = v ↔ Survives c a v) : Guessed formats c a v := by
  unfold Guessed
  rw [h]
  exact ⟨hw, hiff⟩

theorem guessed_json_json (hf : formats.Documented read) {v : Value} (hv : fits v = true) :
    Guessed formats .json .json v := by
  have hback : formats.json.fromSlice (formats.json.toVec v) = .ok v :=
    hf.fromSlice_toVec .json v hv
  refine guessed_of_eq hv ?_ (iff_of_true rfl trivial)
  change decodeMessage formats _ (formats.json.toVec v) = v
  rw [decode_json, hback]

theorem guessed_json_msgpack (hf : formats.Documented read) {v : Value} (hv : fits v = true) :
    Guessed formats .json .msgpack v := by
  have hback : formats.json.fromSlice (formats.json.toVec v) = .ok v :=
    hf.fromSlice_toVec .json v hv
  rw [hf.json_toVec v hv] at hback
  by_cases harr : ∃ xs, v = .arr xs
  · -- a bracket sends the bytes to the JSON reader
    obtain ⟨xs, rfl⟩ := harr
    obtain ⟨r, hr⟩ : ∃ r, Json.print (.arr xs) = 0x5b :: r := by
      cases xs <;> exact ⟨_, by rw [Json.print]⟩
    refine guessed_of_eq hv ?_ (iff_of_true rfl (Or.inl ⟨xs, rfl⟩))
    change decodeMessage formats _ (formats.json.toVec _) = _
    rw [hf.json_toVec _ hv]
    rw [hr] at hback ⊢
    rw [decode_msgpack_bracket formats (Or.inl rfl), hback]
    rfl
  by_cases hobj : ∃ ms, v = .obj ms
  · obtain ⟨ms, rfl⟩ := hobj
    obtain ⟨r, hr⟩ : ∃ r, Json.print (.obj ms) = 0x7b :: r := by
      rcases ms with _ | ⟨⟨k, v⟩, ms⟩ <;> exact ⟨_, by rw [Json.print]⟩
    refine guessed_of_eq hv ?_ (iff_of_true rfl (Or.inr (Or.inl ⟨ms, rfl⟩)))
    change decodeMessage formats _ (formats.json.toVec _) = _
    rw [hf.json_toVec _ hv]
    rw [hr] at hback ⊢
    rw [decode_msgpack_bracket formats (Or.inr rfl), hback]
    rfl
  · -- any other first byte is taken for a number
    push Not at harr hobj
    obtain ⟨b, r, hr, hlow, hb, hb', hself⟩ := Json.first_byte (Json.noFloat_of_fits v hv) harr hobj
    have hfits : fits (.int b.toNat) = true := by
      have hb80 := UInt8.lt_iff_toNat_lt.mp hlow
      have h80 : (0x80 : UInt8).toNat = 128 := rfl
      rw [fits, Bool.and_eq_true, decide_eq_true_eq, decide_eq_true_eq]
      omega
    refine guessed_of_eq hfits ?_ ?_
    · change decodeMessage formats _ (formats.json.toVec _) = _
      rw [hf.json_toVec _ hv, hr, decode_msgpack_other formats hb hb', hf.msgpack_low b r hlow]
      rfl
    · rw [eq_comm, hself]
      constructor
      · exact fun h => Or.inr (Or.inr h)
      · rintro (⟨xs, h⟩ | ⟨ms, h⟩ | h)
        · exact absurd h (harr xs)
        · exact absurd h (hobj ms)
        · exact h

/-- What MessagePack stores: one byte for a small number, or a high byte and more. -/
theorem msgpack_cases (hf : formats.Documented read) {v : Value} (hv : fits v = true) :
    (∃ n : ℕ, n < 0x80 ∧ v = .int n ∧ formats.msgpack.toVec v = [UInt8.ofNat n]) ∨
      (∀ n : ℕ, n < 0x80 → v ≠ .int n) ∧
        ∃ b r, formats.msgpack.toVec v = b :: r ∧ 0x80 ≤ b := by
  by_cases h : ∃ n : ℕ, n < 0x80 ∧ v = .int n
  · obtain ⟨n, hn, rfl⟩ := h
    exact Or.inl ⟨n, hn, rfl, hf.msgpack_fixint n hn⟩
  · push Not at h
    exact Or.inr ⟨h, hf.msgpack_high v hv h⟩

theorem guessed_msgpack_msgpack (hf : formats.Documented read) {v : Value} (hv : fits v = true) :
    Guessed formats .msgpack .msgpack v := by
  have hback : formats.msgpack.fromSlice (formats.msgpack.toVec v) = .ok v :=
    hf.fromSlice_toVec .msgpack v hv
  rcases msgpack_cases hf hv with ⟨n, hn, rfl, hvec⟩ | ⟨hne, b, r, hvec, hb⟩
  · by_cases hbracket : n = 91 ∨ n = 123
    · -- the number of a bracket is read as JSON, which a bracket alone is not
      obtain ⟨e, he⟩ := hf.json_byte (UInt8.ofNat n) (by rcases hbracket with rfl | rfl <;> rfl)
      refine guessed_of_eq (w := .null) rfl ?_ (iff_of_false (fun h => nomatch h) ?_)
      · change decodeMessage formats _ (formats.msgpack.toVec _) = _
        rw [hvec, decode_msgpack_bracket formats (by rcases hbracket with rfl | rfl <;> simp), he]
        rfl
      · rintro ⟨h91, h123⟩
        rcases hbracket with rfl | rfl
        · exact h91 rfl
        · exact h123 rfl
    · rw [not_or] at hbracket
      refine guessed_of_eq hv ?_ (iff_of_true rfl ⟨?_, ?_⟩)
      · change decodeMessage formats _ (formats.msgpack.toVec _) = _
        have hne : ∀ m < 0x80, n ≠ m → UInt8.ofNat n ≠ UInt8.ofNat m := by
          intro m hm hnm heq
          have htoNat := congrArg UInt8.toNat heq
          rw [MessagePack.toNat_ofNat (by omega), MessagePack.toNat_ofNat (by omega)] at htoNat
          exact hnm htoNat
        rw [hvec] at hback ⊢
        rw [decode_msgpack_other formats (hne 91 (by decide) hbracket.1)
          (hne 123 (by decide) hbracket.2), hback]
        rfl
      · intro h
        exact hbracket.1 (Int.ofNat.inj (Value.int.inj h))
      · intro h
        exact hbracket.2 (Int.ofNat.inj (Value.int.inj h))
  · have hhigh : ∀ c : UInt8, c < 0x80 → b ≠ c := by
      rintro c hc rfl
      rw [UInt8.le_iff_toNat_le] at hb
      rw [UInt8.lt_iff_toNat_lt] at hc
      omega
    refine guessed_of_eq hv ?_ (iff_of_true rfl ⟨hne 91 (by decide), hne 123 (by decide)⟩)
    change decodeMessage formats _ (formats.msgpack.toVec _) = _
    rw [hvec] at hback ⊢
    rw [decode_msgpack_other formats (hhigh _ (by decide)) (hhigh _ (by decide)), hback]
    rfl

theorem guessed_msgpack_json (hf : formats.Documented read) {v : Value} (hv : fits v = true) :
    Guessed formats .msgpack .json v := by
  have hback : formats.msgpack.fromSlice (formats.msgpack.toVec v) = .ok v :=
    hf.fromSlice_toVec .msgpack v hv
  -- where JSON refuses, MessagePack reads back what it wrote
  have hrefused : ∀ e, formats.json.fromSlice (formats.msgpack.toVec v) = .error e →
      decodeMessage formats (some Encoding.json.header) ((formats.of .msgpack).toVec v) = v := by
    intro e he
    change decodeMessage formats _ (formats.msgpack.toVec _) = _
    rw [decode_json, he, hback]
    rfl
  rcases msgpack_cases hf hv with ⟨n, hn, rfl, hvec⟩ | ⟨hne, b, r, hvec, hb⟩
  · cases hdigit : Json.isDigit (UInt8.ofNat n) with
    | true =>
      have hrange := (Json.isDigit_iff _).mp hdigit
      rw [MessagePack.toNat_ofNat (by omega)] at hrange
      have hval : Json.digitVal (UInt8.ofNat n) = n - 48 := by
        rw [Json.digitVal, MessagePack.toNat_ofNat (by omega)]
      refine guessed_of_eq (w := .int (n - 48 : ℕ)) ?_ ?_ (iff_of_false ?_ ?_)
      · rw [fits, Bool.and_eq_true, decide_eq_true_eq, decide_eq_true_eq]
        omega
      · change decodeMessage formats _ (formats.msgpack.toVec _) = _
        rw [hvec, decode_json, hf.json_digit _ hdigit, hval]
      · intro h
        have hsame : ((n - 48 : ℕ) : Int) = n := Value.int.inj h
        omega
      · intro h
        exact h n hrange.1 hrange.2 rfl
    | false =>
      obtain ⟨e, he⟩ := hf.json_byte _ hdigit
      refine guessed_of_eq hv (hrefused e (by rw [hvec, he])) (iff_of_true rfl ?_)
      intro m hm hm' h
      have hsame : (n : Int) = m := Value.int.inj h
      have htrue : Json.isDigit (UInt8.ofNat n) = true := by
        rw [Json.isDigit_iff, MessagePack.toNat_ofNat (by omega)]
        omega
      rw [hdigit] at htrue
      cases htrue
  · obtain ⟨e, he⟩ := hf.json_high b r hb
    refine guessed_of_eq hv (hrefused e (by rw [hvec, he])) (iff_of_true rfl ?_)
    exact fun n _ hn' => hne n (by omega)

/-- **One value.** -/
theorem guessed (hf : formats.Documented read) (c a : Encoding) {v : Value} (hv : fits v = true) :
    Guessed formats c a v := by
  cases c with
  | json =>
    cases a with
    | json => exact guessed_json_json hf hv
    | msgpack => exact guessed_json_msgpack hf hv
  | msgpack =>
    cases a with
    | json => exact guessed_msgpack_json hf hv
    | msgpack => exact guessed_msgpack_msgpack hf hv

end Decode

/-! ### The store between the two requests -/

namespace InMemoryStorage

variable {α : Type} {s : InMemoryStorage α} {env : Env} {name : String}

/-- A batch into an empty queue. -/
theorem queueBatch_empty (hq : s.queues.lookup name = some []) (ha : env.append = .ok ())
    (items : List α) :
    s.queueBatch env name items
      = (.ok (), (s.logged env (.enqueueBatch name items)).setQueue name
          (items.map fun d => ⟨d, 0⟩)) := by
  have hmem : name ∈ s.queues := Finmap.mem_iff.mpr ⟨[], hq⟩
  have hpush : (s.logged env (.enqueueBatch name items)).pushBack name items
      = .ok ((s.logged env (.enqueueBatch name items)).setQueue name
          (items.map fun d => ⟨d, 0⟩)) := by
    rw [pushBack, logged_queues, hq]
    rfl
  simp only [queueBatch, not_not.mpr hmem, if_false, logOp_ok ha, hpush]

/-- All of a queue in one batch: nothing from an empty queue, a panic where the capacity asked for
is too large, and otherwise every payload in order. -/
theorem dequeueBatch_all {items : List (QueueItem α)} (hq : s.queues.lookup name = some items)
    (ha : env.append = .ok ()) {count : UInt64} (hcount : items.length ≤ count.toNat) :
    (items = [] ∧ (s.dequeueBatch env name count).1 = .ok []) ∨
    (items ≠ [] ∧ capacityOverflow count = true ∧ (s.dequeueBatch env name count).1 = .panic) ∨
    (items ≠ [] ∧ capacityOverflow count = false ∧ ∃ tasks,
      (s.dequeueBatch env name count).1 = .ok tasks ∧
      tasks.map InFlightTask.data = items.map QueueItem.data ∧
      ∀ task ∈ tasks, ∃ k, task.id = env.uuid k) := by
  by_cases hnil : items = []
  · subst hnil
    exact Or.inl ⟨rfl, by simp [dequeueBatch, hq]⟩
  have hisEmpty : items.isEmpty = false := List.isEmpty_eq_false_iff.mpr hnil
  refine Or.inr ?_
  cases hcap : capacityOverflow count with
  | true => exact Or.inl ⟨hnil, rfl, by simp [dequeueBatch, hq, hisEmpty, hcap]⟩
  | false =>
    refine Or.inr ⟨hnil, rfl, ?_⟩
    have htake : items.take count.toNat = items := List.take_of_length_le hcount
    refine ⟨deliverAll name (fun i => env.now (i + 1))
      ((List.range items.length).map env.uuid) items, ?_, ?_, ?_⟩
    · simp [dequeueBatch, hq, hisEmpty, hcap, htake, logOp_ok ha]
    · exact map_deliverAll (fun _ _ _ => rfl) _ (by rw [List.length_map, List.length_range])
    · intro task htask
      have hid := List.mem_map_of_mem (f := InFlightTask.id) htask
      rw [map_id_deliverAll, List.mem_map] at hid
      obtain ⟨p, hp, hfst⟩ := hid
      obtain ⟨k, -, hk⟩ := List.mem_map.mp (List.of_mem_zip hp).1
      exact ⟨k, hfst.symm.trans hk.symm⟩

end InMemoryStorage

/-! ### Batches -/

/-- The values the consumer's response stands for. -/
def messages (items : List BatchItem) : List Value := items.map BatchItem.message

/-- Batch-enqueueing a body and then batch-dequeueing returns the values `vs`: the first request
succeeds, and the response to the second one decodes to items with these messages. -/
def BatchRoundTrip (formats : Formats) (read : Encoding → Bytes → Option (List BatchItem))
    (heartbeatDuration : UInt64) (s : InMemoryStorage Bytes) (name : String) (c a : Encoding)
    (body : Bytes) (count : Option UInt64) (envs envs' : ℕ → Env) (vs : List Value) : Prop :=
  let enqueued := ApiRequest.handle formats heartbeatDuration s envs
    (.queueBatch name (some c.header) body)
  let dequeued := ApiRequest.handle formats heartbeatDuration enqueued.2 envs'
    (.dequeueBatch name count (some a.header))
  enqueued.1 = some (.ofStatus 200) ∧ ∃ response items, dequeued.1 = some response ∧
    response.status = 200 ∧ read a response.body = some items ∧ messages items = vs

section Batch

variable {formats : Formats} {read : Encoding → Bytes → Option (List BatchItem)}
  {heartbeatDuration : UInt64} {s : InMemoryStorage Bytes} {name : String} {c : Encoding}
  {body : Bytes} {envs : ℕ → Env} {vs : List Value}

theorem batchItems_of (hbody : (formats.of c).fromSliceVec body = .ok vs) :
    batchItems formats (some c.header) body = .ok (vs.map (formats.of c).toVec) := by
  cases c with
  | json =>
    change (formats.json.fromSliceVec body).map (List.map formats.json.toVec) = _
    rw [show formats.json.fromSliceVec body = .ok vs from hbody]
    rfl
  | msgpack =>
    change (formats.msgpack.fromSliceVec body).map (List.map formats.msgpack.toVec) = _
    rw [show formats.msgpack.fromSliceVec body = .ok vs from hbody]
    rfl

/-- The first request: every value is stored in the format it came in. -/
theorem handle_queueBatch (hname : ValidName name) (hq : s.queues.lookup name = some [])
    (ha : (envs 0).append = .ok ()) (hsize : body.length ≤ batchMessageLimit)
    (hbody : (formats.of c).fromSliceVec body = .ok vs) :
    ∃ s', ApiRequest.handle formats heartbeatDuration s envs
        (.queueBatch name (some c.header) body) = (some (.ofStatus 200), s') ∧
      s'.queues.lookup name = some ((vs.map (formats.of c).toVec).map fun d => ⟨d, 0⟩) := by
  have hvalid : validateQueueName name = .ok () := hname
  have hcall : ApiRequest.toCall formats heartbeatDuration (.queueBatch name (some c.header) body)
      = .ok (.queueBatch name (vs.map (formats.of c).toVec)) := by
    simp only [ApiRequest.toCall, if_neg (not_lt.mpr hsize), hvalid, batchItems_of hbody]
  have hrun : s.call envs (.queueBatch name (vs.map (formats.of c).toVec))
      = (.ok .done, (s.logged (envs 0) (.enqueueBatch name (vs.map (formats.of c).toVec))).setQueue
          name ((vs.map (formats.of c).toVec).map fun d => ⟨d, 0⟩)) := by
    change ((s.queueBatch (envs 0) name _).map (Outcome.map fun _ => Reply.done) id) = _
    rw [InMemoryStorage.queueBatch_empty hq ha]
    rfl
  refine ⟨(s.logged (envs 0) (.enqueueBatch name (vs.map (formats.of c).toVec))).setQueue name
    ((vs.map (formats.of c).toVec).map fun d => ⟨d, 0⟩), ?_, Finmap.lookup_insert _⟩
  simp only [ApiRequest.handle, hcall, hrun]
  rfl

/-- The items of the response. -/
def responseItems (formats : Formats) (a : Encoding) (tasks : List (InFlightTask Bytes)) :
    List BatchItem :=
  tasks.map fun task => ⟨task.id, decodeMessage formats (some a.header) task.data⟩

theorem batchResponse_of (a : Encoding) (tasks : List (InFlightTask Bytes)) :
    (ApiRequest.batchResponse formats (some a.header) tasks).status = 200 ∧
      (ApiRequest.batchResponse formats (some a.header) tasks).body
        = (formats.of a).itemsToVec (responseItems formats a tasks) := by
  cases a <;> exact ⟨rfl, rfl⟩

/-- The second request, by what the store returns. -/
theorem handle_dequeueBatch (hname : ValidName name) (a : Encoding) (count : Option UInt64) :
    (ApiRequest.handle formats heartbeatDuration s envs
        (.dequeueBatch name count (some a.header))).1
      = match (s.dequeueBatch (envs 0) name (count.getD 10)).1 with
        | .ok tasks => some (ApiRequest.batchResponse formats (some a.header) tasks)
        | .err e => some (.ofText 404 e)
        | .panic => none := by
  have hvalid : validateQueueName name = .ok () := hname
  have hcall : ApiRequest.toCall formats heartbeatDuration
      (.dequeueBatch name count (some a.header)) = .ok (.dequeueBatch name (count.getD 10)) := by
    simp only [ApiRequest.toCall, ApiRequest.validated, hvalid]
  simp only [ApiRequest.handle, hcall, InMemoryStorage.call, Prod.map_fst]
  cases (s.dequeueBatch (envs 0) name (count.getD 10)).1 <;> rfl

/-- What a consumer decodes from the response to all tasks of the batch. -/
theorem messages_responseItems (a : Encoding) {tasks : List (InFlightTask Bytes)}
    (hdata : tasks.map InFlightTask.data = vs.map (formats.of c).toVec) :
    messages (responseItems formats a tasks)
      = vs.map fun v => decodeMessage formats (some a.header) ((formats.of c).toVec v) := by
  have hcomp : (BatchItem.message ∘ fun task : InFlightTask Bytes =>
      (⟨task.id, decodeMessage formats (some a.header) task.data⟩ : BatchItem))
      = decodeMessage formats (some a.header) ∘ InFlightTask.data := rfl
  rw [messages, responseItems, List.map_map, hcomp, ← List.map_map, hdata, List.map_map]
  rfl

/-- The consumer reads the response to all tasks of the batch. -/
theorem read_batchResponse (hf : formats.Documented read) (a : Encoding)
    (hvs : fits (.arr vs) = true) {tasks : List (InFlightTask Bytes)}
    (hdata : tasks.map InFlightTask.data = vs.map (formats.of c).toVec)
    (hid : ∀ task ∈ tasks, (Json.utf8 task.id).length < 2 ^ 32) :
    read a (ApiRequest.batchResponse formats (some a.header) tasks).body
      = some (responseItems formats a tasks) := by
  rw [fits, Bool.and_eq_true, decide_eq_true_eq] at hvs
  rw [(batchResponse_of a tasks).2]
  refine hf.read_itemsToVec a _ ?_ ?_
  · have hlen := congrArg List.length hdata
    rw [List.length_map, List.length_map] at hlen
    rw [responseItems, List.length_map, hlen]
    exact hvs.1
  · intro item hitem
    obtain ⟨task, htask, rfl⟩ := List.mem_map.mp hitem
    refine ⟨hid task htask, ?_⟩
    -- what is decoded from a stored value fits again
    have hmem := List.mem_map_of_mem (f := InFlightTask.data) htask
    rw [hdata] at hmem
    obtain ⟨v, hv, hv'⟩ := List.mem_map.mp hmem
    change fits (decodeMessage formats (some a.header) task.data) = true
    rw [← hv']
    exact (guessed hf c a (Json.fits_of_mem hvs.2 hv)).1

/-! The two requests, on a store that takes the batch. -/

section Requests

variable (heartbeatDuration)

variable (hf : formats.Documented read) (hname : ValidName name)
  (hq : s.queues.lookup name = some []) (a : Encoding)
  (hbody : (formats.of c).fromSliceVec body = .ok vs) (hvs : fits (.arr vs) = true)
  (hsize : body.length ≤ batchMessageLimit) {envs' : ℕ → Env}
  (ha : (envs 0).append = .ok ()) (ha' : (envs' 0).append = .ok ())
  (huuid : ∀ k, (Json.utf8 ((envs' 0).uuid k)).length < 2 ^ 32) {count : Option UInt64}
  (hcount : vs.length ≤ (count.getD 10).toNat)

include hf hname hq hbody hvs hsize ha ha' huuid hcount

/-- What the requests come to: no response where the capacity asked for is too large, and
otherwise items whose messages are the values if they all survive. -/
theorem batch_cases :
    ∃ s', ApiRequest.handle formats heartbeatDuration s envs
        (.queueBatch name (some c.header) body) = (some (.ofStatus 200), s') ∧
      ((vs ≠ [] ∧ capacityOverflow (count.getD 10) = true ∧
          (ApiRequest.handle formats heartbeatDuration s' envs'
            (.dequeueBatch name count (some a.header))).1 = none) ∨
        ((vs = [] ∨ capacityOverflow (count.getD 10) = false) ∧ ∃ tasks,
          (ApiRequest.handle formats heartbeatDuration s' envs'
            (.dequeueBatch name count (some a.header))).1
              = some (ApiRequest.batchResponse formats (some a.header) tasks) ∧
          read a (ApiRequest.batchResponse formats (some a.header) tasks).body
            = some (responseItems formats a tasks) ∧
          (messages (responseItems formats a tasks) = vs ↔ ∀ v ∈ vs, Survives c a v))) := by
  obtain ⟨s', hfirst, hq'⟩ : ∃ s', ApiRequest.handle formats heartbeatDuration s envs
      (.queueBatch name (some c.header) body) = (some (.ofStatus 200), s') ∧
      s'.queues.lookup name = some ((vs.map (formats.of c).toVec).map fun d => ⟨d, 0⟩) :=
    handle_queueBatch hname hq ha hsize hbody
  refine ⟨s', hfirst, ?_⟩
  simp only [handle_dequeueBatch hname]
  have hlength : ((vs.map (formats.of c).toVec).map fun d => (⟨d, 0⟩ : QueueItem Bytes)).length
      ≤ (count.getD 10).toNat := by
    rwa [List.length_map, List.length_map]
  rcases InMemoryStorage.dequeueBatch_all hq' ha' hlength with
    ⟨hnil, hrun⟩ | ⟨hnil, hcap, hrun⟩ | ⟨hnil, hcap, tasks, hrun, hdata, hid⟩
  · -- an empty batch
    have hvs' : vs = [] := List.map_eq_nil_iff.mp (List.map_eq_nil_iff.mp hnil)
    subst hvs'
    have hnone : ([] : List (InFlightTask Bytes)).map InFlightTask.data
        = ([] : List Value).map (formats.of c).toVec := rfl
    refine Or.inr ⟨Or.inl rfl, [], by rw [hrun], ?_, iff_of_true rfl nofun⟩
    exact read_batchResponse hf a hvs hnone nofun
  · -- the panic
    refine Or.inl ⟨?_, hcap, by rw [hrun]⟩
    rintro rfl
    exact hnil rfl
  · have hdata' : tasks.map InFlightTask.data = vs.map (formats.of c).toVec := by
      rw [hdata, List.map_map]
      exact List.map_id _
    have hread := read_batchResponse hf a hvs hdata' fun task htask => by
      obtain ⟨k, hk⟩ := hid task htask
      rw [hk]
      exact huuid k
    refine Or.inr ⟨Or.inr hcap, tasks, by rw [hrun], hread, ?_⟩
    rw [fits, Bool.and_eq_true] at hvs
    rw [messages_responseItems a hdata']
    conv_lhs => rhs; rw [← List.map_id vs]
    rw [List.map_inj_left]
    exact forall₂_congr fun v hv => (guessed hf c a (Json.fits_of_mem hvs.2 hv)).2

theorem batchRoundTrip_of_survives
    (hcap : vs = [] ∨ capacityOverflow (count.getD 10) = false)
    (h : ∀ v ∈ vs, Survives c a v) :
    BatchRoundTrip formats read heartbeatDuration s name c a body count envs envs' vs := by
  obtain ⟨s', hfirst, hsecond⟩ := batch_cases heartbeatDuration hf hname hq a hbody hvs hsize ha
    ha' huuid hcount
  unfold BatchRoundTrip
  rw [hfirst]
  rcases hsecond with ⟨hne, hover, -⟩ | ⟨-, tasks, hresponse, hread, hsame⟩
  · rcases hcap with hnil | hfit
    · exact absurd hnil hne
    · rw [hfit] at hover
      cases hover
  · exact ⟨rfl, _, _, hresponse, (batchResponse_of a tasks).1, hread, hsame.mpr h⟩

theorem survives_of_batchRoundTrip
    (h : BatchRoundTrip formats read heartbeatDuration s name c a body count envs envs' vs) :
    (vs = [] ∨ capacityOverflow (count.getD 10) = false) ∧ ∀ v ∈ vs, Survives c a v := by
  obtain ⟨s', hfirst, hsecond⟩ := batch_cases heartbeatDuration hf hname hq a hbody hvs hsize ha
    ha' huuid hcount
  unfold BatchRoundTrip at h
  rw [hfirst] at h
  obtain ⟨-, response, items, hresponse, -, hitems, hvals⟩ := h
  rcases hsecond with ⟨-, -, hnone⟩ | ⟨hcap, tasks, hsome, hread, hsame⟩
  · rw [hnone] at hresponse
    cases hresponse
  · rw [hsome] at hresponse
    cases hresponse
    rw [hread] at hitems
    cases hitems
    exact ⟨hcap, hsame.mp hvals⟩

end Requests

/-- **When a batch comes back.** The capacity asked for must be one a vector can have, unless the
batch is empty, and every value must survive the pair of formats. -/
theorem batchRoundTrip_iff (hf : formats.Documented read) (hname : ValidName name)
    (hq : s.queues.lookup name = some []) (a : Encoding)
    (hbody : (formats.of c).fromSliceVec body = .ok vs) (hvs : fits (.arr vs) = true)
    (hsize : body.length ≤ batchMessageLimit) {envs' : ℕ → Env}
    (ha : (envs 0).append = .ok ()) (ha' : (envs' 0).append = .ok ())
    (huuid : ∀ k, (Json.utf8 ((envs' 0).uuid k)).length < 2 ^ 32) {count : Option UInt64}
    (hcount : vs.length ≤ (count.getD 10).toNat) :
    BatchRoundTrip formats read heartbeatDuration s name c a body count envs envs' vs ↔
      (vs = [] ∨ capacityOverflow (count.getD 10) = false) ∧
        ∀ v ∈ vs, Survives c a v := by
  constructor
  · exact survives_of_batchRoundTrip _ hf hname hq a hbody hvs hsize ha ha' huuid hcount
  · rintro ⟨hcap, h⟩
    exact batchRoundTrip_of_survives _ hf hname hq a hbody hvs hsize ha ha' huuid hcount hcap h

end Batch

/-! ### The codecs of the library -/

/-- A result of a decoder, with some text for its error. -/
def orError {β : Type} : Option β → Except String β
  | some v => .ok v
  | none => .error "invalid input"

/-- The elements of an array. -/
def elements : Value → Option (List Value)
  | .arr xs => some xs
  | _ => none

/-- A struct is an object in JSON and an array in MessagePack. -/
def BatchItem.toJson (i : BatchItem) : Value := .obj [("id", .str i.id), ("message", i.message)]

def BatchItem.toMsgpack (i : BatchItem) : Value := .arr [.str i.id, i.message]

def BatchItem.ofValue : Value → Option BatchItem
  | .obj [("id", .str id), ("message", v)] => some ⟨id, v⟩
  | .arr [.str id, v] => some ⟨id, v⟩
  | _ => none

def libraryFormats : Formats where
  json :=
    { toVec := Json.print
      fromSlice := fun bs => orError (Json.parse bs)
      fromSliceVec := fun bs => orError ((Json.parse bs).bind elements)
      itemsToVec := fun items => Json.print (.arr (items.map BatchItem.toJson)) }
  msgpack :=
    { toVec := MessagePack.encode
      fromSlice := fun bs => orError (MessagePack.decode bs)
      fromSliceVec := fun bs => orError ((MessagePack.decode bs).bind elements)
      itemsToVec := fun items => MessagePack.encode (.arr (items.map BatchItem.toMsgpack)) }

/-- How a consumer reads a response: an array of items. -/
def readItems (e : Encoding) (bs : Bytes) : Option (List BatchItem) :=
  let value := match e with
    | .json => Json.parse bs
    | .msgpack => MessagePack.decode bs
  (value.bind elements).bind fun xs => xs.mapM BatchItem.ofValue

theorem fitsElems_map {items : List BatchItem} {f : BatchItem → Value}
    (h : ∀ i ∈ items, fits (f i) = true) : fitsElems (items.map f) = true := by
  induction items with
  | nil => rfl
  | cons i items ih =>
    rw [List.forall_mem_cons] at h
    rw [List.map_cons, fitsElems, h.1, ih h.2]
    rfl

theorem mapM_ofValue {f : BatchItem → Value} (hf : ∀ i, BatchItem.ofValue (f i) = some i)
    (items : List BatchItem) : (items.map f).mapM BatchItem.ofValue = some items := by
  induction items with
  | nil => rfl
  | cons i items ih => rw [List.map_cons, List.mapM_cons, hf, ih]; rfl

theorem fits_toJson {i : BatchItem} (hid : (Json.utf8 i.id).length < 2 ^ 32)
    (hmessage : fits i.message = true) : fits i.toJson = true := by
  have hkeys : (["id", "message"] : List String).Pairwise (· < ·) := by decide
  have hlen : (Json.utf8 "id").length < 2 ^ 32 := by decide
  have hlen' : (Json.utf8 "message").length < 2 ^ 32 := by decide
  simp only [BatchItem.toJson, fits, Json.fitsMembers, List.map_cons, List.map_nil, hkeys, hlen,
    hlen', hid, hmessage, List.length_cons, List.length_nil, decide_true, Bool.and_true]
  rfl

theorem fits_toMsgpack {i : BatchItem} (hid : (Json.utf8 i.id).length < 2 ^ 32)
    (hmessage : fits i.message = true) : fits i.toMsgpack = true := by
  simp only [BatchItem.toMsgpack, fits, fitsElems, hid, hmessage, List.length_cons,
    List.length_nil, decide_true, Bool.and_true]
  rfl

theorem fits_items {items : List BatchItem} (hlen : items.length < 2 ^ 32) {f : BatchItem → Value}
    (h : ∀ i ∈ items, fits (f i) = true) : fits (.arr (items.map f)) = true := by
  rw [fits, List.length_map, fitsElems_map h, Bool.and_true, decide_eq_true_eq]
  exact hlen

theorem libraryFormats_documented : libraryFormats.Documented readItems where
  fromSlice_toVec e v hv := by
    cases e with
    | json =>
      change orError (Json.parse (Json.print v)) = _
      rw [Json.parse_print (Json.noFloat_of_fits v hv)]
      rfl
    | msgpack =>
      change orError (MessagePack.decode (MessagePack.encode v)) = _
      rw [MessagePack.decode_encode hv]
      rfl
  read_itemsToVec e items hlen hitems := by
    cases e with
    | json =>
      have hfits := fits_items hlen fun i hi => fits_toJson (hitems i hi).1 (hitems i hi).2
      change ((Json.parse (Json.print _)).bind elements).bind _ = _
      rw [Json.parse_print (Json.noFloat_of_fits _ hfits)]
      exact mapM_ofValue (fun _ => rfl) items
    | msgpack =>
      have hfits := fits_items hlen fun i hi => fits_toMsgpack (hitems i hi).1 (hitems i hi).2
      change ((MessagePack.decode (MessagePack.encode _)).bind elements).bind _ = _
      rw [MessagePack.decode_encode hfits]
      exact mapM_ofValue (fun _ => rfl) items
  json_toVec v hv := rfl
  json_high b r hb := ⟨_, by change orError (Json.parse (b :: r)) = _; rw [Json.parse_high hb]; rfl⟩
  json_digit b hb := by
    change orError (Json.parse [b]) = _
    rw [Json.parse_digit hb]
    rfl
  json_byte b hb := ⟨_, by change orError (Json.parse [b]) = _; rw [Json.parse_byte hb]; rfl⟩
  msgpack_fixint n hn := MessagePack.encode_ofNat hn
  msgpack_high v hv hne := MessagePack.head_encode hne
  msgpack_low b r hb := by
    change orError (MessagePack.decode (b :: r)) = _
    rw [MessagePack.decode_fixint hb]
    rfl

/-- A client's batch is read as the values it was made of. -/
theorem fromSliceVec_toVec (e : Encoding) {vs : List Value} (hvs : fits (.arr vs) = true) :
    (libraryFormats.of e).fromSliceVec ((libraryFormats.of e).toVec (.arr vs)) = .ok vs := by
  cases e with
  | json =>
    change orError ((Json.parse (Json.print (.arr vs))).bind elements) = .ok vs
    rw [Json.parse_print (Json.noFloat_of_fits _ hvs)]
    rfl
  | msgpack =>
    change orError ((MessagePack.decode (MessagePack.encode (.arr vs))).bind elements) = .ok vs
    rw [MessagePack.decode_encode hvs]
    rfl

/-! ### Two batches -/

/-- A store with an empty queue. -/
def emptyQueue : InMemoryStorage Bytes := InMemoryStorage.new.setQueue "q" []

def twoIds : ℕ → Env := fun _ => Env.quiet ["t0", "t1"]

theorem twoIds_uuid (k : ℕ) : (Json.utf8 ((twoIds 0).uuid k)).length < 2 ^ 32 := by
  rcases k with _ | _ | k
  · decide
  · decide
  · change (Json.utf8 "").length < 2 ^ 32
    decide

/-- An object and a text. -/
def twoValues : List Value := [.obj [("task", .int 1)], .str "string_payload"]

theorem twoValues_fit : fits (.arr twoValues) = true := by decide +kernel

/-- From a MessagePack producer to a JSON consumer. -/
theorem batchRoundTrip_iff_twoValues :
    BatchRoundTrip libraryFormats readItems 60 emptyQueue "q" .msgpack .json
      (MessagePack.encode (.arr twoValues)) none twoIds twoIds twoValues := by
  refine (batchRoundTrip_iff libraryFormats_documented (by decide +kernel) (by decide +kernel) .json
    (fromSliceVec_toVec .msgpack twoValues_fit) twoValues_fit (by decide +kernel) rfl rfl
    twoIds_uuid (by decide)).mpr ?_
  refine ⟨Or.inr (by decide), ?_⟩
  rintro v hv n - - rfl
  simp [twoValues] at hv

/-- From a JSON producer to a MessagePack consumer, who gets the number `34`, the byte of a quote,
for the text. -/
theorem not_batchRoundTrip_text :
    ¬ BatchRoundTrip libraryFormats readItems 60 emptyQueue "q" .json .msgpack
      (Json.print (.arr twoValues)) none twoIds twoIds twoValues := by
  intro h
  have hall := (survives_of_batchRoundTrip 60 libraryFormats_documented (by decide +kernel)
    (by decide +kernel) .msgpack (fromSliceVec_toVec .json twoValues_fit) twoValues_fit
    (by decide +kernel) rfl rfl twoIds_uuid (by decide) h).2
  rcases hall (.str "string_payload") (by simp [twoValues]) with ⟨xs, h⟩ | ⟨ms, h⟩ | h
  · cases h
  · cases h
  · cases h

end Oxideq
