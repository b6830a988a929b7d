import Oxideq.Lib.Json
import Mathlib.Data.Nat.ModEq
import Mathlib.Tactic.Linarith

/-!
# MessagePack

The MessagePack format on JSON values: an encoder that writes every value in its shortest form,
and a decoder that reads one value and leaves what follows it. Floating-point numbers, binary
strings and extension types are not part of it.

`readValue_encode` is the round trip, for every value the format can hold (`Json.fits`). The rest
is about first bytes: an integer below `0x80` is its own encoding (`encode_ofNat`), every other
value starts with a byte from `0x80` on (`head_encode`), and a reader that meets a byte below
`0x80` is done (`decode_fixint`).
-/

namespace Json

mutual

/-- A value the format can hold: integers of 64 bits, lengths of 32 bits, and the keys of an object
in order. -/
def fits : Value → Bool
  | .null => true
  | .bool _ => true
  | .int i => -2 ^ 63 ≤ i && i < 2 ^ 64
  | .float _ => false
  | .str s => (utf8 s).length < 2 ^ 32
  | .arr xs => xs.length < 2 ^ 32 && fitsElems xs
  | .obj ms =>
    ms.length < 2 ^ 32 && decide ((ms.map Prod.fst).Pairwise (· < ·)) && fitsMembers ms

def fitsElems : List Value → Bool
  | [] => true
  | x :: xs => fits x && fitsElems xs

def fitsMembers : List (String × Value) → Bool
  | [] => true
  | (k, v) :: ms => (utf8 k).length < 2 ^ 32 && fits v && fitsMembers ms

end

end Json

namespace MessagePack

open Json (Value utf8 ofUtf8 fits fitsElems fitsMembers)

/-! ### Big-endian numbers -/

/-- The last `k` bytes of a number, the highest first. -/
def be : ℕ → ℕ → List UInt8
  | 0, _ => []
  | k + 1, n => UInt8.ofNat (n / 256 ^ k) :: be k n

def readBe : ℕ → List UInt8 → Option (ℕ × List UInt8)
  | 0, r => some (0, r)
  | _ + 1, [] => none
  | k + 1, b :: r => (readBe k r).map fun p => (256 ^ k * b.toNat + p.1, p.2)

theorem readBe_be (k n : ℕ) (r : List UInt8) :
    readBe k (be k n ++ r) = some (n % 256 ^ k, r) := by
  induction k with
  | zero => rw [be, readBe, pow_zero, Nat.mod_one]; rfl
  | succ k ih =>
    have hsplit : n % 256 ^ (k + 1) = n % 256 ^ k + 256 ^ k * (n / 256 ^ k % 2 ^ 8) := by
      rw [pow_succ, Nat.mod_mul]
      rfl
    rw [be, List.cons_append, readBe, ih, Option.map_some, UInt8.toNat_ofNat', hsplit, add_comm]

theorem readBe_be_of_lt {k n : ℕ} (h : n < 256 ^ k) (r : List UInt8) :
    readBe k (be k n ++ r) = some (n, r) := by
  rw [readBe_be, Nat.mod_eq_of_lt h]

/-! ### Encoding -/

def encodeNat (n : ℕ) : List UInt8 :=
  if n < 0x80 then [UInt8.ofNat n]
  else if n < 2 ^ 8 then 0xcc :: be 1 n
  else if n < 2 ^ 16 then 0xcd :: be 2 n
  else if n < 2 ^ 32 then 0xce :: be 4 n
  else 0xcf :: be 8 n

/-- The encoding of `-n`, in two's complement. -/
def encodeNeg (n : ℕ) : List UInt8 :=
  if n ≤ 0x20 then [UInt8.ofNat (2 ^ 8 - n)]
  else if n ≤ 2 ^ 7 then 0xd0 :: be 1 (2 ^ 8 - n)
  else if n ≤ 2 ^ 15 then 0xd1 :: be 2 (2 ^ 16 - n)
  else if n ≤ 2 ^ 31 then 0xd2 :: be 4 (2 ^ 32 - n)
  else 0xd3 :: be 8 (2 ^ 64 - n)

def encodeInt (i : Int) : List UInt8 :=
  if 0 ≤ i then encodeNat i.toNat else encodeNeg i.natAbs

def strHead (n : ℕ) : List UInt8 :=
  if n < 32 then [UInt8.ofNat (0xa0 + n)]
  else if n < 2 ^ 8 then 0xd9 :: be 1 n
  else if n < 2 ^ 16 then 0xda :: be 2 n
  else 0xdb :: be 4 n

def arrHead (n : ℕ) : List UInt8 :=
  if n < 16 then [UInt8.ofNat (0x90 + n)]
  else if n < 2 ^ 16 then 0xdc :: be 2 n
  else 0xdd :: be 4 n

def mapHead (n : ℕ) : List UInt8 :=
  if n < 16 then [UInt8.ofNat (0x80 + n)]
  else if n < 2 ^ 16 then 0xde :: be 2 n
  else 0xdf :: be 4 n

def encodeStr (s : String) : List UInt8 := strHead (utf8 s).length ++ utf8 s

mutual

/-- The shortest encoding of a value. A floating-point literal has none here. -/
def encode : Value → List UInt8
  | .null => [0xc0]
  | .bool false => [0xc2]
  | .bool true => [0xc3]
  | .int i => encodeInt i
  | .float _ => [0xc1]
  | .str s => encodeStr s
  | .arr xs => arrHead xs.length ++ encodeElems xs
  | .obj ms => mapHead ms.length ++ encodeMembers ms

def encodeElems : List Value → List UInt8
  | [] => []
  | x :: xs => encode x ++ encodeElems xs

def encodeMembers : List (String × Value) → List UInt8
  | [] => []
  | (k, v) :: ms => encodeStr k ++ (encode v ++ encodeMembers ms)

end

/-! ### Decoding -/

/-- What the first bytes announce: a value that is complete with them, or something of a
length. -/
inductive Head where
  | value (v : Value)
  | str (length : ℕ)
  | arr (length : ℕ)
  | map (length : ℕ)

/-- A number of `8 * k` bits in two's complement. -/
def signed (k n : ℕ) : Int := if n < 2 ^ (8 * k - 1) then n else n - 2 ^ (8 * k)

/-- The heads of one byte from `0xc0` to `0xdf`: how long the number behind it is, and what the
number is for. -/
def wideHead : ℕ → Option (ℕ × (ℕ → Head))
  | 0xc0 => some (0, fun _ => .value .null)
  | 0xc2 => some (0, fun _ => .value (.bool false))
  | 0xc3 => some (0, fun _ => .value (.bool true))
  | 0xcc => some (1, fun n => .value (.int n))
  | 0xcd => some (2, fun n => .value (.int n))
  | 0xce => some (4, fun n => .value (.int n))
  | 0xcf => some (8, fun n => .value (.int n))
  | 0xd0 => some (1, fun n => .value (.int (signed 1 n)))
  | 0xd1 => some (2, fun n => .value (.int (signed 2 n)))
  | 0xd2 => some (4, fun n => .value (.int (signed 4 n)))
  | 0xd3 => some (8, fun n => .value (.int (signed 8 n)))
  | 0xd9 => some (1, .str)
  | 0xda => some (2, .str)
  | 0xdb => some (4, .str)
  | 0xdc => some (2, .arr)
  | 0xdd => some (4, .arr)
  | 0xde => some (2, .map)
  | 0xdf => some (4, .map)
  | _ => none

def readHead : List UInt8 → Option (Head × List UInt8)
  | [] => none
  | b :: r =>
    if b.toNat < 0x80 then some (.value (.int b.toNat), r)
    else if b.toNat < 0x90 then some (.map (b.toNat - 0x80), r)
    else if b.toNat < 0xa0 then some (.arr (b.toNat - 0x90), r)
    else if b.toNat < 0xc0 then some (.str (b.toNat - 0xa0), r)
    else if 0xe0 ≤ b.toNat then some (.value (.int (b.toNat - 2 ^ 8)), r)
    else
      match wideHead b.toNat with
      | none => none
      | some (k, head) => (readBe k r).map fun p => (head p.1, p.2)

def readStr (k : ℕ) (r : List UInt8) : Option (String × List UInt8) :=
  if r.length < k then none else (ofUtf8 (r.take k)).map fun s => (s, r.drop k)

mutual

/-- A value. The fuel pays for every value and once more for every element. -/
def readValue : ℕ → List UInt8 → Option (Value × List UInt8)
  | 0, _ => none
  | n + 1, bs =>
    match readHead bs with
    | none => none
    | some (.value v, r) => some (v, r)
    | some (.str k, r) => (readStr k r).map fun p => (.str p.1, p.2)
    | some (.arr k, r) => (readElems n k r).map fun p => (.arr p.1, p.2)
    | some (.map k, r) => (readMembers n k r).map fun p => (.obj p.1, p.2)

def readElems : ℕ → ℕ → List UInt8 → Option (List Value × List UInt8)
  | _, 0, r => some ([], r)
  | 0, _ + 1, _ => none
  | n + 1, k + 1, bs =>
    match readValue n bs with
    | none => none
    | some (x, r) => (readElems n k r).map fun p => (x :: p.1, p.2)

def readMembers : ℕ → ℕ → List UInt8 → Option (List (String × Value) × List UInt8)
  | _, 0, r => some ([], r)
  | 0, _ + 1, _ => none
  | n + 1, k + 1, bs =>
    match readHead bs with
    | some (.str l, r) =>
      match readStr l r with
      | none => none
      | some (key, r) =>
        match readValue n r with
        | none => none
        | some (v, r) => (readMembers n k r).map fun p => ((key, v) :: p.1, p.2)
    | _ => none

end

/-- The first value of the bytes. What follows it is not looked at. -/
def decode (bs : List UInt8) : Option Value :=
  (readValue (2 * bs.length) bs).map Prod.fst

/-! ### Heads -/

/-- A head of one byte below `0xe0`. -/
theorem toNat_ofNat {n : ℕ} (h : n < 256) : (UInt8.ofNat n).toNat = n := by
  rw [UInt8.toNat_ofNat', Nat.mod_eq_of_lt h]

theorem readHead_fixint {n : ℕ} (h : n < 0x80) (r : List UInt8) :
    readHead (UInt8.ofNat n :: r) = some (.value (.int n), r) := by
  rw [readHead, toNat_ofNat (by omega), if_pos h]

theorem readHead_wide {b : UInt8} {k : ℕ} {head : ℕ → Head} (hlow : 0xc0 ≤ b.toNat)
    (hhigh : b.toNat < 0xe0) (h : wideHead b.toNat = some (k, head)) {n : ℕ} (hn : n < 256 ^ k)
    (r : List UInt8) : readHead (b :: be k n ++ r) = some (head n, r) := by
  rw [List.cons_append, readHead, if_neg (by omega), if_neg (by omega), if_neg (by omega),
    if_neg (by omega), if_neg (by omega), h]
  change (readBe k (be k n ++ r)).map _ = _
  rw [readBe_be_of_lt hn, Option.map_some]

theorem readHead_encodeNat {n : ℕ} (h : n < 2 ^ 64) (r : List UInt8) :
    readHead (encodeNat n ++ r) = some (.value (.int n), r) := by
  unfold encodeNat
  split
  · next hn => exact readHead_fixint hn r
  split
  · next hn => exact readHead_wide (b := 0xcc) (by decide) (by decide) rfl hn r
  split
  · next hn => exact readHead_wide (b := 0xcd) (by decide) (by decide) rfl hn r
  split
  · next hn => exact readHead_wide (b := 0xce) (by decide) (by decide) rfl hn r
  · exact readHead_wide (b := 0xcf) (by decide) (by decide) rfl h r

/-- Two's complement of a negative number that fits. -/
theorem signed_sub {k n : ℕ} (hk : 0 < k) (hn : 0 < n) (h : n ≤ 2 ^ (8 * k - 1)) :
    signed k (2 ^ (8 * k) - n) = -(n : Int) := by
  have hdouble : 2 ^ (8 * k) = 2 * 2 ^ (8 * k - 1) := by
    rw [← pow_succ']
    congr 1
    omega
  unfold signed
  rw [if_neg (by omega)]
  push_cast [Nat.cast_sub (show n ≤ 2 ^ (8 * k) by omega)]
  ring

/-- A head with a number in two's complement. -/
theorem readHead_signed {b : UInt8} {k n : ℕ} (hlow : 0xc0 ≤ b.toNat) (hhigh : b.toNat < 0xe0)
    (hb : wideHead b.toNat = some (k, fun n => .value (.int (signed k n)))) (hk : 0 < k)
    (hn : 0 < n) (h : n ≤ 2 ^ (8 * k - 1)) (r : List UInt8) :
    readHead (b :: be k (2 ^ (8 * k) - n) ++ r) = some (.value (.int (-n)), r) := by
  have hlt : 2 ^ (8 * k) - n < 256 ^ k := by
    have hpow : 256 ^ k = 2 ^ (8 * k) := by rw [pow_mul]; rfl
    rw [hpow]
    exact Nat.sub_lt (Nat.two_pow_pos _) hn
  rw [readHead_wide hlow hhigh hb hlt, signed_sub hk hn h]

theorem readHead_encodeNeg {n : ℕ} (hn : 0 < n) (h : n ≤ 2 ^ 63) (r : List UInt8) :
    readHead (encodeNeg n ++ r) = some (.value (.int (-n)), r) := by
  unfold encodeNeg
  split
  · next h =>
    rw [List.singleton_append, readHead, toNat_ofNat (by omega), if_neg (by omega),
      if_neg (by omega), if_neg (by omega), if_neg (by omega), if_pos (by omega)]
    have hint : ((2 ^ 8 - n : ℕ) : Int) - 2 ^ 8 = -n := by omega
    rw [hint]
  split
  · next h => exact readHead_signed (k := 1) (by decide) (by decide) rfl (by decide) hn h r
  split
  · next h => exact readHead_signed (k := 2) (by decide) (by decide) rfl (by decide) hn h r
  split
  · next h => exact readHead_signed (k := 4) (by decide) (by decide) rfl (by decide) hn h r
  · exact readHead_signed (k := 8) (by decide) (by decide) rfl (by decide) hn h r

theorem readHead_encodeInt {i : Int} (h : -2 ^ 63 ≤ i) (h' : i < 2 ^ 64) (r : List UInt8) :
    readHead (encodeInt i ++ r) = some (.value (.int i), r) := by
  unfold encodeInt
  split
  · next hi =>
    rw [readHead_encodeNat (by omega), Int.toNat_of_nonneg hi]
  · next hi =>
    rw [readHead_encodeNeg (by omega) (by omega)]
    have habs : -(i.natAbs : Int) = i := by omega
    rw [habs]

theorem readHead_strHead {n : ℕ} (h : n < 2 ^ 32) (r : List UInt8) :
    readHead (strHead n ++ r) = some (.str n, r) := by
  unfold strHead
  split
  · next hn =>
    rw [List.singleton_append, readHead, toNat_ofNat (by omega), if_neg (by omega),
      if_neg (by omega), if_neg (by omega), if_pos (by omega), Nat.add_sub_cancel_left]
  split
  · next hn => exact readHead_wide (by decide) (by decide) rfl hn r
  split
  · next hn => exact readHead_wide (by decide) (by decide) rfl hn r
  · exact readHead_wide (by decide) (by decide) rfl h r

theorem readHead_arrHead {n : ℕ} (h : n < 2 ^ 32) (r : List UInt8) :
    readHead (arrHead n ++ r) = some (.arr n, r) := by
  unfold arrHead
  split
  · next hn =>
    rw [List.singleton_append, readHead, toNat_ofNat (by omega), if_neg (by omega),
      if_neg (by omega), if_pos (by omega), Nat.add_sub_cancel_left]
  split
  · next hn => exact readHead_wide (by decide) (by decide) rfl hn r
  · exact readHead_wide (by decide) (by decide) rfl h r

theorem readHead_mapHead {n : ℕ} (h : n < 2 ^ 32) (r : List UInt8) :
    readHead (mapHead n ++ r) = some (.map n, r) := by
  unfold mapHead
  split
  · next hn =>
    rw [List.singleton_append, readHead, toNat_ofNat (by omega), if_neg (by omega),
      if_pos (by omega), Nat.add_sub_cancel_left]
  split
  · next hn => exact readHead_wide (by decide) (by decide) rfl hn r
  · exact readHead_wide (by decide) (by decide) rfl h r

theorem readStr_utf8 (s : String) (r : List UInt8) :
    readStr (utf8 s).length (utf8 s ++ r) = some (s, r) := by
  unfold readStr
  rw [if_neg (by rw [List.length_append]; omega), List.take_left, List.drop_left,
    Json.ofUtf8_utf8, Option.map_some]

/-! ### First bytes -/

/-- A small natural number is its own encoding. -/
theorem encode_ofNat {n : ℕ} (h : n < 0x80) : encode (.int n) = [UInt8.ofNat n] := by
  rw [encode, encodeInt, if_pos (Int.natCast_nonneg n), Int.toNat_natCast, encodeNat, if_pos h]

/-- The first byte of a head says that it is not a small number. -/
def High (bs : List UInt8) : Prop := ∃ b r, bs = b :: r ∧ 0x80 ≤ b

theorem High.cons {b : UInt8} (h : 0x80 ≤ b) (r : List UInt8) : High (b :: r) := ⟨b, r, rfl, h⟩

theorem High.append {bs : List UInt8} (h : High bs) (r : List UInt8) : High (bs ++ r) := by
  obtain ⟨b, t, rfl, hb⟩ := h
  exact .cons hb (t ++ r)

theorem High.length_pos {bs : List UInt8} (h : High bs) : 0 < bs.length := by
  obtain ⟨b, r, rfl, -⟩ := h
  exact Nat.succ_pos _

theorem high_ofNat {n : ℕ} (h : 0x80 ≤ n) (h' : n < 256) : High [UInt8.ofNat n] := by
  refine .cons ?_ []
  rw [UInt8.le_iff_toNat_le, toNat_ofNat h']
  exact h

theorem high_encodeNat {n : ℕ} (h : 0x80 ≤ n) : High (encodeNat n) := by
  unfold encodeNat
  rw [if_neg (by omega)]
  split
  · exact .cons (by decide) _
  split
  · exact .cons (by decide) _
  split <;> exact .cons (by decide) _

theorem high_encodeNeg {n : ℕ} (h : 0 < n) : High (encodeNeg n) := by
  unfold encodeNeg
  split
  · exact high_ofNat (by omega) (by omega)
  split
  · exact .cons (by decide) _
  split
  · exact .cons (by decide) _
  split <;> exact .cons (by decide) _

theorem high_strHead (n : ℕ) : High (strHead n) := by
  unfold strHead
  split
  · exact high_ofNat (by omega) (by omega)
  split
  · exact .cons (by decide) _
  split <;> exact .cons (by decide) _

theorem high_arrHead (n : ℕ) : High (arrHead n) := by
  unfold arrHead
  split
  · exact high_ofNat (by omega) (by omega)
  split <;> exact .cons (by decide) _

theorem high_mapHead (n : ℕ) : High (mapHead n) := by
  unfold mapHead
  split
  · exact high_ofNat (by omega) (by omega)
  split <;> exact .cons (by decide) _

/-- **All other values start high.** -/
theorem head_encode {v : Value} (h : ∀ n : ℕ, n < 0x80 → v ≠ .int n) : High (encode v) := by
  cases v with
  | null => exact .cons (by decide) _
  | bool b => cases b <;> exact .cons (by decide) _
  | int i =>
    rw [encode, encodeInt]
    split
    · next hi =>
      refine high_encodeNat (not_lt.mp fun hlt => h i.toNat hlt ?_)
      rw [Int.toNat_of_nonneg hi]
    · next hi => exact high_encodeNeg (by omega)
  | float l => exact .cons (by decide) _
  | str s => rw [encode, encodeStr]; exact (high_strHead _).append _
  | arr xs => rw [encode]; exact (high_arrHead _).append _
  | obj ms => rw [encode]; exact (high_mapHead _).append _

theorem encode_ne_nil (v : Value) : encode v ≠ [] := by
  by_cases h : ∀ n : ℕ, n < 0x80 → v ≠ .int n
  · obtain ⟨b, r, hb, -⟩ := head_encode h
    rw [hb]
    exact List.cons_ne_nil b r
  · push Not at h
    obtain ⟨n, hn, rfl⟩ := h
    rw [encode_ofNat hn]
    exact List.cons_ne_nil _ []

/-- A byte below `0x80` is a number, whatever follows. -/
theorem decode_fixint {b : UInt8} (h : b < 0x80) (r : List UInt8) :
    decode (b :: r) = some (.int b.toNat) := by
  have hb : b.toNat < 0x80 := UInt8.lt_iff_toNat_lt.mp h
  have hfuel : 2 * (b :: r).length = 2 * r.length + 1 + 1 := by
    rw [List.length_cons]
    omega
  rw [decode, hfuel, readValue, readHead, if_pos hb]
  rfl

/-! ### The round trip -/

theorem length_encode_pos (v : Value) : 0 < (encode v).length :=
  List.length_pos_iff.mpr (encode_ne_nil v)

mutual

theorem readValue_encode : ∀ (v : Value) (n : ℕ) (r : List UInt8), fits v = true →
    2 * (encode v).length ≤ n → readValue n (encode v ++ r) = some (v, r)
  | v, 0, _, _, hn => absurd hn (by have := length_encode_pos v; omega)
  | .null, n + 1, r, _, _ => rfl
  | .bool false, n + 1, r, _, _ => rfl
  | .bool true, n + 1, r, _, _ => rfl
  | .int i, n + 1, r, hv, _ => by
    rw [fits, Bool.and_eq_true, decide_eq_true_eq, decide_eq_true_eq] at hv
    rw [encode, readValue, readHead_encodeInt hv.1 hv.2]
  | .float l, n + 1, r, hv, _ => by rw [fits] at hv; cases hv
  | .str s, n + 1, r, hv, _ => by
    rw [fits, decide_eq_true_eq] at hv
    rw [encode, encodeStr, List.append_assoc, readValue, readHead_strHead hv]
    simp only [readStr_utf8, Option.map_some]
  | .arr xs, n + 1, r, hv, hn => by
    rw [fits, Bool.and_eq_true, decide_eq_true_eq] at hv
    rw [encode, List.length_append] at hn
    have hhead := (high_arrHead xs.length).length_pos
    have helems := readElems_encode xs n r hv.2 (by omega)
    rw [encode, List.append_assoc, readValue, readHead_arrHead hv.1]
    simp only [helems, Option.map_some]
  | .obj ms, n + 1, r, hv, hn => by
    rw [fits, Bool.and_eq_true, Bool.and_eq_true, decide_eq_true_eq] at hv
    rw [encode, List.length_append] at hn
    have hhead := (high_mapHead ms.length).length_pos
    have hmembers := readMembers_encode ms n r hv.2 (by omega)
    rw [encode, List.append_assoc, readValue, readHead_mapHead hv.1.1]
    simp only [hmembers, Option.map_some]

theorem readElems_encode : ∀ (xs : List Value) (n : ℕ) (r : List UInt8), fitsElems xs = true →
    2 * (encodeElems xs).length + 1 ≤ n →
    readElems n xs.length (encodeElems xs ++ r) = some (xs, r)
  | _, 0, _, _, hn => by omega
  | [], n + 1, r, _, _ => rfl
  | x :: xs, n + 1, r, hv, hn => by
    rw [fitsElems, Bool.and_eq_true] at hv
    rw [encodeElems, List.length_append] at hn
    have hpos := length_encode_pos x
    have hx := readValue_encode x n (encodeElems xs ++ r) hv.1 (by omega)
    have hxs := readElems_encode xs n r hv.2 (by omega)
    rw [encodeElems, List.append_assoc, List.length_cons, readElems]
    simp only [hx, hxs, Option.map_some]

theorem readMembers_encode : ∀ (ms : List (String × Value)) (n : ℕ) (r : List UInt8),
    fitsMembers ms = true → 2 * (encodeMembers ms).length + 1 ≤ n →
    readMembers n ms.length (encodeMembers ms ++ r) = some (ms, r)
  | _, 0, _, _, hn => by omega
  | [], n + 1, r, _, _ => rfl
  | (k, v) :: ms, n + 1, r, hv, hn => by
    rw [fitsMembers, Bool.and_eq_true, Bool.and_eq_true, decide_eq_true_eq] at hv
    rw [encodeMembers, List.length_append, List.length_append] at hn
    have hpos := length_encode_pos v
    have hval := readValue_encode v n (encodeMembers ms ++ r) hv.1.2 (by omega)
    have hms := readMembers_encode ms n r hv.2 (by omega)
    rw [encodeMembers, encodeStr, List.length_cons, readMembers]
    simp only [List.append_assoc, readHead_strHead hv.1.1, readStr_utf8, hval, hms,
      Option.map_some]

end

/-- **Round trip**, whatever follows the value. -/
theorem decode_encode_append {v : Value} (hv : fits v = true) (r : List UInt8) :
    decode (encode v ++ r) = some v := by
  rw [decode, readValue_encode v _ r hv (by rw [List.length_append]; omega), Option.map_some]

theorem decode_encode {v : Value} (hv : fits v = true) : decode (encode v) = some v := by
  have h := decode_encode_append hv []
  rwa [List.append_nil] at h

end MessagePack
