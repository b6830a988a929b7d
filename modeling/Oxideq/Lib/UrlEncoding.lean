import Oxideq.Lib.JsonRoundTrip

/-!
# URL encoding

Percent-decoding, the pairs of a query string and decimal numbers, on lists of bytes. A percent
sign that two hexadecimal digits do not follow stands for itself. In a query the pairs are
separated by `&`, an equals sign ends the name of a pair, and `+` is a space.

Text without a percent sign is its own decoding (`percentDecode_eq`), and a segment that is encoded
byte by byte is decoded to what it was (`percentDecode_percentEncode`), so every string has a
segment.
-/

namespace UrlEncoding

open Json (hexVal hexDigit)

/-- A byte for `%` and two hexadecimal digits, and every other byte for itself. -/
def percentDecode : List UInt8 → List UInt8
  | b :: h :: l :: r =>
    match if b = 0x25 then hexVal h else none, hexVal l with
    | some h, some l => UInt8.ofNat (16 * h + l) :: percentDecode r
    | _, _ => b :: percentDecode (h :: l :: r)
  -- there is no room for two digits
  | bs => bs

/-- Every byte as `%` and two digits. -/
def percentEncode (bs : List UInt8) : List UInt8 :=
  bs.flatMap fun b => [0x25, hexDigit (b.toNat / 16), hexDigit (b.toNat % 16)]

/-- A name or a value of a query. -/
def decodeComponent (bs : List UInt8) : List UInt8 :=
  percentDecode (bs.map fun b => if b = 0x2b then 0x20 else b)

/-- The pairs of a query. Between two separators there may be nothing, and a pair may have no
equals sign. -/
def pairs (query : List UInt8) : List (List UInt8 × List UInt8) :=
  ((query.splitOn 0x26).filter (· ≠ [])).map fun piece =>
    (decodeComponent (piece.takeWhile (· ≠ 0x3d)),
      decodeComponent ((piece.dropWhile (· ≠ 0x3d)).drop 1))

/-- A number below `bound` in decimal digits, with or without a plus sign. -/
def decimal (bound : ℕ) (bs : List UInt8) : Option ℕ :=
  let digits := if bs.head? = some 0x2b then bs.drop 1 else bs
  if digits ≠ [] ∧ digits.all Json.isDigit ∧ Json.ofDigits digits < bound then
    some (Json.ofDigits digits)
  else none

/-! ### Segments -/

theorem percentDecode_cons {b : UInt8} (h : b ≠ 0x25) (r : List UInt8) :
    percentDecode (b :: r) = b :: percentDecode r := by
  match r with
  | [] => rfl
  | [_] => rfl
  | _ :: _ :: _ => rw [percentDecode, if_neg h]

/-- What has no percent sign is decoded to itself. -/
theorem percentDecode_eq {bs : List UInt8} (h : ∀ b ∈ bs, b ≠ 0x25) : percentDecode bs = bs := by
  induction bs with
  | nil => rfl
  | cons b bs ih =>
    rw [List.forall_mem_cons] at h
    rw [percentDecode_cons h.1, ih h.2]

/-- What was encoded is decoded to what it was. -/
theorem percentDecode_percentEncode (bs : List UInt8) :
    percentDecode (percentEncode bs) = bs := by
  induction bs with
  | nil => rfl
  | cons b bs ih =>
    have hb := b.toNat_lt
    have hhigh : hexVal (hexDigit (b.toNat / 16)) = some (b.toNat / 16) :=
      Json.hexVal_hexDigit (by omega)
    have hlow : hexVal (hexDigit (b.toNat % 16)) = some (b.toNat % 16) :=
      Json.hexVal_hexDigit (by omega)
    have hsum : 16 * (b.toNat / 16) + b.toNat % 16 = b.toNat := by omega
    rw [percentEncode, List.flatMap_cons]
    change percentDecode (0x25 :: _ :: _ :: percentEncode bs) = _
    rw [percentDecode, if_pos rfl, hhigh, hlow]
    simp only [hsum, UInt8.ofNat_toNat, ih]

end UrlEncoding
