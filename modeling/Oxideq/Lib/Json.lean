import Mathlib.Data.String.Basic
import Mathlib.Data.Nat.Digits.Defs
import Mathlib.Tactic.NormNum

/-!
# JSON texts over bytes

A compact JSON printer and a parser for the whole grammar, on lists of bytes. The printer writes
no white space; the parser accepts white space, floating-point literals and every escape. Strings
are escaped character by character, so the text of a value is UTF-8 whenever it is printed.

The parser takes fuel for its nesting depth and its element lists. A text is parsed with one unit
for each of its bytes, which is always enough for a printed value
(`Json.parse_print`, in `Oxideq.Lib.JsonRoundTrip`).
-/

namespace Json

/-! ### UTF-8 -/

/-- The UTF-8 encoding of a string, as a list of bytes. -/
def utf8 (s : String) : List UInt8 := s.toList.flatMap String.utf8EncodeChar

/-- The string a list of bytes encodes, if it encodes one. -/
def ofUtf8 (bs : List UInt8) : Option String := String.fromUTF8? bs.toByteArray

/-- The bytes are the UTF-8 encoding of some string. -/
def ValidUtf8 (bs : List UInt8) : Prop := bs.toByteArray.IsValidUTF8

instance (bs : List UInt8) : Decidable (ValidUtf8 bs) :=
  inferInstanceAs (Decidable bs.toByteArray.IsValidUTF8)

theorem toByteArray_utf8 (s : String) : (utf8 s).toByteArray = s.toByteArray :=
  String.utf8Encode_toList

theorem ofUtf8_utf8 (s : String) : ofUtf8 (utf8 s) = some s := by
  unfold ofUtf8 String.fromUTF8?
  rw [toByteArray_utf8, dif_pos s.isValidUTF8]
  rfl

/-- Only the encoding of a string is read as that string. -/
theorem utf8_of_ofUtf8 {bs : List UInt8} {s : String} (h : ofUtf8 bs = some s) : utf8 s = bs := by
  unfold ofUtf8 String.fromUTF8? at h
  split at h
  · cases h
    have harr : (utf8 (String.fromUTF8 bs.toByteArray ‹_›)).toByteArray = bs.toByteArray :=
      toByteArray_utf8 _
    have hdata := congrArg (fun a => a.data.toList) harr
    simpa using hdata
  · cases h

/-- Every valid sequence of bytes is read as some string. -/
theorem ofUtf8_of_valid {bs : List UInt8} (h : ValidUtf8 bs) : ∃ s, ofUtf8 bs = some s := by
  unfold ofUtf8 String.fromUTF8?
  exact ⟨_, dif_pos h⟩

theorem ValidUtf8.append {bs bs' : List UInt8} (h : ValidUtf8 bs) (h' : ValidUtf8 bs') :
    ValidUtf8 (bs ++ bs') := by
  unfold ValidUtf8
  rw [List.toByteArray_append]
  exact ByteArray.IsValidUTF8.append h h'

theorem validUtf8_nil : ValidUtf8 [] := ByteArray.isValidUTF8_empty

theorem validUtf8_encodeChar (c : Char) : ValidUtf8 (String.utf8EncodeChar c) :=
  Char.isValidUTF8_toByteArray_utf8EncodeChar

theorem validUtf8_utf8 (s : String) : ValidUtf8 (utf8 s) := by
  unfold ValidUtf8
  rw [toByteArray_utf8]
  exact s.isValidUTF8

/-- A character below `0x80` is its own encoding. -/
theorem utf8EncodeChar_ascii {c : Char} (h : c.val.toNat < 0x80) :
    String.utf8EncodeChar c = [UInt8.ofNat c.val.toNat] := by
  unfold String.utf8EncodeChar
  simp only
  rw [if_pos (by omega)]

/-- The bytes of any other character are at least `0x80`. -/
theorem le_of_mem_utf8EncodeChar {c : Char} (h : 0x80 ≤ c.val.toNat) {b : UInt8}
    (hb : b ∈ String.utf8EncodeChar c) : 0x80 ≤ b := by
  have hlt : ∀ n, n < 0x100 → 0x80 ≤ n → (0x80 : UInt8) ≤ UInt8.ofNat n := by
    intro n hn hle
    rw [UInt8.le_iff_toNat_le, UInt8.toNat_ofNat', Nat.mod_eq_of_lt hn]
    exact hle
  unfold String.utf8EncodeChar at hb
  simp only at hb
  rw [if_neg (by omega)] at hb
  split at hb
  · simp only [List.mem_cons, List.not_mem_nil, or_false] at hb
    rcases hb with rfl | rfl <;> exact hlt _ (by omega) (by omega)
  · split at hb
    · simp only [List.mem_cons, List.not_mem_nil, or_false] at hb
      rcases hb with rfl | rfl | rfl <;> exact hlt _ (by omega) (by omega)
    · simp only [List.mem_cons, List.not_mem_nil, or_false] at hb
      rcases hb with rfl | rfl | rfl | rfl <;> exact hlt _ (by omega) (by omega)

/-- Bytes of ASCII text are UTF-8. -/
theorem validUtf8_ascii {bs : List UInt8} (h : ∀ b ∈ bs, b < 0x80) : ValidUtf8 bs := by
  induction bs with
  | nil => exact validUtf8_nil
  | cons b bs ih =>
    have hb : b.toNat < 0x80 := UInt8.lt_iff_toNat_lt.mp (h b List.mem_cons_self)
    have hv : (Char.ofNat b.toNat).val.toNat = b.toNat := by
      have hvalid : b.toNat.isValidChar := Or.inl (by omega)
      rw [Char.ofNat, dif_pos hvalid]
      rfl
    have hc : String.utf8EncodeChar (Char.ofNat b.toNat) = [b] := by
      rw [utf8EncodeChar_ascii (by rw [hv]; exact hb), hv, UInt8.ofNat_toNat]
    have hsplit : b :: bs = String.utf8EncodeChar (Char.ofNat b.toNat) ++ bs := by rw [hc]; rfl
    rw [hsplit]
    exact (validUtf8_encodeChar _).append (ih fun b hb => h b (List.mem_cons_of_mem _ hb))

/-! ### Values -/

/-- A JSON value. Integers are kept as such; any other number is kept as written. -/
inductive Value where
  | null
  | bool (b : Bool)
  | int (i : Int)
  | float (lexeme : List UInt8)
  | str (s : String)
  | arr (elems : List Value)
  | obj (members : List (String × Value))

/-! ### Printing -/

/-- The decimal digits of a natural number. -/
def natDigits (n : ℕ) : List UInt8 :=
  if n < 10 then [UInt8.ofNat (48 + n)]
  else natDigits (n / 10) ++ [UInt8.ofNat (48 + n % 10)]

def intDigits (i : Int) : List UInt8 :=
  if i < 0 then 0x2d :: natDigits i.natAbs else natDigits i.natAbs

def hexDigit (n : ℕ) : UInt8 := if n < 10 then UInt8.ofNat (48 + n) else UInt8.ofNat (87 + n)

/-- A character of a string: quote, backslash and control characters are escaped. -/
def escapeChar (c : Char) : List UInt8 :=
  if c.val.toNat = 0x22 then [0x5c, 0x22]
  else if c.val.toNat = 0x5c then [0x5c, 0x5c]
  else if c.val.toNat = 0x08 then [0x5c, 0x62]
  else if c.val.toNat = 0x09 then [0x5c, 0x74]
  else if c.val.toNat = 0x0a then [0x5c, 0x6e]
  else if c.val.toNat = 0x0c then [0x5c, 0x66]
  else if c.val.toNat = 0x0d then [0x5c, 0x72]
  else if c.val.toNat < 0x20 then
    [0x5c, 0x75, 0x30, 0x30, hexDigit (c.val.toNat / 16), hexDigit (c.val.toNat % 16)]
  else String.utf8EncodeChar c

def escapeString (s : String) : List UInt8 := s.toList.flatMap escapeChar

def printString (s : String) : List UInt8 := 0x22 :: (escapeString s ++ [0x22])

mutual

/-- The compact text of a value. -/
def print : Value → List UInt8
  | .null => [0x6e, 0x75, 0x6c, 0x6c]
  | .bool true => [0x74, 0x72, 0x75, 0x65]
  | .bool false => [0x66, 0x61, 0x6c, 0x73, 0x65]
  | .int i => intDigits i
  | .float lexeme => lexeme
  | .str s => printString s
  | .arr [] => [0x5b, 0x5d]
  | .arr (x :: xs) => 0x5b :: (print x ++ printElems xs ++ [0x5d])
  | .obj [] => [0x7b, 0x7d]
  | .obj ((k, v) :: ms) =>
    0x7b :: (printString k ++ 0x3a :: print v ++ printMembers ms ++ [0x7d])

/-- The elements of an array after its first. -/
def printElems : List Value → List UInt8
  | [] => []
  | x :: xs => 0x2c :: (print x ++ printElems xs)

/-- The members of an object after its first. -/
def printMembers : List (String × Value) → List UInt8
  | [] => []
  | (k, v) :: ms => 0x2c :: (printString k ++ 0x3a :: print v ++ printMembers ms)

end

/-! ### Parsing -/

def isWs (b : UInt8) : Bool := b == 0x20 || b == 0x09 || b == 0x0a || b == 0x0d

def skipWs (bs : List UInt8) : List UInt8 := bs.dropWhile isWs

def isDigit (b : UInt8) : Bool := 0x30 ≤ b && b ≤ 0x39

def digitVal (b : UInt8) : ℕ := b.toNat - 48

def ofDigits (bs : List UInt8) : ℕ := bs.foldl (fun n b => 10 * n + digitVal b) 0

def hexVal (b : UInt8) : Option ℕ :=
  if isDigit b then some (b.toNat - 48)
  else if 0x61 ≤ b ∧ b ≤ 0x66 then some (b.toNat - 87)
  else if 0x41 ≤ b ∧ b ≤ 0x46 then some (b.toNat - 55)
  else none

def hex4 (a b c d : UInt8) : Option ℕ := do
  let a ← hexVal a
  let b ← hexVal b
  let c ← hexVal c
  let d ← hexVal d
  return ((a * 16 + b) * 16 + c) * 16 + d

/-- The character of a one-letter escape. -/
def shortEscape (b : UInt8) : Option UInt8 :=
  if b = 0x22 then some 0x22
  else if b = 0x5c then some 0x5c
  else if b = 0x2f then some 0x2f
  else if b = 0x62 then some 0x08
  else if b = 0x66 then some 0x0c
  else if b = 0x6e then some 0x0a
  else if b = 0x72 then some 0x0d
  else if b = 0x74 then some 0x09
  else none

/-- The body of a string up to its closing quote: the bytes it stands for, and what follows.
A `\u` escape stands for the UTF-8 bytes of its character, two of them for one character beyond
the basic plane; an unpaired surrogate is an error. -/
def parseStringBody : List UInt8 → Option (List UInt8 × List UInt8)
  | [] => none
  | b :: r =>
    if b = 0x22 then some ([], r)
    else if b = 0x5c then
      match r with
      | [] => none
      | e :: r =>
        if e = 0x75 then
          match r with
          | h1 :: h2 :: h3 :: h4 :: r =>
            match hex4 h1 h2 h3 h4 with
            | none => none
            | some u =>
              if 0xd800 ≤ u ∧ u < 0xdc00 then
                match r with
                | s1 :: s2 :: l1 :: l2 :: l3 :: l4 :: r =>
                  match hex4 l1 l2 l3 l4 with
                  | none => none
                  | some l =>
                    if s1 = 0x5c ∧ s2 = 0x75 ∧ 0xdc00 ≤ l ∧ l < 0xe000 then
                      (parseStringBody r).map fun p =>
                        (String.utf8EncodeChar
                          (Char.ofNat (0x10000 + (u - 0xd800) * 0x400 + (l - 0xdc00))) ++ p.1, p.2)
                    else none
                | _ => none
              else if 0xdc00 ≤ u ∧ u < 0xe000 then none
              else
                (parseStringBody r).map fun p =>
                  (String.utf8EncodeChar (Char.ofNat u) ++ p.1, p.2)
          | _ => none
        else
          match shortEscape e with
          | none => none
          | some c => (parseStringBody r).map fun p => (c :: p.1, p.2)
    else if b < 0x20 then none
    else (parseStringBody r).map fun p => (b :: p.1, p.2)

/-- A string after its opening quote. -/
def parseString (bs : List UInt8) : Option (String × List UInt8) :=
  match parseStringBody bs with
  | none => none
  | some (body, r) => (ofUtf8 body).map fun s => (s, r)

/-- The rest of `bs` after the fixed text `word`. -/
def parseWord (word bs : List UInt8) : Option (List UInt8) :=
  if word.isPrefixOf bs then some (bs.drop word.length) else none

/-- The integer part of a number: a zero, or digits that do not start with one. -/
def parseIntPart : List UInt8 → Option (List UInt8 × List UInt8)
  | [] => none
  | b :: r =>
    if b = 0x30 then some ([b], r)
    else if isDigit b then some (b :: r.takeWhile isDigit, r.dropWhile isDigit)
    else none

/-- The fraction of a number, empty when there is none. -/
def parseFraction : List UInt8 → Option (List UInt8 × List UInt8)
  | [] => some ([], [])
  | b :: r =>
    if b = 0x2e then
      match r.takeWhile isDigit with
      | [] => none
      | d :: ds => some (b :: d :: ds, r.dropWhile isDigit)
    else some ([], b :: r)

/-- The sign of an exponent, empty when there is none. -/
def parseSign : List UInt8 → List UInt8 × List UInt8
  | [] => ([], [])
  | b :: r => if b = 0x2b ∨ b = 0x2d then ([b], r) else ([], b :: r)

/-- The exponent of a number, empty when there is none. -/
def parseExponent : List UInt8 → Option (List UInt8 × List UInt8)
  | [] => some ([], [])
  | b :: r =>
    if b = 0x65 ∨ b = 0x45 then
      match (parseSign r).2.takeWhile isDigit with
      | [] => none
      | d :: ds => some (b :: ((parseSign r).1 ++ d :: ds), (parseSign r).2.dropWhile isDigit)
    else some ([], b :: r)

/-- A number without its minus sign: its text, whether it is an integer, and what follows. -/
def parseUnsigned (bs : List UInt8) : Option (List UInt8 × Bool × List UInt8) :=
  match parseIntPart bs with
  | none => none
  | some (i, r) =>
    match parseFraction r with
    | none => none
    | some (f, r) =>
      match parseExponent r with
      | none => none
      | some (e, r) => some (i ++ f ++ e, f.isEmpty && e.isEmpty, r)

/-- A number. The text `-0` is read as a floating-point zero. -/
def parseNumber : List UInt8 → Option (Value × List UInt8)
  | [] => none
  | b :: r =>
    if b = 0x2d then
      match parseUnsigned r with
      | none => none
      | some (l, integral, r) =>
        if integral ∧ l ≠ [0x30] then some (.int (-(ofDigits l : ℕ)), r)
        else some (.float (b :: l), r)
    else
      match parseUnsigned (b :: r) with
      | none => none
      | some (l, integral, r) =>
        if integral then some (.int (ofDigits l), r) else some (.float l, r)

mutual

/-- A value, after optional white space. -/
def parseValue : ℕ → List UInt8 → Option (Value × List UInt8)
  | 0, _ => none
  | n + 1, bs =>
    match skipWs bs with
    | [] => none
    | b :: r =>
      if b = 0x22 then (parseString r).map fun p => (.str p.1, p.2)
      else if b = 0x5b then
        match skipWs r with
        | [] => none
        | c :: r' =>
          if c = 0x5d then some (.arr [], r')
          else
            match parseValue n (c :: r') with
            | none => none
            | some (x, r) => (parseElems n r).map fun p => (.arr (x :: p.1), p.2)
      else if b = 0x7b then
        match skipWs r with
        | [] => none
        | c :: r' =>
          if c = 0x7d then some (.obj [], r')
          else
            match parseMember n (c :: r') with
            | none => none
            | some (m, r) => (parseMembers n r).map fun p => (.obj (m :: p.1), p.2)
      else if b = 0x6e then (parseWord [0x75, 0x6c, 0x6c] r).map fun r => (.null, r)
      else if b = 0x74 then (parseWord [0x72, 0x75, 0x65] r).map fun r => (.bool true, r)
      else if b = 0x66 then
        (parseWord [0x61, 0x6c, 0x73, 0x65] r).map fun r => (.bool false, r)
      else parseNumber (b :: r)

/-- The rest of an array after an element, up to its closing bracket. -/
def parseElems : ℕ → List UInt8 → Option (List Value × List UInt8)
  | 0, _ => none
  | n + 1, bs =>
    match skipWs bs with
    | [] => none
    | b :: r =>
      if b = 0x5d then some ([], r)
      else if b = 0x2c then
        match parseValue n r with
        | none => none
        | some (x, r) => (parseElems n r).map fun p => (x :: p.1, p.2)
      else none

/-- A member of an object: its key, a colon and its value. -/
def parseMember : ℕ → List UInt8 → Option ((String × Value) × List UInt8)
  | 0, _ => none
  | n + 1, bs =>
    match skipWs bs with
    | [] => none
    | b :: r =>
      if b = 0x22 then
        match parseString r with
        | none => none
        | some (k, r) =>
          match skipWs r with
          | [] => none
          | c :: r =>
            if c = 0x3a then (parseValue n r).map fun p => ((k, p.1), p.2) else none
      else none

/-- The rest of an object after a member, up to its closing brace. -/
def parseMembers : ℕ → List UInt8 → Option (List (String × Value) × List UInt8)
  | 0, _ => none
  | n + 1, bs =>
    match skipWs bs with
    | [] => none
    | b :: r =>
      if b = 0x7d then some ([], r)
      else if b = 0x2c then
        match parseMember n r with
        | none => none
        | some (m, r) => (parseMembers n r).map fun p => (m :: p.1, p.2)
      else none

end

/-- The value of a text: one value, white space around it, and nothing else. -/
def parse (bs : List UInt8) : Option Value :=
  match parseValue (bs.length + 1) bs with
  | none => none
  | some (v, r) => if skipWs r = [] then some v else none

end Json
