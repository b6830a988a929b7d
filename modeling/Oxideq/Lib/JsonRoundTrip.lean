import Oxideq.Lib.Json
import Mathlib.Tactic.Linarith

/-!
# Parsing what was printed

`Json.parse_print`: the parser inverts the printer on every value without floating-point
literals. The proof follows the printer: digits, characters, strings, and then values, element
lists and member lists by one mutual recursion. The parser is run on a printed value followed by
any bytes that do not continue a number, and with at least as much fuel as the printed text has
bytes.

The last section is for readers that tell formats apart by their first byte: which bytes start a
text, which are a text of their own, and with which byte a value is printed.
-/

namespace Json

/-! ### Numbers -/

theorem isDigit_iff (b : UInt8) : isDigit b = true ↔ 48 ≤ b.toNat ∧ b.toNat ≤ 57 := by
  simp [isDigit, UInt8.le_iff_toNat_le]

theorem toNat_ofNat_digit {n : ℕ} (h : n < 10) : (UInt8.ofNat (48 + n)).toNat = 48 + n := by
  rw [UInt8.toNat_ofNat', Nat.mod_eq_of_lt (by omega)]

theorem isDigit_ofNat {n : ℕ} (h : n < 10) : isDigit (UInt8.ofNat (48 + n)) = true := by
  rw [isDigit_iff, toNat_ofNat_digit h]
  omega

theorem digitVal_ofNat {n : ℕ} (h : n < 10) : digitVal (UInt8.ofNat (48 + n)) = n := by
  unfold digitVal
  rw [toNat_ofNat_digit h]
  omega

theorem isDigit_of_mem_natDigits (n : ℕ) : ∀ b ∈ natDigits n, isDigit b = true := by
  induction n using Nat.strong_induction_on with
  | _ n ih =>
    intro b hb
    rw [natDigits] at hb
    split at hb
    · next hn =>
      rw [List.mem_singleton.mp hb]
      exact isDigit_ofNat hn
    · rcases List.mem_append.mp hb with hb | hb
      · exact ih (n / 10) (by omega) b hb
      · rw [List.mem_singleton.mp hb]
        exact isDigit_ofNat (by omega)

theorem ofDigits_natDigits (n : ℕ) : ofDigits (natDigits n) = n := by
  induction n using Nat.strong_induction_on with
  | _ n ih =>
    rw [natDigits]
    split
    · next hn =>
      unfold ofDigits
      rw [List.foldl_cons, List.foldl_nil, digitVal_ofNat hn]
      omega
    · have h := ih (n / 10) (by omega)
      unfold ofDigits at h ⊢
      rw [List.foldl_append, h, List.foldl_cons, List.foldl_nil, digitVal_ofNat (by omega)]
      omega

/-- Only zero is printed with a leading zero. -/
theorem head_natDigits (n : ℕ) :
    ∃ d ds, natDigits n = d :: ds ∧ isDigit d = true ∧ (d = 0x30 → n = 0 ∧ ds = []) := by
  induction n using Nat.strong_induction_on with
  | _ n ih =>
    rw [natDigits]
    split
    · next hn =>
      refine ⟨_, [], rfl, isDigit_ofNat hn, fun h => ⟨?_, rfl⟩⟩
      have := congrArg UInt8.toNat h
      rw [toNat_ofNat_digit hn] at this
      simpa using this
    · next hn =>
      obtain ⟨d, ds, hd, hdig, hz⟩ := ih (n / 10) (by omega)
      refine ⟨d, ds ++ [UInt8.ofNat (48 + n % 10)], by rw [hd]; rfl, hdig, fun h => ?_⟩
      have := (hz h).1
      omega

/-- The byte continues a number: a digit, a point or an exponent mark. -/
def continuesNumber (b : UInt8) : Bool := isDigit b || b == 0x2e || b == 0x65 || b == 0x45

/-- What follows a printed value does not continue a number. -/
def Stops (r : List UInt8) : Prop := ∀ b r', r = b :: r' → continuesNumber b = false

theorem stops_nil : Stops [] := fun _ _ h => by cases h

theorem stops_cons {b : UInt8} (h : continuesNumber b = false) (r : List UInt8) :
    Stops (b :: r) := by
  rintro b' r' ⟨⟩
  exact h

theorem takeWhile_digits {ds r : List UInt8} (hds : ∀ b ∈ ds, isDigit b = true) (hr : Stops r) :
    (ds ++ r).takeWhile isDigit = ds ∧ (ds ++ r).dropWhile isDigit = r := by
  rw [List.takeWhile_append_of_pos hds, List.dropWhile_append_of_pos hds]
  cases r with
  | nil => simp
  | cons b r =>
    have hb : isDigit b = false := by
      have := hr b r rfl
      simp only [continuesNumber, Bool.or_eq_false_iff] at this
      exact this.1.1.1
    simp [hb]

theorem parseFraction_stops {r : List UInt8} (hr : Stops r) : parseFraction r = some ([], r) := by
  cases r with
  | nil => rfl
  | cons b r =>
    have hb := hr b r rfl
    simp only [continuesNumber, Bool.or_eq_false_iff, beq_eq_false_iff_ne] at hb
    simp [parseFraction, hb.1.1.2]

theorem parseExponent_stops {r : List UInt8} (hr : Stops r) : parseExponent r = some ([], r) := by
  cases r with
  | nil => rfl
  | cons b r =>
    have hb := hr b r rfl
    simp only [continuesNumber, Bool.or_eq_false_iff, beq_eq_false_iff_ne] at hb
    simp [parseExponent, hb.1.2, hb.2]

theorem parseIntPart_natDigits (n : ℕ) {r : List UInt8} (hr : Stops r) :
    parseIntPart (natDigits n ++ r) = some (natDigits n, r) := by
  obtain ⟨d, ds, hd, hdig, hz⟩ := head_natDigits n
  have hds : ∀ b ∈ ds, isDigit b = true := fun b hb =>
    isDigit_of_mem_natDigits n b (by rw [hd]; exact List.mem_cons_of_mem _ hb)
  obtain ⟨htake, hdrop⟩ := takeWhile_digits hds hr
  rw [hd]
  rw [List.cons_append, parseIntPart]
  split
  · next h => rw [(hz h).2, List.nil_append]
  · rw [htake, hdrop]

theorem parseUnsigned_natDigits (n : ℕ) {r : List UInt8} (hr : Stops r) :
    parseUnsigned (natDigits n ++ r) = some (natDigits n, true, r) := by
  simp [parseUnsigned, parseIntPart_natDigits n hr, parseFraction_stops hr,
    parseExponent_stops hr]

theorem parseNumber_intDigits (i : Int) {r : List UInt8} (hr : Stops r) :
    parseNumber (intDigits i ++ r) = some (.int i, r) := by
  unfold intDigits
  split
  · next hi =>
    simp only [List.cons_append, parseNumber, if_true, parseUnsigned_natDigits _ hr,
      ofDigits_natDigits]
    have hne : natDigits i.natAbs ≠ [0x30] := by
      intro h
      have := congrArg ofDigits h
      rw [ofDigits_natDigits] at this
      simp [ofDigits, digitVal] at this
      omega
    rw [if_pos ⟨trivial, hne⟩, Int.natCast_natAbs, abs_of_neg hi, neg_neg]
  · next hi =>
    obtain ⟨d, ds, hd, hdig, -⟩ := head_natDigits i.natAbs
    have hne : d ≠ 0x2d := by
      rintro rfl
      simp [isDigit] at hdig
    have hp := parseUnsigned_natDigits i.natAbs hr
    rw [hd] at hp
    simp only [hd, List.cons_append, parseNumber, if_neg hne]
    rw [List.cons_append] at hp
    rw [hp]
    simp only [if_true]
    rw [← hd, ofDigits_natDigits, Int.natCast_natAbs, abs_of_nonneg (by omega)]

/-! ### Strings -/

theorem hexVal_hexDigit {n : ℕ} (h : n < 16) : hexVal (hexDigit n) = some n := by
  have hall : ∀ n < 16, hexVal (hexDigit n) = some n := by decide
  exact hall n h

/-- A byte that needs no escape is read as itself. -/
theorem parseStringBody_plain {b : UInt8} (h1 : b ≠ 0x22) (h2 : b ≠ 0x5c) (h3 : ¬ b < 0x20)
    (r : List UInt8) :
    parseStringBody (b :: r) = (parseStringBody r).map fun p => (b :: p.1, p.2) := by
  rw [parseStringBody.eq_def]
  simp only [if_neg h1, if_neg h2, if_neg h3]

theorem parseStringBody_plains {bs : List UInt8}
    (h : ∀ b ∈ bs, b ≠ 0x22 ∧ b ≠ 0x5c ∧ ¬ b < 0x20) (r : List UInt8) :
    parseStringBody (bs ++ r) = (parseStringBody r).map fun p => (bs ++ p.1, p.2) := by
  induction bs with
  | nil => simp
  | cons b bs ih =>
    obtain ⟨h1, h2, h3⟩ := h b List.mem_cons_self
    rw [List.cons_append, parseStringBody_plain h1 h2 h3,
      ih fun b hb => h b (List.mem_cons_of_mem _ hb), Option.map_map]
    rfl

theorem parseStringBody_short {e c : UInt8} (hu : e ≠ 0x75) (he : shortEscape e = some c)
    (r : List UInt8) :
    parseStringBody (0x5c :: e :: r) = (parseStringBody r).map fun p => (c :: p.1, p.2) := by
  rw [parseStringBody.eq_def]
  simp only [if_neg (show ¬ (0x5c : UInt8) = 0x22 by decide), if_true, if_neg hu, he]

theorem parseStringBody_control {n : ℕ} (hn : n < 0x20) (r : List UInt8) :
    parseStringBody (0x5c :: 0x75 :: 0x30 :: 0x30 :: hexDigit (n / 16) :: hexDigit (n % 16) :: r)
      = (parseStringBody r).map fun p =>
        (String.utf8EncodeChar (Char.ofNat n) ++ p.1, p.2) := by
  have h0 : hexVal 0x30 = some 0 := by decide
  have hx : hex4 0x30 0x30 (hexDigit (n / 16)) (hexDigit (n % 16)) = some n := by
    simp only [hex4, h0, hexVal_hexDigit (show n / 16 < 16 by omega),
      hexVal_hexDigit (show n % 16 < 16 by omega), Option.bind_eq_bind, Option.bind_some,
      Option.pure_def, Option.some.injEq]
    omega
  have hhi : ¬ (0xd800 ≤ n ∧ n < 0xdc00) := by omega
  have hlo : ¬ (0xdc00 ≤ n ∧ n < 0xe000) := by omega
  rw [parseStringBody.eq_def]
  simp only [if_neg (show ¬ (0x5c : UInt8) = 0x22 by decide), if_true, hx, if_neg hhi, if_neg hlo]

theorem encodeChar_of_val {c : Char} {n : ℕ} (h : c.val.toNat = n) (hn : n < 0x80) :
    String.utf8EncodeChar c = [UInt8.ofNat n] := by
  rw [utf8EncodeChar_ascii (by omega), h]

/-- The escape of a character is read as the bytes of the character. -/
theorem parseStringBody_escapeChar (c : Char) (r : List UInt8) :
    parseStringBody (escapeChar c ++ r)
      = (parseStringBody r).map fun p => (String.utf8EncodeChar c ++ p.1, p.2) := by
  unfold escapeChar
  split
  · next h => rw [encodeChar_of_val h (by omega)]; exact parseStringBody_short (by decide) rfl r
  split
  · next h => rw [encodeChar_of_val h (by omega)]; exact parseStringBody_short (by decide) rfl r
  split
  · next h => rw [encodeChar_of_val h (by omega)]; exact parseStringBody_short (by decide) rfl r
  split
  · next h => rw [encodeChar_of_val h (by omega)]; exact parseStringBody_short (by decide) rfl r
  split
  · next h => rw [encodeChar_of_val h (by omega)]; exact parseStringBody_short (by decide) rfl r
  split
  · next h => rw [encodeChar_of_val h (by omega)]; exact parseStringBody_short (by decide) rfl r
  split
  · next h => rw [encodeChar_of_val h (by omega)]; exact parseStringBody_short (by decide) rfl r
  split
  · next h =>
    have hc : Char.ofNat c.val.toNat = c := Char.ofNat_toNat c
    simp only [List.cons_append, List.nil_append]
    rw [parseStringBody_control h r, hc]
  · next hq hb _ _ _ _ _ hctl =>
    -- what is left is printed as it is; none of its bytes is a quote, a backslash or a control
    refine parseStringBody_plains (fun b hb' => ?_) r
    by_cases hascii : c.val.toNat < 0x80
    · rw [utf8EncodeChar_ascii hascii, List.mem_singleton] at hb'
      have hb'' : b.toNat = c.val.toNat := by
        rw [hb', UInt8.toNat_ofNat', Nat.mod_eq_of_lt (by omega)]
      refine ⟨?_, ?_, ?_⟩
      · rintro rfl; exact hq hb''.symm
      · rintro rfl; exact hb hb''.symm
      · rw [UInt8.lt_iff_toNat_lt, hb'']; exact hctl
    · have hle := UInt8.le_iff_toNat_le.mp (le_of_mem_utf8EncodeChar (by omega) hb')
      refine ⟨?_, ?_, ?_⟩
      · rintro rfl; revert hle; decide
      · rintro rfl; revert hle; decide
      · rw [UInt8.lt_iff_toNat_lt]
        simp only [UInt8.reduceToNat] at hle ⊢
        omega

theorem parseString_escapeString (s : String) (r : List UInt8) :
    parseString (escapeString s ++ 0x22 :: r) = some (s, r) := by
  have hbody : ∀ cs : List Char, parseStringBody (cs.flatMap escapeChar ++ 0x22 :: r)
      = some (cs.flatMap String.utf8EncodeChar, r) := by
    intro cs
    induction cs with
    | nil => rw [List.flatMap_nil, List.nil_append, parseStringBody.eq_def]; rfl
    | cons c cs ih =>
      rw [List.flatMap_cons, List.append_assoc, parseStringBody_escapeChar, ih, Option.map_some,
        List.flatMap_cons]
  unfold parseString escapeString
  rw [hbody]
  have hutf8 : ofUtf8 (s.toList.flatMap String.utf8EncodeChar) = some s := ofUtf8_utf8 s
  simp only [hutf8, Option.map_some]

/-! ### Values -/

mutual

/-- No number of the value is a floating-point literal. -/
def noFloat : Value → Bool
  | .null => true
  | .bool _ => true
  | .int _ => true
  | .float _ => false
  | .str _ => true
  | .arr xs => noFloats xs
  | .obj ms => noFloatMembers ms

def noFloats : List Value → Bool
  | [] => true
  | x :: xs => noFloat x && noFloats xs

def noFloatMembers : List (String × Value) → Bool
  | [] => true
  | (_, v) :: ms => noFloat v && noFloatMembers ms

end

theorem skipWs_cons {b : UInt8} (h : isWs b = false) (r : List UInt8) :
    skipWs (b :: r) = b :: r := by
  unfold skipWs
  rw [List.dropWhile_cons_of_neg (by simp [h])]

/-- A printed value does not start with white space or a closing bracket. -/
theorem head_print {v : Value} (hv : noFloat v = true) :
    ∃ b t, print v = b :: t ∧ isWs b = false ∧ b ≠ 0x5d := by
  cases v with
  | null => exact ⟨_, _, by rw [print], by decide, by decide⟩
  | bool b => cases b <;> exact ⟨_, _, by rw [print], by decide, by decide⟩
  | int i =>
    rw [print, intDigits]
    obtain ⟨d, ds, hd, hdig, -⟩ := head_natDigits i.natAbs
    rw [isDigit_iff] at hdig
    split
    · exact ⟨_, _, rfl, by decide, by decide⟩
    · refine ⟨d, ds, hd, ?_, ?_⟩
      · simp only [isWs, Bool.or_eq_false_iff, beq_eq_false_iff_ne]
        refine ⟨⟨⟨?_, ?_⟩, ?_⟩, ?_⟩ <;> (rintro rfl; revert hdig; decide)
      · rintro rfl; revert hdig; decide
  | float l => rw [noFloat] at hv; cases hv
  | str s => exact ⟨_, _, by rw [print]; rfl, by decide, by decide⟩
  | arr xs => cases xs <;> exact ⟨_, _, by rw [print], by decide, by decide⟩
  | obj ms => cases ms <;> exact ⟨_, _, by rw [print], by decide, by decide⟩

theorem parseWord_append (word r : List UInt8) : parseWord word (word ++ r) = some r := by
  unfold parseWord
  rw [if_pos (List.isPrefixOf_iff_prefix.mpr (List.prefix_append word r)),
    List.drop_left]

theorem parseValue_int (i : Int) (n : ℕ) {r : List UInt8} (hr : Stops r) :
    parseValue (n + 1) (intDigits i ++ r) = some (.int i, r) := by
  obtain ⟨b, t, hbt, hws, -⟩ := head_print (v := .int i) rfl
  rw [print] at hbt
  have hnum := parseNumber_intDigits i hr
  have hcases : b = 0x2d ∨ isDigit b = true := by
    unfold intDigits at hbt
    obtain ⟨d, ds, hd, hdig, -⟩ := head_natDigits i.natAbs
    split at hbt
    · left; cases hbt; rfl
    · right; rw [hd] at hbt; cases hbt; exact hdig
  have hne : b ≠ 0x22 ∧ b ≠ 0x5b ∧ b ≠ 0x7b ∧ b ≠ 0x6e ∧ b ≠ 0x74 ∧ b ≠ 0x66 := by
    rw [isDigit_iff] at hcases
    refine ⟨?_, ?_, ?_, ?_, ?_, ?_⟩ <;> (rintro rfl; revert hcases; decide)
  obtain ⟨h1, h2, h3, h4, h5, h6⟩ := hne
  rw [hbt, List.cons_append] at hnum ⊢
  rw [parseValue, skipWs_cons hws]
  simp only [if_neg h1, if_neg h2, if_neg h3, if_neg h4, if_neg h5, if_neg h6]
  exact hnum

mutual

theorem parseValue_print : ∀ (v : Value) (n : ℕ) (r : List UInt8), noFloat v = true →
    (print v).length ≤ n → Stops r → parseValue n (print v ++ r) = some (v, r)
  | v, 0, _, hv, hn, _ => by
    obtain ⟨b, t, hbt, -⟩ := head_print hv
    rw [hbt] at hn
    cases hn
  | .null, n + 1, r, _, _, _ => by
    rw [print, List.cons_append, parseValue, skipWs_cons (by decide)]
    simpa using parseWord_append [0x75, 0x6c, 0x6c] r
  | .bool true, n + 1, r, _, _, _ => by
    rw [print, List.cons_append, parseValue, skipWs_cons (by decide)]
    simpa using parseWord_append [0x72, 0x75, 0x65] r
  | .bool false, n + 1, r, _, _, _ => by
    rw [print, List.cons_append, parseValue, skipWs_cons (by decide)]
    simpa using parseWord_append [0x61, 0x6c, 0x73, 0x65] r
  | .int i, n + 1, r, _, _, hr => by
    rw [print]
    exact parseValue_int i n hr
  | .float l, _ + 1, _, hv, _, _ => by rw [noFloat] at hv; cases hv
  | .str s, n + 1, r, _, _, _ => by
    rw [print, printString, List.cons_append, parseValue, skipWs_cons (by decide)]
    simp [parseString_escapeString]
  | .arr [], n + 1, r, _, _, _ => by
    rw [print, List.cons_append, parseValue, skipWs_cons (by decide)]
    simp [skipWs_cons (show isWs 0x5d = false by decide)]
  | .arr (x :: xs), n + 1, r, hv, hn, hr => by
    rw [noFloat, noFloats, Bool.and_eq_true] at hv
    rw [print, List.length_cons, List.length_append, List.length_append, List.length_singleton]
      at hn
    obtain ⟨b, t, hbt, hws, hclose⟩ := head_print hv.1
    have hstop : Stops (printElems xs ++ 0x5d :: r) := by
      cases xs with
      | nil => exact stops_cons (by decide) _
      | cons y ys => rw [printElems]; exact stops_cons (by decide) _
    have hx := parseValue_print x n (printElems xs ++ 0x5d :: r) hv.1 (by omega) hstop
    have hxs := parseElems_print xs n r hv.2 (by omega)
    rw [hbt] at hx
    rw [print, List.cons_append, parseValue, skipWs_cons (by decide)]
    simp only [hbt, List.cons_append, List.append_assoc, List.nil_append] at hx ⊢
    simp only [skipWs_cons hws, if_neg hclose, hx, hxs, Option.map_some, if_true,
      if_neg (show ¬ (0x5b : UInt8) = 0x22 by decide)]
  | .obj [], n + 1, r, _, _, _ => by
    rw [print, List.cons_append, parseValue, skipWs_cons (by decide)]
    simp [skipWs_cons (show isWs 0x7d = false by decide)]
  | .obj ((k, v) :: ms), n + 1, r, hv, hn, hr => by
    rw [noFloat, noFloatMembers, Bool.and_eq_true] at hv
    rw [print] at hn
    simp only [List.length_cons, List.length_append, List.length_nil] at hn
    have hstop : Stops (printMembers ms ++ 0x7d :: r) := by
      cases ms with
      | nil => exact stops_cons (by decide) _
      | cons m ms => rw [printMembers]; exact stops_cons (by decide) _
    have hm := parseMember_print k v n (printMembers ms ++ 0x7d :: r) hv.1 (by
      simp only [List.length_cons, List.length_append]; omega) hstop
    have hms := parseMembers_print ms n r hv.2 (by omega)
    rw [print, List.cons_append, parseValue, skipWs_cons (by decide)]
    simp only [printString, List.cons_append, List.append_assoc, List.nil_append] at hm ⊢
    simp only [skipWs_cons (show isWs 0x22 = false by decide), hm, hms, Option.map_some, if_true,
      if_neg (show ¬ (0x7b : UInt8) = 0x22 by decide),
      if_neg (show ¬ (0x7b : UInt8) = 0x5b by decide),
      if_neg (show ¬ (0x22 : UInt8) = 0x7d by decide)]

theorem parseElems_print : ∀ (xs : List Value) (n : ℕ) (r : List UInt8), noFloats xs = true →
    (printElems xs).length + 1 ≤ n → parseElems n (printElems xs ++ 0x5d :: r) = some (xs, r)
  | _, 0, _, _, hn => by cases hn
  | [], n + 1, r, _, _ => by
    rw [printElems, List.nil_append, parseElems, skipWs_cons (by decide)]
    simp
  | x :: xs, n + 1, r, hv, hn => by
    rw [noFloats, Bool.and_eq_true] at hv
    rw [printElems, List.length_cons, List.length_append] at hn
    have hstop : Stops (printElems xs ++ 0x5d :: r) := by
      cases xs with
      | nil => exact stops_cons (by decide) _
      | cons y ys => rw [printElems]; exact stops_cons (by decide) _
    have hx := parseValue_print x n (printElems xs ++ 0x5d :: r) hv.1 (by omega) hstop
    have hxs := parseElems_print xs n r hv.2 (by omega)
    rw [printElems, List.cons_append, parseElems, skipWs_cons (by decide)]
    simp only [List.append_assoc, if_neg (show ¬ (0x2c : UInt8) = 0x5d by decide), if_true, hx,
      hxs, Option.map_some]

theorem parseMember_print : ∀ (k : String) (v : Value) (n : ℕ) (r : List UInt8),
    noFloat v = true → (printString k ++ 0x3a :: print v).length ≤ n → Stops r →
    parseMember n (printString k ++ 0x3a :: print v ++ r) = some ((k, v), r)
  | _, _, 0, _, _, hn, _ => by simp [printString] at hn
  | k, v, n + 1, r, hv, hn, hr => by
    simp only [printString, List.length_cons, List.length_append, List.length_nil] at hn
    have hval := parseValue_print v n r hv (by omega) hr
    rw [printString, List.append_assoc, List.cons_append, parseMember,
      skipWs_cons (by decide)]
    simp only [List.append_assoc, List.cons_append, List.nil_append, if_true,
      parseString_escapeString, skipWs_cons (show isWs 0x3a = false by decide), hval,
      Option.map_some]

theorem parseMembers_print : ∀ (ms : List (String × Value)) (n : ℕ) (r : List UInt8),
    noFloatMembers ms = true → (printMembers ms).length + 1 ≤ n →
    parseMembers n (printMembers ms ++ 0x7d :: r) = some (ms, r)
  | _, 0, _, _, hn => by cases hn
  | [], n + 1, r, _, _ => by
    rw [printMembers, List.nil_append, parseMembers, skipWs_cons (by decide)]
    simp
  | (k, v) :: ms, n + 1, r, hv, hn => by
    rw [noFloatMembers, Bool.and_eq_true] at hv
    rw [printMembers] at hn
    simp only [List.length_cons, List.length_append] at hn
    have hstop : Stops (printMembers ms ++ 0x7d :: r) := by
      cases ms with
      | nil => exact stops_cons (by decide) _
      | cons m ms => rw [printMembers]; exact stops_cons (by decide) _
    have hm := parseMember_print k v n (printMembers ms ++ 0x7d :: r) hv.1 (by
      simp only [List.length_cons, List.length_append]; omega) hstop
    have hms := parseMembers_print ms n r hv.2 (by omega)
    rw [printMembers, List.cons_append, parseMembers, skipWs_cons (by decide)]
    simp only [List.append_assoc, List.cons_append] at hm ⊢
    simp only [if_neg (show ¬ (0x2c : UInt8) = 0x7d by decide), if_true, hm, hms,
      Option.map_some]

end

/-- **Round trip.** The parser reads back every printed value. -/
theorem parse_print {v : Value} (hv : noFloat v = true) : parse (print v) = some v := by
  have h := parseValue_print v ((print v).length + 1) [] hv (by omega) stops_nil
  rw [List.append_nil] at h
  unfold parse
  simp only [h]
  rfl

/-- A printed value followed by anything but white space is not a text. -/
theorem parse_print_append {v : Value} (hv : noFloat v = true) {b : UInt8} {r : List UInt8}
    (hb : continuesNumber b = false) (hws : isWs b = false) :
    parse (print v ++ b :: r) = none := by
  have h := parseValue_print v ((print v ++ b :: r).length + 1) (b :: r) hv
    (by rw [List.length_append]; omega) (stops_cons hb r)
  unfold parse
  simp only [h, skipWs_cons hws]
  rfl

/-! ### First bytes -/

/-- Of the texts of one byte the digits are values. -/
theorem parse_digit {b : UInt8} (h : isDigit b = true) : parse [b] = some (.int (digitVal b)) := by
  rw [isDigit_iff] at h
  have hval : digitVal b < 10 := by unfold digitVal; omega
  have hprint : print (.int (digitVal b)) = [b] := by
    have hb : UInt8.ofNat (48 + digitVal b) = b := by
      rw [digitVal, Nat.add_sub_cancel' h.1, UInt8.ofNat_toNat]
    rw [print, intDigits, if_neg (by omega), Int.natAbs_natCast, natDigits, if_pos hval, hb]
  rw [← hprint]
  exact parse_print rfl

theorem parse_byte {b : UInt8} (h : isDigit b = false) : parse [b] = none := by
  have hall : ∀ n < 256, isDigit (UInt8.ofNat n) = false →
      (parse [UInt8.ofNat n]).isNone = true := by
    decide +kernel
  have hb := hall b.toNat b.toNat_lt
  rw [UInt8.ofNat_toNat] at hb
  exact Option.isNone_iff_eq_none.mp (hb h)

/-- No text starts with a byte from `0x80` on. -/
theorem parse_high {b : UInt8} (h : 0x80 ≤ b) (r : List UInt8) : parse (b :: r) = none := by
  have hne : ∀ c : UInt8, c < 0x80 → b ≠ c := by
    rintro c hc rfl
    rw [UInt8.le_iff_toNat_le] at h
    rw [UInt8.lt_iff_toNat_lt] at hc
    omega
  have hws : isWs b = false := by
    simp only [isWs, Bool.or_eq_false_iff, beq_eq_false_iff_ne]
    exact ⟨⟨⟨hne _ (by decide), hne _ (by decide)⟩, hne _ (by decide)⟩, hne _ (by decide)⟩
  have hdigit : isDigit b = false := by
    rw [Bool.eq_false_iff, ne_eq, isDigit_iff]
    rw [UInt8.le_iff_toNat_le] at h
    have h80 : (0x80 : UInt8).toNat = 128 := rfl
    omega
  have hnumber : parseNumber (b :: r) = none := by
    have hint : parseIntPart (b :: r) = none := by
      rw [parseIntPart, if_neg (hne _ (by decide)), if_neg (by rw [hdigit]; decide)]
    rw [parseNumber, if_neg (hne _ (by decide)), parseUnsigned, hint]
  unfold parse
  rw [parseValue, skipWs_cons hws]
  simp only [if_neg (hne 0x22 (by decide)), if_neg (hne 0x5b (by decide)),
    if_neg (hne 0x7b (by decide)), if_neg (hne 0x6e (by decide)), if_neg (hne 0x74 (by decide)),
    if_neg (hne 0x66 (by decide)), hnumber]

/-- The first byte of a value that is neither an object nor an array, and when it is the number
of that byte itself: `53` is printed with a `5`, whose byte is `53`. -/
theorem first_byte {v : Value} (hv : noFloat v = true) (harr : ∀ xs, v ≠ .arr xs)
    (hobj : ∀ ms, v ≠ .obj ms) : ∃ b r, print v = b :: r ∧ b < 0x80 ∧ b ≠ 0x5b ∧ b ≠ 0x7b ∧
      (v = .int b.toNat ↔ v = .int 53) := by
  have hother : ∀ b : UInt8, (∀ i, v ≠ .int i) → (v = .int b.toNat ↔ v = .int 53) :=
    fun b h => iff_of_false (h _) (h _)
  cases v with
  | null =>
    exact ⟨_, _, by rw [print], by decide, by decide, by decide, hother _ fun _ h => nomatch h⟩
  | bool b =>
    cases b
    · exact ⟨_, _, by rw [print], by decide, by decide, by decide, hother _ fun _ h => nomatch h⟩
    · exact ⟨_, _, by rw [print], by decide, by decide, by decide, hother _ fun _ h => nomatch h⟩
  | float l => rw [noFloat] at hv; cases hv
  | str s =>
    exact ⟨_, _, by rw [print, printString], by decide, by decide, by decide,
      hother _ fun _ h => nomatch h⟩
  | arr xs => exact absurd rfl (harr xs)
  | obj ms => exact absurd rfl (hobj ms)
  | int i =>
    rw [print, intDigits]
    split
    · next hi =>
      refine ⟨_, _, rfl, by decide, by decide, by decide, iff_of_false ?_ ?_⟩
      · intro h
        have h45 : i = 45 := Value.int.inj h
        omega
      · intro h
        have h53 : i = 53 := Value.int.inj h
        omega
    · next hi =>
      obtain ⟨d, ds, hd, hdig, -⟩ := head_natDigits i.natAbs
      have hdig' := (isDigit_iff d).mp hdig
      refine ⟨d, ds, hd, ?_, ?_, ?_, ?_⟩
      · rw [UInt8.lt_iff_toNat_lt]
        exact lt_of_le_of_lt hdig'.2 (by decide)
      · rintro rfl
        exact absurd hdig (by decide)
      · rintro rfl
        exact absurd hdig (by decide)
      · -- the first of two digits is `48 + n / 10`, which is `n` for `53` only
        have hhead : ∀ n, 48 ≤ n → n ≤ 57 → natDigits n
            = UInt8.ofNat (48 + n / 10) :: [UInt8.ofNat (48 + n % 10)] := by
          intro n h1 h2
          rw [natDigits, if_neg (by omega), natDigits, if_pos (by omega)]
          rfl
        constructor
        · intro h
          have hi' : i = d.toNat := Value.int.inj h
          have habs : i.natAbs = d.toNat := by omega
          rw [habs, hhead d.toNat hdig'.1 hdig'.2] at hd
          have hd' := congrArg UInt8.toNat (List.cons.inj hd).1
          rw [UInt8.toNat_ofNat', Nat.mod_eq_of_lt (by omega)] at hd'
          have h53 : i = 53 := by omega
          rw [h53]
        · intro h
          have hi' : i = 53 := Value.int.inj h
          have habs : i.natAbs = 53 := by omega
          rw [habs, hhead 53 (by decide) (by decide)] at hd
          rw [h, ← (List.cons.inj hd).1]
          rfl

end Json
