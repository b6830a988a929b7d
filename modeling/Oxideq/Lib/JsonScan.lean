import Oxideq.Lib.JsonRoundTrip
import Mathlib.Data.List.TakeWhile

/-!
# Bracket depth of JSON texts

A one-pass scanner that follows a JSON text byte by byte, knowing only whether it is inside a
string and how many brackets are open. Every text the parser accepts brings it back to depth zero
outside a string (`scan_of_parse`).

It is used to show that a text which was cut off cannot be completed by a second text written
behind it: `parse_torn_append`. Where the cut is outside a string, a bracket stays open; where it
is inside one, the first quote of the second text closes it, and the key that follows is read
outside a string, where no letter of it may stand.
-/

namespace Json

/-- Where the scanner stands, at some bracket depth. -/
inductive Mode where
  | text
  | string
  | escape
  deriving DecidableEq

/-- A byte outside a string that neither opens nor closes anything: white space, a separator, or
a byte of a literal. -/
def isFiller (b : UInt8) : Bool :=
  isWs b || isDigit b || b ∈ [0x2c, 0x3a, 0x2b, 0x2d, 0x2e, 0x45, 0x61, 0x65, 0x66, 0x6c, 0x6e,
    0x72, 0x73, 0x74, 0x75]

/-- One byte. Closing a bracket that is not open is an error, and so is a byte that no text has
outside a string. -/
def scanByte : ℕ × Mode → UInt8 → Option (ℕ × Mode)
  | (d, .escape), _ => some (d, .string)
  | (d, .string), b =>
    if b = 0x22 then some (d, .text)
    else if b = 0x5c then some (d, .escape)
    else some (d, .string)
  | (d, .text), b =>
    if b = 0x22 then some (d, .string)
    else if b = 0x5b ∨ b = 0x7b then some (d + 1, .text)
    else if b = 0x5d ∨ b = 0x7d then
      match d with
      | 0 => none
      | d + 1 => some (d, .text)
    else if isFiller b then some (d, .text)
    else none

def scan (st : ℕ × Mode) (bs : List UInt8) : Option (ℕ × Mode) := bs.foldlM scanByte st

@[simp] theorem scan_nil (st : ℕ × Mode) : scan st [] = some st := rfl

theorem scan_cons (st : ℕ × Mode) (b : UInt8) (bs : List UInt8) :
    scan st (b :: bs) = (scanByte st b).bind fun st' => scan st' bs := by
  simp [scan]

theorem scan_append (st : ℕ × Mode) (bs bs' : List UInt8) :
    scan st (bs ++ bs') = (scan st bs).bind fun st' => scan st' bs' := by
  simp [scan]

/-- The bytes leave the scanner outside a string at the depth where they found it. -/
def Balanced (bs : List UInt8) : Prop := ∀ d, scan (d, .text) bs = some (d, .text)

/-- The bytes take the scanner from inside a string to its end. -/
def ClosesString (bs : List UInt8) : Prop := ∀ d, scan (d, .string) bs = some (d, .text)

theorem Balanced.append {bs bs' : List UInt8} (h : Balanced bs) (h' : Balanced bs') :
    Balanced (bs ++ bs') := fun d => by rw [scan_append, h d, Option.bind_some, h' d]

theorem balanced_nil : Balanced [] := fun _ => rfl

theorem isFiller_ne {b : UInt8} (h : isFiller b = true) :
    b ≠ 0x22 ∧ b ≠ 0x5b ∧ b ≠ 0x7b ∧ b ≠ 0x5d ∧ b ≠ 0x7d := by
  refine ⟨?_, ?_, ?_, ?_, ?_⟩ <;> (rintro rfl; revert h; decide)

theorem scanByte_filler {b : UInt8} (h : isFiller b = true) (d : ℕ) :
    scanByte (d, .text) b = some (d, .text) := by
  obtain ⟨h1, h2, h3, h4, h5⟩ := isFiller_ne h
  simp [scanByte, h1, h2, h3, h4, h5, h]

theorem balanced_fillers {bs : List UInt8} (h : ∀ b ∈ bs, isFiller b = true) : Balanced bs := by
  intro d
  induction bs with
  | nil => rfl
  | cons b bs ih =>
    rw [scan_cons, scanByte_filler (h b List.mem_cons_self), Option.bind_some]
    exact ih fun b hb => h b (List.mem_cons_of_mem _ hb)

theorem Balanced.cons {b : UInt8} {bs : List UInt8} (hb : isFiller b = true)
    (h : Balanced bs) : Balanced (b :: bs) :=
  have hone : Balanced [b] := balanced_fillers fun _ hm => by rwa [List.mem_singleton.mp hm]
  hone.append h

/-- The bytes take the scanner past the bracket that closes the innermost open one. -/
def ClosesBracket (bs : List UInt8) : Prop := ∀ d, scan (d + 1, .text) bs = some (d, .text)

theorem closesBracket_singleton {b : UInt8} (h : b = 0x5d ∨ b = 0x7d) : ClosesBracket [b] := by
  intro d
  rcases h with rfl | rfl <;> simp [scan_cons, scanByte]

theorem Balanced.closesBracket {bs bs' : List UInt8} (h : Balanced bs) (h' : ClosesBracket bs') :
    ClosesBracket (bs ++ bs') := fun d => by
  rw [scan_append, h (d + 1), Option.bind_some, h' d]

/-- An opening bracket and what leads past its partner. -/
theorem ClosesBracket.bracket {b : UInt8} {bs : List UInt8} (hb : b = 0x5b ∨ b = 0x7b)
    (h : ClosesBracket bs) : Balanced (b :: bs) := by
  intro d
  have hopen : scanByte (d, .text) b = some (d + 1, .text) := by
    rcases hb with rfl | rfl <;> simp [scanByte]
  rw [scan_cons, hopen]
  exact h d

theorem ClosesString.quote {bs : List UInt8} (h : ClosesString bs) : Balanced (0x22 :: bs) := by
  intro d
  rw [scan_cons]
  exact h d

/-! ### What the parser consumes -/

theorem skipWs_split (bs : List UInt8) :
    ∃ ws, bs = ws ++ skipWs bs ∧ Balanced ws := by
  refine ⟨bs.takeWhile isWs, (List.takeWhile_append_dropWhile).symm, balanced_fillers ?_⟩
  intro b hb
  have := List.mem_takeWhile_imp hb
  simp [isFiller, this]

theorem skipWs_cons_split {bs r : List UInt8} {b : UInt8} (h : skipWs bs = b :: r) :
    ∃ ws, bs = ws ++ b :: r ∧ Balanced ws := by
  obtain ⟨ws, hws, hb⟩ := skipWs_split bs
  exact ⟨ws, h ▸ hws, hb⟩

/-- Bytes of an escape are passed over: the scanner stays inside the string. -/
theorem scan_string_plain {b : UInt8} (h1 : b ≠ 0x22) (h2 : b ≠ 0x5c) (d : ℕ) :
    scanByte (d, .string) b = some (d, .string) := by
  simp [scanByte, h1, h2]

theorem hexVal_plain {b : UInt8} {n : ℕ} (h : hexVal b = some n) : b ≠ 0x22 ∧ b ≠ 0x5c := by
  have hq : hexVal 0x22 = none := by decide
  have hb : hexVal 0x5c = none := by decide
  constructor
  · rintro rfl; rw [hq] at h; cases h
  · rintro rfl; rw [hb] at h; cases h

theorem hex4_plain {a b c d : UInt8} {n : ℕ} (h : hex4 a b c d = some n) :
    ∀ x ∈ [a, b, c, d], x ≠ 0x22 ∧ x ≠ 0x5c := by
  simp only [hex4, Option.bind_eq_bind, Option.bind_eq_some_iff] at h
  obtain ⟨na, ha, nb, hb, nc, hc, nd, hd, -⟩ := h
  intro x hx
  simp only [List.mem_cons, List.not_mem_nil, or_false] at hx
  rcases hx with rfl | rfl | rfl | rfl
  · exact hexVal_plain ha
  · exact hexVal_plain hb
  · exact hexVal_plain hc
  · exact hexVal_plain hd

theorem ClosesString.plain {bs : List UInt8} {b : UInt8} (h1 : b ≠ 0x22) (h2 : b ≠ 0x5c)
    (h : ClosesString bs) : ClosesString (b :: bs) := by
  intro d
  rw [scan_cons, scan_string_plain h1 h2]
  exact h d

theorem ClosesString.plains {bs pre : List UInt8} (hp : ∀ x ∈ pre, x ≠ 0x22 ∧ x ≠ 0x5c)
    (h : ClosesString bs) : ClosesString (pre ++ bs) := by
  induction pre with
  | nil => exact h
  | cons b pre ih =>
    obtain ⟨h1, h2⟩ := hp b List.mem_cons_self
    exact (ih fun x hx => hp x (List.mem_cons_of_mem _ hx)).plain h1 h2

theorem ClosesString.escape {bs : List UInt8} (e : UInt8) (h : ClosesString bs) :
    ClosesString (0x5c :: e :: bs) := by
  intro d
  have hb : scanByte (d, .string) 0x5c = some (d, .escape) := by simp [scanByte]
  have he : scanByte (d, .escape) e = some (d, .string) := rfl
  rw [scan_cons, hb, Option.bind_some, scan_cons, he]
  exact h d

theorem parseStringBody_split {bs body r : List UInt8} (h : parseStringBody bs = some (body, r)) :
    ∃ pre, bs = pre ++ r ∧ ClosesString pre := by
  fun_induction parseStringBody bs generalizing body r with
  | case1 => cases h
  | case2 r₀ =>
    cases h
    exact ⟨[0x22], rfl, fun d => by simp [scan_cons, scanByte]⟩
  | case3 => cases h
  | case4 => cases h
  | case5 => cases h
  | case6 h1 h2 h3 h4 u hu _ s1 s2 l1 l2 l3 l4 r₀ l hl hs _ ih =>
    -- a surrogate pair: two `\u` escapes
    obtain ⟨p, hp, hpe⟩ := Option.map_eq_some_iff.mp h
    have hr : p.2 = r := congrArg Prod.snd hpe
    obtain ⟨pre, hpre, hclose⟩ := ih hp
    obtain ⟨rfl, rfl, -⟩ := hs
    refine ⟨0x5c :: 0x75 :: ([h1, h2, h3, h4] ++ 0x5c :: 0x75 :: ([l1, l2, l3, l4] ++ pre)),
      by simp [hpre, hr], ?_⟩
    exact ((((hclose.plains (hex4_plain hl)).escape 0x75).plains (hex4_plain hu))).escape 0x75
  | case7 => cases h
  | case8 => cases h
  | case9 => cases h
  | case10 h1 h2 h3 h4 r₀ u hu _ _ _ ih =>
    obtain ⟨p, hp, hpe⟩ := Option.map_eq_some_iff.mp h
    cases hpe
    obtain ⟨pre, hpre, hclose⟩ := ih hp
    exact ⟨0x5c :: 0x75 :: ([h1, h2, h3, h4] ++ pre), by rw [hpre]; rfl,
      (hclose.plains (hex4_plain hu)).escape 0x75⟩
  | case11 => cases h
  | case12 => cases h
  | case13 e r₀ _ c _ _ ih =>
    obtain ⟨p, hp, hpe⟩ := Option.map_eq_some_iff.mp h
    cases hpe
    obtain ⟨pre, hpre, hclose⟩ := ih hp
    exact ⟨0x5c :: e :: pre, by rw [hpre]; rfl, hclose.escape e⟩
  | case14 => cases h
  | case15 b r₀ h1 h2 _ ih =>
    obtain ⟨p, hp, hpe⟩ := Option.map_eq_some_iff.mp h
    cases hpe
    obtain ⟨pre, hpre, hclose⟩ := ih hp
    exact ⟨b :: pre, by rw [hpre]; rfl, hclose.plain h1 h2⟩

theorem parseString_split {bs r : List UInt8} {s : String} (h : parseString bs = some (s, r)) :
    ∃ pre, bs = pre ++ r ∧ ClosesString pre := by
  unfold parseString at h
  cases hb : parseStringBody bs with
  | none => rw [hb] at h; cases h
  | some p =>
    obtain ⟨body, r'⟩ := p
    rw [hb] at h
    obtain ⟨s', -, hs⟩ := Option.map_eq_some_iff.mp h
    cases hs
    exact parseStringBody_split hb

/-- The text of a number is made of filler bytes. -/
theorem parseIntPart_split {bs l r : List UInt8} (h : parseIntPart bs = some (l, r)) :
    bs = l ++ r ∧ ∀ b ∈ l, isFiller b = true := by
  cases bs with
  | nil => cases h
  | cons b bs =>
    rw [parseIntPart] at h
    split at h
    · next hb =>
      cases h
      refine ⟨rfl, fun x hx => ?_⟩
      rw [List.mem_singleton.mp hx, hb]
      decide
    · split at h
      · next hb =>
        cases h
        refine ⟨by rw [List.cons_append, List.takeWhile_append_dropWhile], fun x hx => ?_⟩
        rcases List.mem_cons.mp hx with rfl | hx
        · simp [isFiller, hb]
        · simp [isFiller, List.mem_takeWhile_imp hx]
      · cases h

theorem parseFraction_split {bs l r : List UInt8} (h : parseFraction bs = some (l, r)) :
    bs = l ++ r ∧ ∀ b ∈ l, isFiller b = true := by
  cases bs with
  | nil => cases h; exact ⟨rfl, fun _ hx => by cases hx⟩
  | cons b bs =>
    rw [parseFraction] at h
    split at h
    · next hb =>
      cases hds : bs.takeWhile isDigit with
      | nil => rw [hds] at h; cases h
      | cons d ds =>
        rw [hds] at h
        cases h
        refine ⟨?_, fun x hx => ?_⟩
        · rw [List.cons_append, ← hds, List.takeWhile_append_dropWhile]
        · rcases List.mem_cons.mp hx with rfl | hx
          · rw [hb]; decide
          · rw [← hds] at hx
            simp [isFiller, List.mem_takeWhile_imp hx]
    · cases h; exact ⟨rfl, fun _ hx => by cases hx⟩

theorem parseSign_split (bs : List UInt8) :
    bs = (parseSign bs).1 ++ (parseSign bs).2 ∧ ∀ b ∈ (parseSign bs).1, isFiller b = true := by
  cases bs with
  | nil => exact ⟨rfl, fun _ hx => by cases hx⟩
  | cons b bs =>
    rw [parseSign]
    split
    · next hb =>
      refine ⟨rfl, fun x hx => ?_⟩
      rw [List.mem_singleton.mp hx]
      rcases hb with rfl | rfl <;> decide
    · exact ⟨rfl, fun _ hx => by cases hx⟩

theorem parseExponent_split {bs l r : List UInt8} (h : parseExponent bs = some (l, r)) :
    bs = l ++ r ∧ ∀ b ∈ l, isFiller b = true := by
  cases bs with
  | nil => cases h; exact ⟨rfl, fun _ hx => by cases hx⟩
  | cons b bs =>
    rw [parseExponent] at h
    obtain ⟨hsplit, hsign⟩ := parseSign_split bs
    split at h
    · next hb =>
      cases hds : (parseSign bs).2.takeWhile isDigit with
      | nil => rw [hds] at h; cases h
      | cons d ds =>
        rw [hds] at h
        cases h
        refine ⟨?_, fun x hx => ?_⟩
        · rw [List.cons_append, List.append_assoc, ← hds, List.takeWhile_append_dropWhile,
            ← hsplit]
        · rcases List.mem_cons.mp hx with rfl | hx
          · rcases hb with rfl | rfl <;> decide
          · rcases List.mem_append.mp hx with hx | hx
            · exact hsign x hx
            · rw [← hds] at hx
              simp [isFiller, List.mem_takeWhile_imp hx]
    · cases h; exact ⟨rfl, fun _ hx => by cases hx⟩

theorem parseUnsigned_split {bs l r : List UInt8} {i : Bool}
    (h : parseUnsigned bs = some (l, i, r)) : bs = l ++ r ∧ ∀ b ∈ l, isFiller b = true := by
  unfold parseUnsigned at h
  cases h1 : parseIntPart bs with
  | none => rw [h1] at h; cases h
  | some p1 =>
    obtain ⟨l1, r1⟩ := p1
    obtain ⟨hs1, hf1⟩ := parseIntPart_split h1
    simp only [h1] at h
    cases h2 : parseFraction r1 with
    | none => rw [h2] at h; cases h
    | some p2 =>
      obtain ⟨l2, r2⟩ := p2
      obtain ⟨hs2, hf2⟩ := parseFraction_split h2
      simp only [h2] at h
      cases h3 : parseExponent r2 with
      | none => rw [h3] at h; cases h
      | some p3 =>
        obtain ⟨l3, r3⟩ := p3
        obtain ⟨hs3, hf3⟩ := parseExponent_split h3
        simp only [h3] at h
        cases h
        refine ⟨by rw [hs1, hs2, hs3]; simp, fun x hx => ?_⟩
        simp only [List.mem_append] at hx
        rcases hx with (hx | hx) | hx
        · exact hf1 x hx
        · exact hf2 x hx
        · exact hf3 x hx

theorem parseNumber_split {bs r : List UInt8} {v : Value} (h : parseNumber bs = some (v, r)) :
    ∃ pre, bs = pre ++ r ∧ Balanced pre := by
  cases bs with
  | nil => cases h
  | cons b bs =>
    rw [parseNumber] at h
    split at h
    · next hb =>
      cases hu : parseUnsigned bs with
      | none => rw [hu] at h; cases h
      | some p =>
        obtain ⟨l, i, r'⟩ := p
        obtain ⟨hs, hf⟩ := parseUnsigned_split hu
        have hr : r' = r := by
          simp only [hu] at h
          split at h <;> cases h <;> rfl
        refine ⟨b :: l, by rw [hs, hr]; rfl, ?_⟩
        exact (balanced_fillers hf).cons (by rw [hb]; decide)
    · cases hu : parseUnsigned (b :: bs) with
      | none => rw [hu] at h; cases h
      | some p =>
        obtain ⟨l, i, r'⟩ := p
        obtain ⟨hs, hf⟩ := parseUnsigned_split hu
        have hr : r' = r := by
          simp only [hu] at h
          split at h <;> cases h <;> rfl
        exact ⟨l, by rw [hs, hr], balanced_fillers hf⟩

theorem parseWord_split {word bs r : List UInt8} (h : parseWord word bs = some r) :
    bs = word ++ r := by
  unfold parseWord at h
  split at h
  · next hp =>
    cases h
    obtain ⟨t, rfl⟩ := List.isPrefixOf_iff_prefix.mp hp
    rw [List.drop_left]
  · cases h

/-! The four mutually recursive parsers, by induction on their common fuel: a value and a member
are balanced, and the rest of an array or of an object closes its bracket. -/

/-- The parser consumes a balanced prefix. -/
def TakesBalanced {β : Type} (p : List UInt8 → Option (β × List UInt8)) : Prop :=
  ∀ bs x r, p bs = some (x, r) → ∃ pre, bs = pre ++ r ∧ Balanced pre

/-- The parser consumes a prefix that closes a bracket. -/
def TakesClosing {β : Type} (p : List UInt8 → Option (β × List UInt8)) : Prop :=
  ∀ bs x r, p bs = some (x, r) → ∃ pre, bs = pre ++ r ∧ ClosesBracket pre

theorem parseElems_split {n : ℕ} (hv : TakesBalanced (parseValue n))
    (he : TakesClosing (parseElems n)) : TakesClosing (parseElems (n + 1)) := by
  intro bs x r h
  rw [parseElems] at h
  cases hs : skipWs bs with
  | nil => rw [hs] at h; cases h
  | cons b r₀ =>
    obtain ⟨ws, rfl, hws⟩ := skipWs_cons_split hs
    simp only [hs] at h
    split at h
    · next hb =>
      cases h
      exact ⟨ws ++ [b], by simp, hws.closesBracket (closesBracket_singleton (Or.inl hb))⟩
    · split at h
      · next hb =>
        cases hp : parseValue n r₀ with
        | none => rw [hp] at h; cases h
        | some p =>
          simp only [hp] at h
          obtain ⟨q, hq, hqe⟩ := Option.map_eq_some_iff.mp h
          cases hqe
          obtain ⟨pre, rfl, hpre⟩ := hv _ _ _ hp
          obtain ⟨pre', hr, hpre'⟩ := he _ _ _ hq
          refine ⟨ws ++ (b :: pre ++ pre'), by simp [hr], hws.closesBracket ?_⟩
          exact (hpre.cons (by rw [hb]; decide)).closesBracket hpre'
      · cases h

theorem parseMembers_split {n : ℕ} (hm : TakesBalanced (parseMember n))
    (he : TakesClosing (parseMembers n)) : TakesClosing (parseMembers (n + 1)) := by
  intro bs x r h
  rw [parseMembers] at h
  cases hs : skipWs bs with
  | nil => rw [hs] at h; cases h
  | cons b r₀ =>
    obtain ⟨ws, rfl, hws⟩ := skipWs_cons_split hs
    simp only [hs] at h
    split at h
    · next hb =>
      cases h
      exact ⟨ws ++ [b], by simp, hws.closesBracket (closesBracket_singleton (Or.inr hb))⟩
    · split at h
      · next hb =>
        cases hp : parseMember n r₀ with
        | none => rw [hp] at h; cases h
        | some p =>
          simp only [hp] at h
          obtain ⟨q, hq, hqe⟩ := Option.map_eq_some_iff.mp h
          cases hqe
          obtain ⟨pre, rfl, hpre⟩ := hm _ _ _ hp
          obtain ⟨pre', hr, hpre'⟩ := he _ _ _ hq
          refine ⟨ws ++ (b :: pre ++ pre'), by simp [hr], hws.closesBracket ?_⟩
          exact (hpre.cons (by rw [hb]; decide)).closesBracket hpre'
      · cases h

theorem parseMember_split {n : ℕ} (hv : TakesBalanced (parseValue n)) :
    TakesBalanced (parseMember (n + 1)) := by
  intro bs x r h
  rw [parseMember] at h
  cases hs : skipWs bs with
  | nil => rw [hs] at h; cases h
  | cons b r₀ =>
    obtain ⟨ws, rfl, hws⟩ := skipWs_cons_split hs
    simp only [hs] at h
    split at h
    · next hb =>
      cases hk : parseString r₀ with
      | none => rw [hk] at h; cases h
      | some p =>
        obtain ⟨k, r₁⟩ := p
        simp only [hk] at h
        obtain ⟨key, rfl, hkey⟩ := parseString_split hk
        cases hs' : skipWs r₁ with
        | nil => rw [hs'] at h; cases h
        | cons c r₂ =>
          simp only [hs'] at h
          obtain ⟨ws', rfl, hws'⟩ := skipWs_cons_split hs'
          split at h
          · next hc =>
            obtain ⟨q, hq, hqe⟩ := Option.map_eq_some_iff.mp h
            cases hqe
            obtain ⟨pre, rfl, hpre⟩ := hv _ _ _ hq
            refine ⟨ws ++ ((b :: key) ++ (ws' ++ (c :: pre))), by simp, ?_⟩
            refine hws.append (Balanced.append ?_ (hws'.append (hpre.cons (by rw [hc]; decide))))
            rw [hb]
            exact hkey.quote
          · cases h
    · cases h

theorem parseWord_balanced {word bs : List UInt8} {b : UInt8} {v v' : Value} {r' : List UInt8}
    (hf : ∀ x ∈ b :: word, isFiller x = true)
    (h : ((parseWord word bs).map fun r => (v, r)) = some (v', r')) :
    ∃ pre, b :: bs = pre ++ r' ∧ Balanced pre := by
  obtain ⟨q, hq, hqe⟩ := Option.map_eq_some_iff.mp h
  cases hqe
  exact ⟨b :: word, by rw [parseWord_split hq]; rfl, balanced_fillers hf⟩

theorem parseValue_split {n : ℕ} (hv : TakesBalanced (parseValue n))
    (he : TakesClosing (parseElems n)) (hm : TakesBalanced (parseMember n))
    (hms : TakesClosing (parseMembers n)) : TakesBalanced (parseValue (n + 1)) := by
  intro bs x r h
  rw [parseValue] at h
  cases hs : skipWs bs with
  | nil => rw [hs] at h; cases h
  | cons b r₀ =>
    obtain ⟨ws, rfl, hws⟩ := skipWs_cons_split hs
    simp only [hs] at h
    -- the white space is balanced, so the value may start at once
    suffices hb : ∃ pre, b :: r₀ = pre ++ r ∧ Balanced pre by
      obtain ⟨pre, hpre, hbal⟩ := hb
      exact ⟨ws ++ pre, by rw [hpre, List.append_assoc], hws.append hbal⟩
    split at h
    · next hb =>
      obtain ⟨q, hq, hqe⟩ := Option.map_eq_some_iff.mp h
      cases hqe
      obtain ⟨body, rfl, hbody⟩ := parseString_split hq
      exact ⟨b :: body, rfl, by rw [hb]; exact hbody.quote⟩
    split at h
    · next hb =>
      cases hs' : skipWs r₀ with
      | nil => rw [hs'] at h; cases h
      | cons c r₁ =>
        obtain ⟨ws', rfl, hws'⟩ := skipWs_cons_split hs'
        simp only [hs'] at h
        split at h
        · next hc =>
          cases h
          exact ⟨b :: (ws' ++ [c]), by simp, ClosesBracket.bracket (Or.inl hb)
            (hws'.closesBracket (closesBracket_singleton (Or.inl hc)))⟩
        · cases hp : parseValue n (c :: r₁) with
          | none => rw [hp] at h; cases h
          | some p =>
            simp only [hp] at h
            obtain ⟨q, hq, hqe⟩ := Option.map_eq_some_iff.mp h
            cases hqe
            obtain ⟨pre, hc, hpre⟩ := hv _ _ _ hp
            obtain ⟨pre', hr, hpre'⟩ := he _ _ _ hq
            refine ⟨b :: (ws' ++ (pre ++ pre')), by simp [hc, hr], ?_⟩
            exact ClosesBracket.bracket (Or.inl hb)
              (hws'.closesBracket (hpre.closesBracket hpre'))
    split at h
    · next hb =>
      cases hs' : skipWs r₀ with
      | nil => rw [hs'] at h; cases h
      | cons c r₁ =>
        obtain ⟨ws', rfl, hws'⟩ := skipWs_cons_split hs'
        simp only [hs'] at h
        split at h
        · next hc =>
          cases h
          exact ⟨b :: (ws' ++ [c]), by simp, ClosesBracket.bracket (Or.inr hb)
            (hws'.closesBracket (closesBracket_singleton (Or.inr hc)))⟩
        · cases hp : parseMember n (c :: r₁) with
          | none => rw [hp] at h; cases h
          | some p =>
            simp only [hp] at h
            obtain ⟨q, hq, hqe⟩ := Option.map_eq_some_iff.mp h
            cases hqe
            obtain ⟨pre, hc, hpre⟩ := hm _ _ _ hp
            obtain ⟨pre', hr, hpre'⟩ := hms _ _ _ hq
            refine ⟨b :: (ws' ++ (pre ++ pre')), by simp [hc, hr], ?_⟩
            exact ClosesBracket.bracket (Or.inr hb)
              (hws'.closesBracket (hpre.closesBracket hpre'))
    split at h
    · next hb => exact parseWord_balanced (by rw [hb]; decide +kernel) h
    split at h
    · next hb => exact parseWord_balanced (by rw [hb]; decide +kernel) h
    split at h
    · next hb => exact parseWord_balanced (by rw [hb]; decide +kernel) h
    · exact parseNumber_split h

theorem takes_all (n : ℕ) : TakesBalanced (parseValue n) ∧ TakesClosing (parseElems n) ∧
    TakesBalanced (parseMember n) ∧ TakesClosing (parseMembers n) := by
  induction n with
  | zero =>
    refine ⟨?_, ?_, ?_, ?_⟩ <;> intro bs x r h
    · rw [parseValue] at h; cases h
    · rw [parseElems] at h; cases h
    · rw [parseMember] at h; cases h
    · rw [parseMembers] at h; cases h
  | succ n ih =>
    obtain ⟨hv, he, hm, hms⟩ := ih
    exact ⟨parseValue_split hv he hm hms, parseElems_split hv he, parseMember_split hv,
      parseMembers_split hm hms⟩

/-- **Accepted texts are balanced.** A text the parser accepts leads the scanner back to depth
zero outside a string. -/
theorem scan_of_parse {bs : List UInt8} {v : Value} (h : parse bs = some v) :
    scan (0, .text) bs = some (0, .text) := by
  unfold parse at h
  cases hp : parseValue (bs.length + 1) bs with
  | none => rw [hp] at h; cases h
  | some p =>
    obtain ⟨v', r⟩ := p
    simp only [hp] at h
    split at h
    · next hr =>
      obtain ⟨pre, hpre, hbal⟩ := (takes_all _).1 _ _ _ hp
      obtain ⟨ws, hws, hbal'⟩ := skipWs_split r
      rw [hr, List.append_nil] at hws
      rw [hpre, hws]
      exact hbal.append hbal' 0
    · cases h

/-! ### Printed texts -/

theorem balanced_member (k : String) {v : Value} (hv : noFloat v = true) :
    Balanced (printString k ++ 0x3a :: print v) := by
  have h := parseMember_print k v _ [] hv le_rfl stops_nil
  obtain ⟨pre, hpre, hbal⟩ := (takes_all _).2.2.1 _ _ _ h
  rw [List.append_nil, List.append_nil] at hpre
  rwa [hpre]

theorem balanced_printMembers : ∀ {ms : List (String × Value)}, noFloatMembers ms = true →
    Balanced (printMembers ms)
  | [], _ => by rw [printMembers]; exact balanced_nil
  | (k, v) :: ms, h => by
    rw [noFloatMembers, Bool.and_eq_true] at h
    rw [printMembers]
    exact ((balanced_member k h.1).append (balanced_printMembers h.2)).cons (by decide)

/-- An object is its opening brace, a balanced text and its closing brace. -/
theorem print_obj_split {k : String} {v : Value} {ms : List (String × Value)}
    (h : noFloatMembers ((k, v) :: ms) = true) :
    ∃ body, print (.obj ((k, v) :: ms)) = 0x7b :: (body ++ [0x7d]) ∧ Balanced body := by
  rw [noFloatMembers, Bool.and_eq_true] at h
  refine ⟨_, by rw [print], ?_⟩
  exact (balanced_member k h.1).append (balanced_printMembers h.2)

theorem scanByte_deeper {d d' : ℕ} {m m' : Mode} {b : UInt8}
    (h : scanByte (d, m) b = some (d', m')) : scanByte (d + 1, m) b = some (d' + 1, m') := by
  cases m with
  | escape => cases h; rfl
  | string =>
    simp only [scanByte] at h ⊢
    split at h
    · next hb => cases h; rw [if_pos hb]
    · next hb =>
      rw [if_neg hb]
      split at h
      · next hb => cases h; rw [if_pos hb]
      · next hb => cases h; rw [if_neg hb]
  | text =>
    simp only [scanByte] at h ⊢
    split at h
    · next hb => cases h; rw [if_pos hb]
    next hb₁ =>
    rw [if_neg hb₁]
    split at h
    · next hb => cases h; rw [if_pos hb]
    next hb₂ =>
    rw [if_neg hb₂]
    split at h
    · next hb =>
      rw [if_pos hb]
      cases d with
      | zero => cases h
      | succ d => cases h; rfl
    next hb₃ =>
    rw [if_neg hb₃]
    split at h
    · next hb => cases h; rw [if_pos hb]
    · cases h

/-- The scanner takes the same way one level deeper. -/
theorem scan_deeper {bs : List UInt8} {d d' : ℕ} {m m' : Mode}
    (h : scan (d, m) bs = some (d', m')) : scan (d + 1, m) bs = some (d' + 1, m') := by
  induction bs generalizing d m with
  | nil => cases h; rfl
  | cons b bs ih =>
    rw [scan_cons] at h ⊢
    obtain ⟨⟨d₁, m₁⟩, hb, hrest⟩ := Option.bind_eq_some_iff.mp h
    rw [scanByte_deeper hb]
    exact ih hrest

/-- **A cut object stays open.** After a nonempty proper prefix of a printed object the scanner
is at a positive depth. -/
theorem scan_torn_obj {k : String} {v : Value} {ms : List (String × Value)} {t u : List UInt8}
    (hf : noFloatMembers ((k, v) :: ms) = true) (h : print (.obj ((k, v) :: ms)) = t ++ u)
    (ht : t ≠ []) (hu : u ≠ []) : ∃ d m, scan (0, .text) t = some (d + 1, m) := by
  obtain ⟨body, hbody, hbal⟩ := print_obj_split hf
  obtain ⟨b, t, rfl⟩ := List.exists_cons_of_ne_nil ht
  obtain ⟨u, c, rfl⟩ := (List.eq_nil_or_concat' u).resolve_left hu
  rw [hbody, List.cons_append, ← List.append_assoc] at h
  obtain ⟨rfl, htail⟩ := List.cons.inj h
  obtain ⟨hinit, -⟩ := List.append_inj' htail rfl
  -- the body is balanced from depth zero on, so its prefix never goes below that
  have hscan : scan (0, .text) (t ++ u) = some (0, .text) := hinit ▸ hbal 0
  rw [scan_append] at hscan
  obtain ⟨⟨d, m⟩, hd, -⟩ := Option.bind_eq_some_iff.mp hscan
  refine ⟨d, m, ?_⟩
  rw [scan_cons]
  exact scan_deeper hd

/-- The quote of a key ends the string the scanner is in, and the key is read as plain text. -/
theorem scan_key_in_string {c : UInt8} (hc : ∀ d, scanByte (d, .text) c = none) (d : ℕ)
    (rest : List UInt8) : scan (d, .string) (0x22 :: c :: rest) = none := by
  have hquote : scanByte (d, .string) 0x22 = some (d, .text) := by simp [scanByte]
  rw [scan_cons, hquote, Option.bind_some, scan_cons, hc]
  rfl

/-- **A cut object cannot be completed** by an object written behind it whose first key starts
with a byte that has no place outside a string. -/
theorem parse_torn_append {k k' : String} {v v' : Value} {ms ms' : List (String × Value)}
    {t u : List UInt8} {c : UInt8} {key : List UInt8}
    (hf : noFloatMembers ((k, v) :: ms) = true) (h : print (.obj ((k, v) :: ms)) = t ++ u)
    (ht : t ≠ []) (hu : u ≠ []) (hf' : noFloatMembers ((k', v') :: ms') = true)
    (hkey : escapeString k' = c :: key) (hc : ∀ d, scanByte (d, .text) c = none) :
    parse (t ++ print (.obj ((k', v') :: ms'))) = none := by
  cases hp : parse (t ++ print (.obj ((k', v') :: ms'))) with
  | none => rfl
  | some w =>
    obtain ⟨d, m, hscan⟩ := scan_torn_obj hf h ht hu
    have hclosed := scan_of_parse hp
    rw [scan_append, hscan, Option.bind_some] at hclosed
    obtain ⟨body, hbody, hbal⟩ := print_obj_split hf'
    have hquote : ∃ rest, print (.obj ((k', v') :: ms')) = 0x7b :: 0x22 :: c :: rest := by
      refine ⟨key ++ ([0x22] ++ 0x3a :: print v' ++ printMembers ms' ++ [0x7d]), ?_⟩
      rw [print, printString, hkey]
      simp
    obtain ⟨rest, hrest⟩ := hquote
    cases m with
    | text =>
      -- cut outside a string: the second object closes what it opens, and the first stays open
      have hobj : Balanced (print (.obj ((k', v') :: ms'))) := by
        rw [hbody]
        exact (hbal.closesBracket (closesBracket_singleton (Or.inr rfl))).bracket (Or.inr rfl)
      rw [hobj (d + 1)] at hclosed
      cases hclosed
    | string =>
      -- cut inside a string: the brace is a byte of it, and the quote of the key ends it
      rw [hrest, scan_cons, scan_string_plain (by decide) (by decide), Option.bind_some,
        scan_key_in_string hc] at hclosed
      cases hclosed
    | escape =>
      -- the brace is the escaped byte
      rw [hrest, scan_cons, show scanByte (d + 1, .escape) 0x7b = some (d + 1, .string) from rfl,
        Option.bind_some, scan_key_in_string hc] at hclosed
      cases hclosed

end Json
