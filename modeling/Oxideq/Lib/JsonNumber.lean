import Mathlib.Data.List.Induction
import Oxideq.Lib.JsonScan

/-!
# The texts of a number

Which JSON texts the parser reads as a given natural number: its decimal digits with white space
around them, and no others (`Json.parse_eq_int_iff`). A fraction, an exponent or a leading zero
make another value or none, and so does a minus sign: the text `-0` is a floating-point zero.
-/

namespace Json

/-- The text is the number alone, between white space. -/
def Spells (n : ℕ) (bs : List UInt8) : Prop :=
  ∃ ws ws', (∀ b ∈ ws, isWs b = true) ∧ (∀ b ∈ ws', isWs b = true) ∧
    bs = ws ++ natDigits n ++ ws'

/-! ### White space -/

theorem skipWs_spec (bs : List UInt8) :
    ∃ ws, (∀ b ∈ ws, isWs b = true) ∧ bs = ws ++ skipWs bs :=
  ⟨bs.takeWhile isWs, fun _ hb => List.mem_takeWhile_imp hb, List.takeWhile_append_dropWhile.symm⟩

theorem skipWs_eq_nil {bs : List UInt8} : skipWs bs = [] ↔ ∀ b ∈ bs, isWs b = true :=
  List.dropWhile_eq_nil_iff

theorem skipWs_append {ws : List UInt8} (h : ∀ b ∈ ws, isWs b = true) (r : List UInt8) :
    skipWs (ws ++ r) = skipWs r :=
  List.dropWhile_append_of_pos h

/-- White space in front of a value is skipped. -/
theorem parseValue_ws {ws : List UInt8} (h : ∀ b ∈ ws, isWs b = true) (n : ℕ) (r : List UInt8) :
    parseValue n (ws ++ r) = parseValue n r := by
  cases n with
  | zero => rfl
  | succ n => rw [parseValue, parseValue, skipWs_append h]

theorem not_continuesNumber_of_isWs {b : UInt8} (h : isWs b = true) :
    continuesNumber b = false := by
  simp only [isWs, Bool.or_eq_true, beq_iff_eq] at h
  rcases h with ((rfl | rfl) | rfl) | rfl <;> decide

theorem stops_ws {ws : List UInt8} (h : ∀ b ∈ ws, isWs b = true) : Stops ws := by
  rintro b r rfl
  exact not_continuesNumber_of_isWs (h b List.mem_cons_self)

/-! ### Digits -/

theorem ofDigits_append (ds : List UInt8) (d : UInt8) :
    ofDigits (ds ++ [d]) = 10 * ofDigits ds + digitVal d := by
  rw [ofDigits, List.foldl_append]
  rfl

theorem digitVal_lt {b : UInt8} (h : isDigit b = true) : digitVal b < 10 := by
  rw [isDigit_iff] at h
  unfold digitVal
  omega

theorem ofNat_digitVal {b : UInt8} (h : isDigit b = true) :
    UInt8.ofNat (48 + digitVal b) = b := by
  rw [isDigit_iff] at h
  rw [digitVal, Nat.add_sub_cancel' h.1, UInt8.ofNat_toNat]

/-- Digits that do not start with a zero stand for a positive number. -/
theorem ofDigits_pos {d : UInt8} {ds : List UInt8} (hd : isDigit d = true) (hne : d ≠ 0x30) :
    0 < ofDigits (d :: ds) := by
  induction ds using List.reverseRecOn with
  | nil =>
    rw [isDigit_iff] at hd
    have hd48 : d.toNat ≠ 48 := fun h => hne (UInt8.toNat_inj.mp h)
    change 0 < 10 * 0 + digitVal d
    unfold digitVal
    omega
  | append_singleton ds e ih =>
    rw [← List.cons_append, ofDigits_append]
    omega

/-- They are the digits of that number. -/
theorem natDigits_ofDigits {d : UInt8} {ds : List UInt8} (hd : isDigit d = true) (hne : d ≠ 0x30)
    (hds : ∀ b ∈ ds, isDigit b = true) : natDigits (ofDigits (d :: ds)) = d :: ds := by
  induction ds using List.reverseRecOn with
  | nil =>
    have hone : ofDigits [d] = digitVal d := by
      change 10 * 0 + digitVal d = _
      omega
    rw [hone, natDigits, if_pos (digitVal_lt hd), ofNat_digitVal hd]
  | append_singleton ds e ih =>
    have he : isDigit e = true := hds e (List.mem_append_right _ List.mem_cons_self)
    have hpos : 0 < ofDigits (d :: ds) := ofDigits_pos hd hne
    have hlt := digitVal_lt he
    have hback := ih fun b hb => hds b (List.mem_append_left _ hb)
    have hdiv : (10 * ofDigits (d :: ds) + digitVal e) / 10 = ofDigits (d :: ds) := by omega
    have hmod : (10 * ofDigits (d :: ds) + digitVal e) % 10 = digitVal e := by omega
    rw [← List.cons_append, ofDigits_append, natDigits, if_neg (by omega), hdiv, hmod, hback,
      ofNat_digitVal he]

/-! ### What is read as a number -/

theorem parseIntPart_eq {bs l r : List UInt8} (h : parseIntPart bs = some (l, r)) :
    bs = l ++ r ∧ natDigits (ofDigits l) = l := by
  cases bs with
  | nil => cases h
  | cons b bs =>
    rw [parseIntPart] at h
    split at h
    · next hb =>
      cases h
      rw [hb]
      exact ⟨rfl, by rw [natDigits]; rfl⟩
    split at h
    · next hb hdigit =>
      cases h
      refine ⟨by rw [List.cons_append, List.takeWhile_append_dropWhile], ?_⟩
      exact natDigits_ofDigits hdigit hb fun _ hx => List.mem_takeWhile_imp hx
    · cases h

/-- A number without a fraction and an exponent is its integer part. -/
theorem parseUnsigned_eq {bs l r : List UInt8} (h : parseUnsigned bs = some (l, true, r)) :
    bs = l ++ r ∧ natDigits (ofDigits l) = l := by
  unfold parseUnsigned at h
  cases hint : parseIntPart bs with
  | none => rw [hint] at h; cases h
  | some p =>
    obtain ⟨i, r₁⟩ := p
    simp only [hint] at h
    cases hfraction : parseFraction r₁ with
    | none => rw [hfraction] at h; cases h
    | some p =>
      obtain ⟨f, r₂⟩ := p
      simp only [hfraction] at h
      cases hexponent : parseExponent r₂ with
      | none => rw [hexponent] at h; cases h
      | some p =>
        obtain ⟨e, r₃⟩ := p
        simp only [hexponent, Option.some.injEq, Prod.mk.injEq, Bool.and_eq_true,
          List.isEmpty_iff] at h
        obtain ⟨rfl, ⟨rfl, rfl⟩, rfl⟩ := h
        obtain ⟨hbs, hdigits⟩ := parseIntPart_eq hint
        have hr₁ : r₁ = [] ++ r₂ := (parseFraction_split hfraction).1
        have hr₂ : r₂ = [] ++ r₃ := (parseExponent_split hexponent).1
        rw [List.append_nil, List.append_nil]
        exact ⟨by rw [hbs, hr₁, hr₂]; rfl, hdigits⟩

theorem parseNumber_eq_int {bs r : List UInt8} {n : ℕ} (h : parseNumber bs = some (.int n, r)) :
    bs = natDigits n ++ r := by
  cases bs with
  | nil => cases h
  | cons b bs =>
    rw [parseNumber] at h
    split at h
    · cases hunsigned : parseUnsigned bs with
      | none => rw [hunsigned] at h; cases h
      | some p =>
        obtain ⟨l, integral, r'⟩ := p
        simp only [hunsigned] at h
        split at h
        · next hl =>
          -- the negative of a number that is not zero
          obtain ⟨hintegral, hzero⟩ := hl
          rw [hintegral] at hunsigned
          have hdigits := (parseUnsigned_eq hunsigned).2
          have hvalue : -(ofDigits l : Int) = n := by
            have hpair := Option.some.inj h
            exact Value.int.inj (congrArg Prod.fst hpair)
          have hl0 : ofDigits l = 0 := by omega
          rw [hl0, natDigits, if_pos (by decide)] at hdigits
          exact absurd hdigits.symm hzero
        · cases h
    · cases hunsigned : parseUnsigned (b :: bs) with
      | none => rw [hunsigned] at h; cases h
      | some p =>
        obtain ⟨l, integral, r'⟩ := p
        simp only [hunsigned] at h
        split at h
        · next hintegral =>
          rw [hintegral] at hunsigned
          obtain ⟨hbs, hdigits⟩ := parseUnsigned_eq hunsigned
          have hpair := Option.some.inj h
          have hvalue : (ofDigits l : Int) = n := Value.int.inj (congrArg Prod.fst hpair)
          have hr : r' = r := congrArg Prod.snd hpair
          have hl : ofDigits l = n := by omega
          rw [hbs, hr, ← hl, hdigits]
        · cases h

theorem parseValue_eq_int {bs r : List UInt8} {k n : ℕ}
    (h : parseValue k bs = some (.int n, r)) :
    ∃ ws, (∀ b ∈ ws, isWs b = true) ∧ bs = ws ++ (natDigits n ++ r) := by
  obtain ⟨ws, hws, hbs⟩ := skipWs_spec bs
  refine ⟨ws, hws, ?_⟩
  cases k with
  | zero => rw [parseValue] at h; cases h
  | succ k =>
    rw [parseValue] at h
    cases hskip : skipWs bs with
    | nil => rw [hskip] at h; cases h
    | cons b r' =>
      rw [hskip] at h hbs
      simp only at h
      -- every other first byte makes another value
      have hmap : ∀ {β : Type} {o : Option β} {f : β → Value × List UInt8},
          (∀ x r, f x ≠ (.int n, r)) → o.map f ≠ some (.int n, r) := by
        intro β o f hf hx
        obtain ⟨x, -, hfx⟩ := Option.map_eq_some_iff.mp hx
        exact hf x r hfx
      split at h
      · exact absurd h (hmap (by simp))
      split at h
      · split at h
        · cases h
        split at h
        · cases h
        split at h
        · cases h
        · exact absurd h (hmap (by simp))
      split at h
      · split at h
        · cases h
        split at h
        · cases h
        split at h
        · cases h
        · exact absurd h (hmap (by simp))
      split at h
      · exact absurd h (hmap (by simp))
      split at h
      · exact absurd h (hmap (by simp))
      split at h
      · exact absurd h (hmap (by simp))
      · rw [hbs, parseNumber_eq_int h]

/-- **Texts of a natural number.** -/
theorem parse_eq_int_iff {bs : List UInt8} {n : ℕ} : parse bs = some (.int n) ↔ Spells n bs := by
  constructor
  · intro h
    unfold parse at h
    cases hvalue : parseValue (bs.length + 1) bs with
    | none => rw [hvalue] at h; cases h
    | some p =>
      obtain ⟨v, r⟩ := p
      simp only [hvalue] at h
      split at h
      · next hr =>
        cases h
        obtain ⟨ws, hws, hbs⟩ := parseValue_eq_int hvalue
        exact ⟨ws, r, hws, skipWs_eq_nil.mp hr, by rw [hbs, List.append_assoc]⟩
      · cases h
  · rintro ⟨ws, ws', hws, hws', rfl⟩
    have hdigits : intDigits n = natDigits n := by
      rw [intDigits, if_neg (by omega), Int.natAbs_natCast]
    have hvalue := parseValue_int n (ws ++ natDigits n ++ ws').length (stops_ws hws')
    rw [hdigits] at hvalue
    unfold parse
    rw [List.append_assoc, parseValue_ws hws]
    rw [List.append_assoc] at hvalue
    simp only [hvalue, skipWs_eq_nil.mpr hws', if_true]

end Json
