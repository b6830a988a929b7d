import Oxideq.Lib.JsonNumber

/-!
# Objects behind other bytes

What may stand in front of a printed object so that the two together are a text: white space, and
nothing else (`parse_append_obj`). Wherever the bytes in front come from, they are read as the
beginning of the same text. They cannot end inside a string, since the quote of the first key would
close it and the key would be read outside (`scan_key_in_string`). They cannot leave a bracket open
either, because the object closes only what it opens. So the scanner is back at depth zero when the
object begins, and what remains to be seen is that a value which has begun by then cannot go on:

* the last byte of a value tells of what kind it is, and the brace that ends the object ends only
  an object (`parseValue_ends`);
* inside an object the scanner stays above depth zero, where the last brace takes it.

Bytes that are not UTF-8 stay so whatever is written behind them, if that begins with an ASCII
character (`ValidUtf8.of_append`).
-/

namespace Json

/-! ### UTF-8 -/

/-- A character of ASCII begins a new character: the bytes in front of it are whole characters. -/
theorem ValidUtf8.of_append {bs bs' : List UInt8} {b : UInt8} (hb : b < 0x80)
    (h : ValidUtf8 (bs ++ b :: bs')) : ValidUtf8 bs := by
  have hchars : ∀ (cs : List Char) (bs : List UInt8),
      cs.flatMap String.utf8EncodeChar = bs ++ b :: bs' → ValidUtf8 bs := by
    intro cs
    induction cs with
    | nil =>
      intro bs hcs
      exact absurd hcs.symm (by simp)
    | cons c cs ih =>
      intro bs hcs
      rw [List.flatMap_cons] at hcs
      rcases List.append_eq_append_iff.mp hcs with ⟨rest, hbs, hrest⟩ | ⟨rest, hc, hrest⟩
      · -- the first character is in front of the byte
        rw [hbs]
        exact (validUtf8_encodeChar c).append (ih rest hrest)
      · cases bs with
        | nil => exact validUtf8_nil
        | cons x bs =>
          cases rest with
          | nil =>
            rw [List.append_nil] at hc
            rw [← hc]
            exact validUtf8_encodeChar c
          | cons y rest =>
            -- the byte would be a later byte of the first character
            obtain ⟨rfl, -⟩ := List.cons.inj hrest
            exfalso
            by_cases hascii : c.val.toNat < 0x80
            · rw [utf8EncodeChar_ascii hascii] at hc
              have hlen := congrArg List.length hc
              simp at hlen
            · have hmem : b ∈ String.utf8EncodeChar c := by
                rw [hc]
                simp
              have hle := le_of_mem_utf8EncodeChar (not_lt.mp hascii) hmem
              exact absurd hb (UInt8.not_lt.mpr hle)
  obtain ⟨s, hs⟩ := ofUtf8_of_valid h
  exact hchars s.toList bs (utf8_of_ofUtf8 hs)

/-! ### Last bytes -/

/-- The last byte is not the one that closes an object. -/
def EndsOtherwise (bs : List UInt8) : Prop := ∃ init b, bs = init ++ [b] ∧ b ≠ 0x7d

theorem EndsOtherwise.cons {bs : List UInt8} (b : UInt8) (h : EndsOtherwise bs) :
    EndsOtherwise (b :: bs) := by
  obtain ⟨init, c, rfl, hc⟩ := h
  exact ⟨b :: init, c, rfl, hc⟩

theorem EndsOtherwise.append {bs : List UInt8} (pre : List UInt8) (h : EndsOtherwise bs) :
    EndsOtherwise (pre ++ bs) := by
  obtain ⟨init, c, rfl, hc⟩ := h
  exact ⟨pre ++ init, c, (List.append_assoc ..).symm, hc⟩

/-- Bytes of a literal. -/
theorem endsOtherwise_fillers {bs : List UInt8} (h : ∀ b ∈ bs, isFiller b = true) (hne : bs ≠ []) :
    EndsOtherwise bs := by
  obtain ⟨init, b, rfl⟩ := (List.eq_nil_or_concat' bs).resolve_left hne
  exact ⟨init, b, rfl, (isFiller_ne (h b (by simp))).2.2.2.2⟩

/-- A string ends with its quote. -/
theorem parseStringBody_ends {bs body r : List UInt8} (h : parseStringBody bs = some (body, r)) :
    ∃ pre, bs = pre ++ r ∧ EndsOtherwise pre := by
  fun_induction parseStringBody bs generalizing body r with
  | case1 => cases h
  | case2 r₀ =>
    cases h
    exact ⟨[0x22], rfl, [], 0x22, rfl, by decide⟩
  | case3 => cases h
  | case4 => cases h
  | case5 => cases h
  | case6 h1 h2 h3 h4 u hu _ s1 s2 l1 l2 l3 l4 r₀ l hl hs _ ih =>
    obtain ⟨p, hp, hpe⟩ := Option.map_eq_some_iff.mp h
    have hr : p.2 = r := congrArg Prod.snd hpe
    obtain ⟨pre, hpre, hends⟩ := ih hp
    exact ⟨0x5c :: 0x75 :: h1 :: h2 :: h3 :: h4 :: s1 :: s2 :: l1 :: l2 :: l3 :: l4 :: pre,
      by simp [hpre, hr], hends.append [_, _, _, _, _, _, _, _, _, _, _, _]⟩
  | case7 => cases h
  | case8 => cases h
  | case9 => cases h
  | case10 h1 h2 h3 h4 r₀ u hu _ _ _ ih =>
    obtain ⟨p, hp, hpe⟩ := Option.map_eq_some_iff.mp h
    cases hpe
    obtain ⟨pre, hpre, hends⟩ := ih hp
    exact ⟨0x5c :: 0x75 :: h1 :: h2 :: h3 :: h4 :: pre, by rw [hpre]; rfl,
      hends.append [_, _, _, _, _, _]⟩
  | case11 => cases h
  | case12 => cases h
  | case13 e r₀ _ c _ _ ih =>
    obtain ⟨p, hp, hpe⟩ := Option.map_eq_some_iff.mp h
    cases hpe
    obtain ⟨pre, hpre, hends⟩ := ih hp
    exact ⟨0x5c :: e :: pre, by rw [hpre]; rfl, (hends.cons e).cons 0x5c⟩
  | case14 => cases h
  | case15 b r₀ h1 h2 _ ih =>
    obtain ⟨p, hp, hpe⟩ := Option.map_eq_some_iff.mp h
    cases hpe
    obtain ⟨pre, hpre, hends⟩ := ih hp
    exact ⟨b :: pre, by rw [hpre]; rfl, hends.cons b⟩

theorem parseString_ends {bs r : List UInt8} {s : String} (h : parseString bs = some (s, r)) :
    ∃ pre, bs = pre ++ r ∧ EndsOtherwise pre := by
  unfold parseString at h
  cases hb : parseStringBody bs with
  | none => rw [hb] at h; cases h
  | some p =>
    obtain ⟨body, r'⟩ := p
    rw [hb] at h
    obtain ⟨s', -, hs⟩ := Option.map_eq_some_iff.mp h
    cases hs
    exact parseStringBody_ends hb

theorem parseUnsigned_ne_nil {bs l r : List UInt8} {i : Bool}
    (h : parseUnsigned bs = some (l, i, r)) : l ≠ [] := by
  unfold parseUnsigned at h
  cases h1 : parseIntPart bs with
  | none => rw [h1] at h; cases h
  | some p1 =>
    obtain ⟨l1, r1⟩ := p1
    simp only [h1] at h
    cases h2 : parseFraction r1 with
    | none => rw [h2] at h; cases h
    | some p2 =>
      obtain ⟨l2, r2⟩ := p2
      simp only [h2] at h
      cases h3 : parseExponent r2 with
      | none => rw [h3] at h; cases h
      | some p3 =>
        simp only [h3] at h
        cases h
        -- the integer part has a digit
        have hl1 : l1 ≠ [] := by
          cases bs with
          | nil => cases h1
          | cons b bs =>
            rw [parseIntPart] at h1
            split at h1
            · cases h1
              exact List.cons_ne_nil _ _
            · split at h1
              · cases h1
                exact List.cons_ne_nil _ _
              · cases h1
        simp [hl1]

/-- A number ends with a digit. -/
theorem parseNumber_ends {bs r : List UInt8} {v : Value} (h : parseNumber bs = some (v, r)) :
    ∃ pre, bs = pre ++ r ∧ EndsOtherwise pre := by
  cases bs with
  | nil => cases h
  | cons b bs =>
    rw [parseNumber] at h
    split at h
    · cases hu : parseUnsigned bs with
      | none => rw [hu] at h; cases h
      | some p =>
        obtain ⟨l, i, r'⟩ := p
        obtain ⟨hs, hf⟩ := parseUnsigned_split hu
        have hr : r' = r := by
          simp only [hu] at h
          split at h <;> cases h <;> rfl
        exact ⟨b :: l, by rw [hs, hr]; rfl,
          (endsOtherwise_fillers hf (parseUnsigned_ne_nil hu)).cons b⟩
    · cases hu : parseUnsigned (b :: bs) with
      | none => rw [hu] at h; cases h
      | some p =>
        obtain ⟨l, i, r'⟩ := p
        obtain ⟨hs, hf⟩ := parseUnsigned_split hu
        have hr : r' = r := by
          simp only [hu] at h
          split at h <;> cases h <;> rfl
        exact ⟨l, by rw [hs, hr], endsOtherwise_fillers hf (parseUnsigned_ne_nil hu)⟩

theorem parseWord_ends {word bs : List UInt8} {b : UInt8} {v v' : Value} {r' : List UInt8}
    (hf : ∀ x ∈ b :: word, isFiller x = true)
    (h : ((parseWord word bs).map fun r => (v, r)) = some (v', r')) :
    ∃ pre, b :: bs = pre ++ r' ∧ EndsOtherwise pre := by
  obtain ⟨q, hq, hqe⟩ := Option.map_eq_some_iff.mp h
  cases hqe
  exact ⟨b :: word, by rw [parseWord_split hq]; rfl,
    endsOtherwise_fillers hf (List.cons_ne_nil _ _)⟩

/-- The rest of an array ends with its bracket. -/
theorem parseElems_ends {n : ℕ} {bs r : List UInt8} {xs : List Value}
    (h : parseElems n bs = some (xs, r)) : ∃ pre, bs = pre ++ r ∧ EndsOtherwise pre := by
  induction n generalizing bs xs with
  | zero => rw [parseElems] at h; cases h
  | succ n ih =>
    rw [parseElems] at h
    cases hs : skipWs bs with
    | nil => rw [hs] at h; cases h
    | cons b r₀ =>
      obtain ⟨ws, rfl, -⟩ := skipWs_cons_split hs
      simp only [hs] at h
      split at h
      · next hb =>
        cases h
        exact ⟨ws ++ [b], by simp, ws, b, rfl, by rw [hb]; decide⟩
      · split at h
        · cases hp : parseValue n r₀ with
          | none => rw [hp] at h; cases h
          | some p =>
            simp only [hp] at h
            obtain ⟨q, hq, hqe⟩ := Option.map_eq_some_iff.mp h
            cases hqe
            obtain ⟨pre, rfl, -⟩ := (takes_all n).1 _ _ _ hp
            obtain ⟨pre', hr, hends⟩ := ih hq
            exact ⟨ws ++ (b :: (pre ++ pre')), by simp [hr],
              ((hends.append pre).cons b).append ws⟩
        · cases h

/-- The rest of an object is a balanced text and its closing brace. -/
theorem parseMembers_ends {n : ℕ} {bs r : List UInt8} {ms : List (String × Value)}
    (h : parseMembers n bs = some (ms, r)) :
    ∃ inner, bs = inner ++ 0x7d :: r ∧ Balanced inner := by
  induction n generalizing bs ms with
  | zero => rw [parseMembers] at h; cases h
  | succ n ih =>
    rw [parseMembers] at h
    cases hs : skipWs bs with
    | nil => rw [hs] at h; cases h
    | cons b r₀ =>
      obtain ⟨ws, rfl, hws⟩ := skipWs_cons_split hs
      simp only [hs] at h
      split at h
      · next hb =>
        cases h
        exact ⟨ws, by rw [hb], hws⟩
      · split at h
        · next hb =>
          cases hp : parseMember n r₀ with
          | none => rw [hp] at h; cases h
          | some p =>
            simp only [hp] at h
            obtain ⟨q, hq, hqe⟩ := Option.map_eq_some_iff.mp h
            cases hqe
            obtain ⟨pre, rfl, hpre⟩ := (takes_all n).2.2.1 _ _ _ hp
            obtain ⟨inner, hr, hinner⟩ := ih hq
            refine ⟨ws ++ (b :: (pre ++ inner)), by simp [hr], hws.append ?_⟩
            exact (hpre.append hinner).cons (by rw [hb]; decide)
        · cases h

/-- **Which values end with a brace.** Those that begin with one, and between the two braces no
bracket is closed that was opened outside. -/
theorem parseValue_ends {n : ℕ} {bs r : List UInt8} {v : Value}
    (h : parseValue n bs = some (v, r)) :
    ∃ pre, skipWs bs = pre ++ r ∧
      (EndsOtherwise pre ∨ ∃ inner, pre = 0x7b :: (inner ++ [0x7d]) ∧ Balanced inner) := by
  cases n with
  | zero => rw [parseValue] at h; cases h
  | succ n =>
    rw [parseValue] at h
    cases hs : skipWs bs with
    | nil => rw [hs] at h; cases h
    | cons b r₀ =>
      simp only [hs] at h
      have hother : (∃ pre, b :: r₀ = pre ++ r ∧ EndsOtherwise pre) → ∃ pre, b :: r₀ = pre ++ r ∧
          (EndsOtherwise pre ∨ ∃ inner, pre = 0x7b :: (inner ++ [0x7d]) ∧ Balanced inner) := by
        rintro ⟨pre, hpre, hends⟩
        exact ⟨pre, hpre, Or.inl hends⟩
      split at h
      · -- a string
        obtain ⟨q, hq, hqe⟩ := Option.map_eq_some_iff.mp h
        cases hqe
        obtain ⟨body, rfl, hbody⟩ := parseString_ends hq
        exact hother ⟨b :: body, rfl, hbody.cons b⟩
      split at h
      · -- an array
        cases hs' : skipWs r₀ with
        | nil => rw [hs'] at h; cases h
        | cons c r₁ =>
          obtain ⟨ws, rfl, -⟩ := skipWs_cons_split hs'
          simp only [hs'] at h
          split at h
          · next hc =>
            cases h
            exact hother ⟨b :: (ws ++ [c]), by simp, b :: ws, c, rfl, by rw [hc]; decide⟩
          · cases hp : parseValue n (c :: r₁) with
            | none => rw [hp] at h; cases h
            | some p =>
              simp only [hp] at h
              obtain ⟨q, hq, hqe⟩ := Option.map_eq_some_iff.mp h
              cases hqe
              obtain ⟨pre, hc, -⟩ := (takes_all n).1 _ _ _ hp
              obtain ⟨pre', hr, hends⟩ := parseElems_ends hq
              exact hother ⟨b :: (ws ++ (pre ++ pre')), by simp [hc, hr],
                ((hends.append pre).append ws).cons b⟩
      split at h
      · -- an object
        next hb =>
        cases hs' : skipWs r₀ with
        | nil => rw [hs'] at h; cases h
        | cons c r₁ =>
          obtain ⟨ws, rfl, hws⟩ := skipWs_cons_split hs'
          simp only [hs'] at h
          split at h
          · next hc =>
            cases h
            exact ⟨b :: (ws ++ [c]), by simp, Or.inr ⟨ws, by rw [hb, hc], hws⟩⟩
          · cases hp : parseMember n (c :: r₁) with
            | none => rw [hp] at h; cases h
            | some p =>
              simp only [hp] at h
              obtain ⟨q, hq, hqe⟩ := Option.map_eq_some_iff.mp h
              cases hqe
              obtain ⟨pre, hc, hpre⟩ := (takes_all n).2.2.1 _ _ _ hp
              obtain ⟨inner, hr, hinner⟩ := parseMembers_ends hq
              refine ⟨b :: (ws ++ (pre ++ (inner ++ [0x7d]))), by simp [hc, hr], Or.inr ?_⟩
              exact ⟨ws ++ (pre ++ inner), by simp [hb], hws.append (hpre.append hinner)⟩
      split at h
      · next hb => exact hother (parseWord_ends (by rw [hb]; decide +kernel) h)
      split at h
      · next hb => exact hother (parseWord_ends (by rw [hb]; decide +kernel) h)
      split at h
      · next hb => exact hother (parseWord_ends (by rw [hb]; decide +kernel) h)
      · exact hother (parseNumber_ends h)

/-! ### Objects behind other bytes -/

/-- White space in front of a printed value does no harm. -/
theorem parse_ws_print {ws : List UInt8} (hws : skipWs ws = []) {v : Value}
    (hv : noFloat v = true) : parse (ws ++ print v) = some v := by
  have h := parseValue_print v ((ws ++ print v).length + 1) [] hv
    (by rw [List.length_append]; omega) stops_nil
  rw [List.append_nil] at h
  unfold parse
  rw [parseValue_ws (skipWs_eq_nil.mp hws), h]
  rfl

/-- In front of an object the scanner is at depth zero, outside a string. -/
theorem scan_of_parse_append_obj {k : String} {v w : Value} {ms : List (String × Value)}
    {t key : List UInt8} {c : UInt8} (hf : noFloatMembers ((k, v) :: ms) = true)
    (hkey : escapeString k = c :: key) (hc : ∀ d, scanByte (d, .text) c = none)
    (h : parse (t ++ print (.obj ((k, v) :: ms))) = some w) :
    scan (0, .text) t = some (0, .text) := by
  have hclosed := scan_of_parse h
  rw [scan_append] at hclosed
  obtain ⟨⟨d, m⟩, hscan, hclosed⟩ := Option.bind_eq_some_iff.mp hclosed
  obtain ⟨body, hbody, hbal⟩ := print_obj_split hf
  obtain ⟨rest, hrest⟩ : ∃ rest, print (.obj ((k, v) :: ms)) = 0x7b :: 0x22 :: c :: rest := by
    refine ⟨key ++ ([0x22] ++ 0x3a :: print v ++ printMembers ms ++ [0x7d]), ?_⟩
    rw [print, printString, hkey]
    simp
  cases m with
  | text =>
    have hobj : Balanced (print (.obj ((k, v) :: ms))) := by
      rw [hbody]
      exact (hbal.closesBracket (closesBracket_singleton (Or.inr rfl))).bracket (Or.inr rfl)
    rw [hobj d] at hclosed
    rw [hscan, hclosed]
  | string =>
    rw [hrest, scan_cons, scan_string_plain (by decide) (by decide), Option.bind_some,
      scan_key_in_string hc] at hclosed
    cases hclosed
  | escape =>
    rw [hrest, scan_cons, show scanByte (d, .escape) 0x7b = some (d, .string) from rfl,
      Option.bind_some, scan_key_in_string hc] at hclosed
    cases hclosed

/-- **An object completes nothing.** A text that ends with a printed object whose first key starts
with a byte that has no place outside a string has nothing but white space in front of it. -/
theorem parse_append_obj {k : String} {v w : Value} {ms : List (String × Value)}
    {t key : List UInt8} {c : UInt8} (hf : noFloatMembers ((k, v) :: ms) = true)
    (hkey : escapeString k = c :: key) (hc : ∀ d, scanByte (d, .text) c = none)
    (h : parse (t ++ print (.obj ((k, v) :: ms))) = some w) : skipWs t = [] := by
  have hscan := scan_of_parse_append_obj hf hkey hc h
  obtain ⟨body, hbody, -⟩ := print_obj_split hf
  by_contra hne
  obtain ⟨b, t', ht⟩ := List.exists_cons_of_ne_nil hne
  have hskip : skipWs (t ++ print (.obj ((k, v) :: ms)))
      = b :: t' ++ 0x7b :: body ++ [0x7d] := by
    rw [skipWs, List.dropWhile_append, if_neg (by rwa [List.isEmpty_iff]), ← skipWs, ht, hbody]
    simp
  unfold parse at h
  cases hp : parseValue ((t ++ print (.obj ((k, v) :: ms))).length + 1)
      (t ++ print (.obj ((k, v) :: ms))) with
  | none => rw [hp] at h; cases h
  | some p =>
    obtain ⟨w', r⟩ := p
    simp only [hp] at h
    split at h
    · next hr =>
      obtain ⟨pre, hpre, hends⟩ := parseValue_ends hp
      rw [hskip] at hpre
      -- nothing is left behind the last brace
      obtain rfl : r = [] := by
        by_contra hrest
        obtain ⟨r', x, rfl⟩ := (List.eq_nil_or_concat' r).resolve_left hrest
        rw [← List.append_assoc] at hpre
        obtain ⟨-, hx⟩ := List.append_inj' hpre rfl
        have hws := skipWs_eq_nil.mp hr x (by simp)
        rw [← (List.cons.inj hx).1] at hws
        exact absurd hws (by decide)
      rw [List.append_nil] at hpre
      rcases hends with ⟨init, x, rfl, hx⟩ | ⟨inner, rfl, hinner⟩
      · obtain ⟨-, hlast⟩ := List.append_inj' hpre rfl
        exact hx (List.cons.inj hlast).1.symm
      · -- an object that has begun in `t` and is still open where `t` ends
        rw [← List.cons_append] at hpre
        obtain ⟨hinit, -⟩ := List.append_inj' hpre rfl
        obtain ⟨rfl, rfl⟩ := List.cons.inj hinit
        have hopen : scan (1, .text) t' = some (0, .text) := by
          obtain ⟨ws, hws, hsplit⟩ := skipWs_spec t
          rw [hsplit, ht, scan_append,
            balanced_fillers (fun x hx => by simp [isFiller, hws x hx]) 0, Option.bind_some,
            scan_cons, show scanByte (0, .text) 0x7b = some (1, .text) from rfl] at hscan
          exact hscan
        have hbelow := hinner 0
        rw [List.append_eq, scan_append] at hbelow
        obtain ⟨⟨d, m⟩, hd, -⟩ := Option.bind_eq_some_iff.mp hbelow
        rw [scan_deeper hd] at hopen
        cases hopen
    · cases h

end Json
