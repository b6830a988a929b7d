import Oxideq.Lib.Json

/-!
# The length of JSON text

How long a printed value is: numbers by their decimal digits, arrays and objects by their elements,
brackets and commas (`commaLength`), and strings without characters to escape by their bytes.
-/

namespace Json

/-- How many decimal digits a number has. -/
def decimals (n : ℕ) : ℕ := if n < 10 then 1 else decimals (n / 10) + 1

theorem length_natDigits (n : ℕ) : (natDigits n).length = decimals n := by
  induction n using Nat.strong_induction_on with
  | _ n ih =>
    rw [natDigits, decimals]
    split
    · rfl
    · rw [List.length_append, ih (n / 10) (by omega)]
      rfl

theorem length_print_nat (n : ℕ) : (print (.int n)).length = decimals n := by
  rw [print, intDigits, if_neg (by omega), Int.natAbs_natCast, length_natDigits]

/-- The length of a list of texts between brackets, with commas. -/
def commaLength (lengths : List ℕ) : ℕ := 2 + lengths.sum + (lengths.length - 1)

theorem length_printElems (xs : List Value) :
    (printElems xs).length = (xs.map fun x => (print x).length).sum + xs.length := by
  induction xs with
  | nil => rfl
  | cons x xs ih =>
    rw [printElems, List.length_cons, List.length_append, ih, List.map_cons, List.sum_cons,
      List.length_cons]
    omega

theorem length_print_arr (xs : List Value) :
    (print (.arr xs)).length = commaLength (xs.map fun x => (print x).length) := by
  cases xs with
  | nil => rw [print]; rfl
  | cons x xs =>
    rw [print, commaLength, List.map_cons, List.sum_cons]
    simp only [List.length_cons, List.length_append, List.length_map, List.length_nil,
      length_printElems]
    omega

/-- The length of a member of an object. -/
def memberLength (m : String × Value) : ℕ := (printString m.1).length + 1 + (print m.2).length

theorem length_printMembers (ms : List (String × Value)) :
    (printMembers ms).length = (ms.map memberLength).sum + ms.length := by
  induction ms with
  | nil => rfl
  | cons m ms ih =>
    rw [printMembers, List.length_cons, List.length_append, List.length_append, List.length_cons,
      ih, List.map_cons, List.sum_cons, List.length_cons, memberLength]
    omega

theorem length_print_obj (ms : List (String × Value)) :
    (print (.obj ms)).length = commaLength (ms.map memberLength) := by
  cases ms with
  | nil => rw [print]; rfl
  | cons m ms =>
    rw [print, commaLength, List.map_cons, List.sum_cons, memberLength]
    simp only [List.length_cons, List.length_append, List.length_map, List.length_nil,
      length_printMembers]
    omega

/-! Objects of one and two members. -/

theorem length_print_one (k : String) (v : Value) :
    (print (.obj [(k, v)])).length = (printString k).length + (print v).length + 3 := by
  rw [length_print_obj]
  simp only [commaLength, memberLength, List.map_cons, List.map_nil, List.sum_cons, List.sum_nil,
    List.length_cons, List.length_nil]
  omega

theorem length_print_two (k k' : String) (v v' : Value) :
    (print (.obj [(k, v), (k', v')])).length
      = (printString k).length + (print v).length + (printString k').length + (print v').length
        + 5 := by
  rw [length_print_obj]
  simp only [commaLength, memberLength, List.map_cons, List.map_nil, List.sum_cons, List.sum_nil,
    List.length_cons, List.length_nil]
  omega

theorem length_utf8 (s : String) : (utf8 s).length = s.utf8ByteSize := by
  rw [← String.size_toByteArray, ← toByteArray_utf8]
  exact (List.size_toByteArray).symm

/-- The character is printed as it is. -/
def Plain (c : Char) : Prop := escapeChar c = String.utf8EncodeChar c

instance (c : Char) : Decidable (Plain c) :=
  inferInstanceAs (Decidable (escapeChar c = String.utf8EncodeChar c))

theorem plain_of_val {c : Char} (h : 0x20 ≤ c.val.toNat) (hquote : c.val.toNat ≠ 0x22)
    (hslash : c.val.toNat ≠ 0x5c) : Plain c := by
  unfold Plain escapeChar
  rw [if_neg hquote, if_neg hslash, if_neg (by omega), if_neg (by omega), if_neg (by omega),
    if_neg (by omega), if_neg (by omega), if_neg (by omega)]

theorem length_printString {s : String} (h : ∀ c ∈ s.toList, Plain c) :
    (printString s).length = s.utf8ByteSize + 2 := by
  have hbody : escapeString s = utf8 s := List.flatMap_congr fun c hc => h c hc
  rw [printString, List.length_cons, List.length_append, List.length_singleton, hbody,
    length_utf8]

end Json
