import Oxideq.Lib.JsonScan

/-!
# Files of JSON lines

A file read line by line: a line ends at a newline byte, which is dropped together with one
carriage return before it; bytes after the last newline are a line of their own. A printed value
holds no control byte, so printed values written one to a line are read back as they were written
(`lines_unlines_append`).
-/

namespace Json

/-- The newline byte. -/
def newline : UInt8 := 0x0a

/-- A line without the carriage return before its newline. -/
def stripCr (l : List UInt8) : List UInt8 := if l.getLast? = some 0x0d then l.dropLast else l

/-- The lines of the rest of a file, `acc` being the bytes of the current line. -/
def linesFrom (acc : List UInt8) : List UInt8 → List (List UInt8)
  | [] => if acc = [] then [] else [acc]
  | b :: bs => if b = newline then stripCr acc :: linesFrom [] bs else linesFrom (acc ++ [b]) bs

/-- The lines of a file. -/
def lines (bs : List UInt8) : List (List UInt8) := linesFrom [] bs

/-- The lines written to a file, each ended by a newline. -/
def unlines (ls : List (List UInt8)) : List UInt8 := ls.flatMap fun l => l ++ [newline]

@[simp] theorem unlines_nil : unlines [] = [] := rfl

theorem unlines_append (ls ls' : List (List UInt8)) :
    unlines (ls ++ ls') = unlines ls ++ unlines ls' := List.flatMap_append

theorem linesFrom_plain {l : List UInt8} (h : newline ∉ l) (acc bs : List UInt8) :
    linesFrom acc (l ++ bs) = linesFrom (acc ++ l) bs := by
  induction l generalizing acc with
  | nil => rw [List.nil_append, List.append_nil]
  | cons b l ih =>
    have hb : b ≠ newline := fun hb => h (hb ▸ List.mem_cons_self)
    rw [List.cons_append, linesFrom, if_neg hb, ih fun hm => h (List.mem_cons_of_mem _ hm),
      List.append_assoc, List.singleton_append]

/-- A complete line is read first. -/
theorem lines_line {l : List UInt8} (h : newline ∉ l) (bs : List UInt8) :
    lines (l ++ newline :: bs) = stripCr l :: lines bs := by
  unfold lines
  rw [linesFrom_plain h, List.nil_append, linesFrom, if_pos rfl]

theorem notMem_newline {l : List UInt8} (h : ∀ b ∈ l, 0x20 ≤ b) : newline ∉ l := fun hm =>
  absurd (h _ hm) (by decide)

/-- No carriage return is taken from a line without control bytes. -/
theorem stripCr_eq {l : List UInt8} (h : ∀ b ∈ l, 0x20 ≤ b) : stripCr l = l := by
  unfold stripCr
  rw [if_neg]
  intro hlast
  exact absurd (h _ (List.mem_of_getLast? hlast)) (by decide)

/-! ### Printed bytes -/

/-- The bytes are UTF-8 and none of them is a control byte. -/
structure Printable (bs : List UInt8) : Prop where
  utf8 : ValidUtf8 bs
  noControl : ∀ b ∈ bs, 0x20 ≤ b

namespace Printable

theorem nil : Printable [] := ⟨validUtf8_nil, fun _ h => by cases h⟩

theorem append {bs bs' : List UInt8} (h : Printable bs) (h' : Printable bs') :
    Printable (bs ++ bs') :=
  ⟨h.utf8.append h'.utf8, fun b hb =>
    (List.mem_append.mp hb).elim (h.noControl b) (h'.noControl b)⟩

theorem ascii {bs : List UInt8} (h : ∀ b ∈ bs, 0x20 ≤ b ∧ b < 0x80) : Printable bs :=
  ⟨validUtf8_ascii fun b hb => (h b hb).2, fun b hb => (h b hb).1⟩

theorem cons {b : UInt8} {bs : List UInt8} (hb : 0x20 ≤ b ∧ b < 0x80) (h : Printable bs) :
    Printable (b :: bs) :=
  have hone : Printable [b] := ascii fun _ hm => by rwa [List.mem_singleton.mp hm]
  hone.append h

end Printable

theorem printable_hexDigit {n : ℕ} (h : n < 16) : 0x20 ≤ hexDigit n ∧ hexDigit n < 0x80 := by
  have hall : ∀ n < 16, 0x20 ≤ hexDigit n ∧ hexDigit n < 0x80 := by decide
  exact hall n h

theorem printable_escapeChar (c : Char) : Printable (escapeChar c) := by
  unfold escapeChar
  split
  · exact .ascii (by decide +kernel)
  split
  · exact .ascii (by decide +kernel)
  split
  · exact .ascii (by decide +kernel)
  split
  · exact .ascii (by decide +kernel)
  split
  · exact .ascii (by decide +kernel)
  split
  · exact .ascii (by decide +kernel)
  split
  · exact .ascii (by decide +kernel)
  split
  · next h =>
    refine .ascii fun b hb => ?_
    simp only [List.mem_cons, List.not_mem_nil, or_false] at hb
    rcases hb with rfl | rfl | rfl | rfl | rfl | rfl
    · decide
    · decide
    · decide
    · decide
    · exact printable_hexDigit (by omega)
    · exact printable_hexDigit (by omega)
  · next h =>
    refine ⟨validUtf8_encodeChar c, fun b hb => ?_⟩
    by_cases hc : c.val.toNat < 0x80
    · rw [utf8EncodeChar_ascii hc, List.mem_singleton] at hb
      rw [hb, UInt8.le_iff_toNat_le, UInt8.toNat_ofNat', Nat.mod_eq_of_lt (by omega)]
      show 32 ≤ c.val.toNat
      omega
    · exact UInt8.le_trans (show (0x20 : UInt8) ≤ 0x80 by decide)
        (le_of_mem_utf8EncodeChar (by omega) hb)

theorem printable_printString (s : String) : Printable (printString s) := by
  have hbody : ∀ cs : List Char, Printable (cs.flatMap escapeChar) := by
    intro cs
    induction cs with
    | nil => exact .nil
    | cons c cs ih => rw [List.flatMap_cons]; exact (printable_escapeChar c).append ih
  exact ((hbody s.toList).append (.ascii (by decide +kernel))).cons (by decide)

theorem printable_intDigits (i : Int) : Printable (intDigits i) := by
  have hdigits : ∀ n, Printable (natDigits n) := fun n => .ascii fun b hb => by
    have hd := (isDigit_iff b).mp (isDigit_of_mem_natDigits n b hb)
    rw [UInt8.le_iff_toNat_le, UInt8.lt_iff_toNat_lt]
    have h20 : (0x20 : UInt8).toNat = 32 := rfl
    have h80 : (0x80 : UInt8).toNat = 128 := rfl
    omega
  unfold intDigits
  split
  · exact (hdigits _).cons (by decide)
  · exact hdigits _

mutual

/-- The text of a value is printable. -/
theorem printable_print : ∀ v : Value, noFloat v = true → Printable (print v)
  | .null, _ => by rw [print]; exact .ascii (by decide +kernel)
  | .bool true, _ => by rw [print]; exact .ascii (by decide +kernel)
  | .bool false, _ => by rw [print]; exact .ascii (by decide +kernel)
  | .int i, _ => by rw [print]; exact printable_intDigits i
  | .float l, h => by simp [noFloat] at h
  | .str s, _ => by rw [print]; exact printable_printString s
  | .arr [], _ => by rw [print]; exact .ascii (by decide +kernel)
  | .arr (x :: xs), h => by
    rw [noFloat, noFloats, Bool.and_eq_true] at h
    rw [print]
    exact (((printable_print x h.1).append (printable_printElems xs h.2)).append
      (.ascii (by decide +kernel))).cons (by decide)
  | .obj [], _ => by rw [print]; exact .ascii (by decide +kernel)
  | .obj ((k, v) :: ms), h => by
    rw [noFloat, noFloatMembers, Bool.and_eq_true] at h
    rw [print]
    exact ((((printable_printString k).append ((printable_print v h.1).cons (by decide))).append
      (printable_printMembers ms h.2)).append (.ascii (by decide +kernel))).cons (by decide)

theorem printable_printElems : ∀ xs : List Value, noFloats xs = true → Printable (printElems xs)
  | [], _ => by rw [printElems]; exact .nil
  | x :: xs, h => by
    rw [noFloats, Bool.and_eq_true] at h
    rw [printElems]
    exact ((printable_print x h.1).append (printable_printElems xs h.2)).cons (by decide)

theorem printable_printMembers : ∀ ms : List (String × Value), noFloatMembers ms = true →
    Printable (printMembers ms)
  | [], _ => by rw [printMembers]; exact .nil
  | (k, v) :: ms, h => by
    rw [noFloatMembers, Bool.and_eq_true] at h
    rw [printMembers]
    exact (((printable_printString k).append ((printable_print v h.1).cons (by decide))).append
      (printable_printMembers ms h.2)).cons (by decide)

end

/-- **Printed lines are read back**, whatever follows them in the file. -/
theorem lines_unlines_append {ls : List (List UInt8)} (h : ∀ l ∈ ls, Printable l)
    (bs : List UInt8) : lines (unlines ls ++ bs) = ls ++ lines bs := by
  induction ls with
  | nil => rfl
  | cons l ls ih =>
    have hl := h l List.mem_cons_self
    have hsplit : unlines (l :: ls) ++ bs = l ++ newline :: (unlines ls ++ bs) := by
      simp [unlines]
    rw [hsplit, lines_line (notMem_newline hl.noControl), stripCr_eq hl.noControl,
      ih fun l hl => h l (List.mem_cons_of_mem _ hl), List.cons_append]

end Json
