import Mathlib.Algebra.Order.Ring.Nat
import Mathlib.Data.List.Lex
import Mathlib.Order.Monotone.Defs
import Mathlib.Tactic.Positivity

/-!
# Big-endian keys

A number written with its most significant byte first, in a fixed number of bytes. Under the
lexicographic order of the bytes such keys are ordered as the numbers are (`bigEndian_lt`), and a
key can be read back (`ofBigEndian_bigEndian`). This is what makes an ordered tree of byte strings
an ordered tree of numbers.

`toBeBytes` is the case of eight bytes. The orders of the machine integers are instances of this
namespace only.
-/

namespace BigEndian

/-- Bytes are ordered by their values. -/
scoped instance linearOrderUInt8 : LinearOrder UInt8 where
  le_refl := UInt8.le_refl
  le_trans _ _ _ := UInt8.le_trans
  le_antisymm _ _ := UInt8.le_antisymm
  le_total := UInt8.le_total
  lt_iff_le_not_ge a b := by
    rw [UInt8.not_le]
    exact ⟨fun h => ⟨UInt8.le_of_lt h, h⟩, fun h => h.2⟩
  toDecidableLE := inferInstance
  toDecidableEq := inferInstance
  toDecidableLT := inferInstance

scoped instance linearOrderUInt64 : LinearOrder UInt64 where
  le_refl := UInt64.le_refl
  le_trans _ _ _ := UInt64.le_trans
  le_antisymm _ _ := UInt64.le_antisymm
  le_total := UInt64.le_total
  lt_iff_le_not_ge a b := by
    rw [UInt64.not_le]
    exact ⟨fun h => ⟨UInt64.le_of_lt h, h⟩, fun h => h.2⟩
  toDecidableLE := inferInstance
  toDecidableEq := inferInstance
  toDecidableLT := inferInstance

/-- The last `width` bytes of a number, the most significant one first. -/
def bigEndian : ℕ → ℕ → List UInt8
  | 0, _ => []
  | width + 1, n => UInt8.ofNat (n / 256 ^ width) :: bigEndian width (n % 256 ^ width)

/-- The number that a list of bytes writes. -/
def ofBigEndian (bs : List UInt8) : ℕ := bs.foldl (fun n b => n * 256 + b.toNat) 0

theorem length_bigEndian (width n : ℕ) : (bigEndian width n).length = width := by
  induction width generalizing n with
  | zero => rfl
  | succ width ih => rw [bigEndian, List.length_cons, ih]

/-- The leading byte of a number that fits. -/
theorem toNat_ofNat_div {width n : ℕ} (h : n < 256 ^ (width + 1)) :
    (UInt8.ofNat (n / 256 ^ width)).toNat = n / 256 ^ width := by
  refine UInt8.toNat_ofNat_of_lt' ?_
  rw [Nat.div_lt_iff_lt_mul (by positivity)]
  calc n < 256 ^ (width + 1) := h
    _ = UInt8.size * 256 ^ width := by rw [pow_succ, mul_comm]

theorem foldl_bigEndian (width n acc : ℕ) (h : n < 256 ^ width) :
    (bigEndian width n).foldl (fun n b => n * 256 + b.toNat) acc = acc * 256 ^ width + n := by
  induction width generalizing n acc with
  | zero =>
    rw [pow_zero, Nat.lt_one_iff] at h
    rw [h]
    change acc = acc * 1 + 0
    omega
  | succ width ih =>
    rw [bigEndian, List.foldl_cons, ih _ _ (Nat.mod_lt _ (by positivity)), toNat_ofNat_div h]
    have hsplit := Nat.div_add_mod n (256 ^ width)
    calc (acc * 256 + n / 256 ^ width) * 256 ^ width + n % 256 ^ width
        = acc * (256 * 256 ^ width) + (256 ^ width * (n / 256 ^ width) + n % 256 ^ width) := by
          rw [add_mul, mul_assoc, mul_comm (n / 256 ^ width), add_assoc]
      _ = acc * 256 ^ (width + 1) + n := by rw [hsplit, pow_succ, mul_comm 256]

/-- **A key is read back.** -/
theorem ofBigEndian_bigEndian {width n : ℕ} (h : n < 256 ^ width) :
    ofBigEndian (bigEndian width n) = n := by
  rw [ofBigEndian, foldl_bigEndian width n 0 h, zero_mul, zero_add]

/-- **Keys are ordered as the numbers.** -/
theorem bigEndian_lt {width m n : ℕ} (hm : m < 256 ^ width) (hn : n < 256 ^ width) (h : m < n) :
    bigEndian width m < bigEndian width n := by
  induction width generalizing m n with
  | zero =>
    rw [pow_zero] at hm hn
    omega
  | succ width ih =>
    rw [bigEndian, bigEndian, List.cons_lt_cons_iff, UInt8.lt_iff_toNat_lt, ← UInt8.toNat_inj,
      toNat_ofNat_div hm, toNat_ofNat_div hn]
    have hpos : 0 < 256 ^ width := by positivity
    rcases Nat.lt_or_eq_of_le (Nat.div_le_div_right (c := 256 ^ width) h.le) with hlt | heq
    · exact Or.inl hlt
    · -- the leading bytes agree, and the rest decides
      have hsm := Nat.div_add_mod m (256 ^ width)
      have hsn := Nat.div_add_mod n (256 ^ width)
      rw [heq] at hsm
      exact Or.inr ⟨heq, ih (Nat.mod_lt _ hpos) (Nat.mod_lt _ hpos) (by omega)⟩

/-! ### Eight bytes -/

/-- `to_be_bytes`. -/
def toBeBytes (i : UInt64) : List UInt8 := bigEndian 8 i.toNat

/-- `u64::from_be_bytes` of a slice, whose conversion to eight bytes may fail. -/
def fromBeBytes (bs : List UInt8) : Option UInt64 :=
  if bs.length = 8 then some (UInt64.ofNat (ofBigEndian bs)) else none

theorem toNat_lt_pow (i : UInt64) : i.toNat < 256 ^ 8 := i.toNat_lt

@[simp] theorem fromBeBytes_toBeBytes (i : UInt64) : fromBeBytes (toBeBytes i) = some i := by
  rw [fromBeBytes, toBeBytes, if_pos (length_bigEndian 8 _),
    ofBigEndian_bigEndian (toNat_lt_pow i), UInt64.ofNat_toNat]

theorem toBeBytes_strictMono : StrictMono toBeBytes := fun i j h =>
  bigEndian_lt (toNat_lt_pow i) (toNat_lt_pow j) (UInt64.lt_iff_toNat_lt.mp h)

end BigEndian
