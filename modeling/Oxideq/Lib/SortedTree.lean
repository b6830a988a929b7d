import Mathlib.Order.Basic
import Mathlib.Data.List.Pairwise
import Mathlib.Order.Lattice

/-!
# Ordered trees

A finite map whose entries are listed by increasing key, with the operations of an ordered
key-value tree: insertion, removal of a range of keys, the last entry. The order of the entries
is a field of the structure, so every operation proves it once and no later statement mentions
it.

The lemmas describe an operation by the entries of its result; `last_eq_some_iff`,
`last_eq_none_iff` and `get_eq_some_iff` say what the last entry is and what a key leads to in
those terms. A list can be sorted by inserting its elements into a tree (`sortBy`).
-/

structure SortedTree (κ V : Type*) [LinearOrder κ] where
  entries : List (κ × V)
  sorted : entries.Pairwise fun a b => a.1 < b.1

namespace SortedTree

variable {κ V : Type*} [LinearOrder κ]

/-- The tree without entries. -/
def empty : SortedTree κ V := ⟨[], List.Pairwise.nil⟩

/-- `insert(key, value)`: a present value is replaced. -/
def insert (t : SortedTree κ V) (k : κ) (v : V) : SortedTree κ V where
  entries := t.entries.filter (·.1 < k) ++ (k, v) :: t.entries.filter (k < ·.1)
  sorted := by
    refine List.pairwise_append.mpr ⟨t.sorted.filter _, ?_, ?_⟩
    · refine List.pairwise_cons.mpr ⟨fun e he => ?_, t.sorted.filter _⟩
      simpa using (List.mem_filter.mp he).2
    · intro a ha b hb
      have hak : a.1 < k := by simpa using (List.mem_filter.mp ha).2
      rcases List.mem_cons.mp hb with rfl | hb
      · exact hak
      · have hkb : k < b.1 := by simpa using (List.mem_filter.mp hb).2
        exact hak.trans hkb

/-- A scan over some of the keys whose entries are then removed in one batch. -/
def removeWhere (t : SortedTree κ V) (p : κ → Prop) [DecidablePred p] : SortedTree κ V where
  entries := t.entries.filter fun e => ¬ p e.1
  sorted := t.sorted.filter _

/-- `range(k..)`: the entries from a key on. -/
def rangeFrom (t : SortedTree κ V) (k : κ) : List (κ × V) := t.entries.filter (k ≤ ·.1)

theorem sorted_rangeFrom (t : SortedTree κ V) (k : κ) :
    (t.rangeFrom k).Pairwise fun a b => a.1 < b.1 :=
  t.sorted.filter _

/-- `get(key)`. -/
def get (t : SortedTree κ V) (k : κ) : Option V := (t.entries.find? (·.1 = k)).map Prod.snd

/-- `last()`: the entry with the largest key. -/
def last (t : SortedTree κ V) : Option (κ × V) := t.entries.getLast?

@[simp] theorem entries_empty : (empty : SortedTree κ V).entries = [] := rfl

@[simp] theorem mem_insert {t : SortedTree κ V} {k : κ} {v : V} {e : κ × V} :
    e ∈ (t.insert k v).entries ↔ e = (k, v) ∨ (e.1 ≠ k ∧ e ∈ t.entries) := by
  simp only [insert, List.mem_append, List.mem_cons, List.mem_filter, decide_eq_true_eq]
  constructor
  · rintro (⟨he, hlt⟩ | rfl | ⟨he, hlt⟩)
    · exact Or.inr ⟨hlt.ne, he⟩
    · exact Or.inl rfl
    · exact Or.inr ⟨hlt.ne', he⟩
  · rintro (rfl | ⟨hne, he⟩)
    · exact Or.inr (Or.inl rfl)
    · rcases lt_or_gt_of_ne hne with hlt | hgt
      · exact Or.inl ⟨he, hlt⟩
      · exact Or.inr (Or.inr ⟨he, hgt⟩)

@[simp] theorem mem_removeWhere {t : SortedTree κ V} {p : κ → Prop} [DecidablePred p]
    {e : κ × V} : e ∈ (t.removeWhere p).entries ↔ e ∈ t.entries ∧ ¬ p e.1 := by
  simp only [removeWhere, List.mem_filter, decide_eq_true_eq]

@[simp] theorem mem_rangeFrom {t : SortedTree κ V} {k : κ} {e : κ × V} :
    e ∈ t.rangeFrom k ↔ e ∈ t.entries ∧ k ≤ e.1 := by
  simp only [rangeFrom, List.mem_filter, decide_eq_true_eq]

theorem last_eq_none_iff {t : SortedTree κ V} : t.last = none ↔ t.entries = [] :=
  List.getLast?_eq_none_iff

/-- The last entry is the one with the largest key. -/
theorem last_eq_some_iff {t : SortedTree κ V} {e : κ × V} :
    t.last = some e ↔ e ∈ t.entries ∧ ∀ e' ∈ t.entries, e'.1 ≤ e.1 := by
  constructor
  · intro h
    obtain ⟨rest, hrest⟩ := List.getLast?_eq_some_iff.mp h
    have hsorted := t.sorted
    rw [hrest, List.pairwise_append] at hsorted
    refine ⟨by rw [hrest]; simp, fun e' he' => ?_⟩
    rw [hrest, List.mem_append, List.mem_singleton] at he'
    rcases he' with he' | rfl
    · exact (hsorted.2.2 e' he' e (List.mem_singleton.mpr rfl)).le
    · exact le_rfl
  · rintro ⟨he, hmax⟩
    cases hl : t.last with
    | none => rw [last_eq_none_iff.mp hl] at he; cases he
    | some m =>
      obtain ⟨rest, hrest⟩ := List.getLast?_eq_some_iff.mp hl
      have hsorted := t.sorted
      rw [hrest, List.pairwise_append] at hsorted
      rw [hrest, List.mem_append, List.mem_singleton] at he
      rcases he with he | rfl
      · -- an entry before the last one has a smaller key
        have hlt := hsorted.2.2 e he m (List.mem_singleton.mpr rfl)
        have hle := hmax m (by rw [hrest]; simp)
        exact absurd hlt hle.not_gt
      · rfl

/-- Only the keys that are there matter. -/
theorem removeWhere_congr {t : SortedTree κ V} {p q : κ → Prop} [DecidablePred p]
    [DecidablePred q] (h : ∀ e ∈ t.entries, p e.1 ↔ q e.1) : t.removeWhere p = t.removeWhere q := by
  have hentries : (t.removeWhere p).entries = (t.removeWhere q).entries :=
    List.filter_congr fun e he => by rw [decide_eq_decide, not_iff_not, h e he]
  cases hp : t.removeWhere p
  cases hq : t.removeWhere q
  rw [hp, hq] at hentries
  congr

/-! ### Lookups -/

/-- The keys are distinct, so an entry is what its key leads to. -/
theorem get_eq_some_iff {t : SortedTree κ V} {k : κ} {v : V} :
    t.get k = some v ↔ (k, v) ∈ t.entries := by
  rw [get, Option.map_eq_some_iff]
  constructor
  · rintro ⟨⟨k', v'⟩, hfind, rfl⟩
    have hkey := List.find?_some hfind
    rw [decide_eq_true_eq] at hkey
    exact hkey ▸ List.mem_of_find?_eq_some hfind
  · intro hmem
    refine ⟨(k, v), ?_, rfl⟩
    obtain ⟨as, bs, hsplit⟩ := List.append_of_mem hmem
    have hsorted := t.sorted
    rw [hsplit, List.pairwise_append] at hsorted
    -- what stands before it has a smaller key
    have hnone : as.find? (fun e => decide (e.1 = k)) = none := by
      rw [List.find?_eq_none]
      intro e he
      rw [decide_eq_true_eq]
      exact (hsorted.2.2 e he _ List.mem_cons_self).ne
    rw [hsplit, List.find?_append, hnone, Option.none_or, List.find?_cons_of_pos]
    exact decide_eq_true rfl

@[simp] theorem get_empty (k : κ) : (empty : SortedTree κ V).get k = none := rfl

@[simp] theorem get_insert_self (t : SortedTree κ V) (k : κ) (v : V) :
    (t.insert k v).get k = some v :=
  get_eq_some_iff.mpr (mem_insert.mpr (Or.inl rfl))

@[simp] theorem get_insert_of_ne {t : SortedTree κ V} {k k' : κ} {v : V} (h : k' ≠ k) :
    (t.insert k v).get k' = t.get k' := by
  refine Option.ext fun v' => ?_
  rw [get_eq_some_iff, get_eq_some_iff, mem_insert, Prod.mk.injEq]
  constructor
  · rintro (⟨heq, -⟩ | ⟨-, hmem⟩)
    · exact absurd heq h
    · exact hmem
  · exact fun hmem => Or.inr ⟨h, hmem⟩

/-! ### Building -/

/-- A key above all others goes to the end. -/
theorem entries_insert_of_lt {t : SortedTree κ V} {k : κ} (h : ∀ e ∈ t.entries, e.1 < k) (v : V) :
    (t.insert k v).entries = t.entries ++ [(k, v)] := by
  have hbelow : t.entries.filter (fun e => decide (e.1 < k)) = t.entries :=
    List.filter_eq_self.mpr fun e he => decide_eq_true (h e he)
  have habove : t.entries.filter (fun e => decide (k < e.1)) = [] :=
    List.filter_eq_nil_iff.mpr fun e he => by
      rw [decide_eq_true_eq]
      exact (h e he).not_gt
  change t.entries.filter _ ++ (k, v) :: t.entries.filter _ = _
  rw [hbelow, habove]

/-- The elements by increasing key; of several with one key the last. -/
def sortBy {α : Type*} (key : α → κ) (xs : List α) : List α :=
  ((xs.foldl (fun t x => t.insert (key x) x) empty).entries).map Prod.snd

/-- Sorted elements stay as they are. -/
theorem sortBy_eq {α : Type*} {key : α → κ} {xs : List α}
    (hsorted : xs.Pairwise fun a b => key a < key b) : sortBy key xs = xs := by
  have hfold : ∀ t : SortedTree κ α, (∀ e ∈ t.entries, ∀ x ∈ xs, e.1 < key x) →
      (xs.foldl (fun t x => t.insert (key x) x) t).entries
        = t.entries ++ xs.map fun x => (key x, x) := by
    -- By induction on the elements: each of them goes to the end of what is there.
    induction xs with
    | nil => exact fun t _ => (List.append_nil _).symm
    | cons x xs ih =>
      intro t ht
      rw [List.pairwise_cons] at hsorted
      have hx := entries_insert_of_lt (fun e he => ht e he x List.mem_cons_self) x
      rw [List.foldl_cons, ih hsorted.2 (t.insert (key x) x), hx, List.append_assoc]
      · rfl
      · intro e he y hy
        rw [hx, List.mem_append, List.mem_singleton] at he
        rcases he with he | rfl
        · exact ht e he y (List.mem_cons_of_mem _ hy)
        · exact hsorted.1 y hy
  rw [sortBy, hfold empty fun e he => absurd he List.not_mem_nil, entries_empty, List.nil_append,
    List.map_map]
  exact List.map_id xs

end SortedTree
