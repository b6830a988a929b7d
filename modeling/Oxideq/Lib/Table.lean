import Mathlib.Data.Finmap
import Mathlib.Algebra.BigOperators.Group.Finset.Basic
import Mathlib.Algebra.BigOperators.Group.Multiset.Basic
import Mathlib.Data.Multiset.AddSub

/-!
# Totals over tables

The sum of a function over the entries of a finite map. Changing one entry changes the total by
that entry's share; the laws are stated as equations between sums, so that they hold in any
commutative monoid.

Multiset-valued totals collect what the entries contain (`mem_total`); where such a total has no
duplicates, no two entries share an element (`key_eq_of_nodup`).
-/

namespace Table

variable {κ V W M : Type*} [DecidableEq κ]

section Total

variable [AddCommMonoid M]

/-- The sum of `f` over the entries of `t`. -/
def total (f : κ → V → M) (t : Finmap fun _ : κ => V) : M :=
  (t.entries.map fun e => f e.1 e.2).sum

omit [DecidableEq κ] in
@[simp] theorem total_empty (f : κ → V → M) : total f ∅ = 0 := rfl

theorem total_insert_of_notMem (f : κ → V → M) {t : Finmap fun _ : κ => V} {k : κ} (h : k ∉ t)
    (v : V) : total f (t.insert k v) = f k v + total f t := by
  unfold total
  rw [Finmap.entries_insert_of_notMem h, Multiset.map_cons, Multiset.sum_cons]

/-- A present entry can be taken out and put back. -/
theorem insert_erase {t : Finmap fun _ : κ => V} {k : κ} {v : V} (h : t.lookup k = some v) :
    (t.erase k).insert k v = t := by
  refine Finmap.ext_lookup fun k' => ?_
  by_cases hk : k' = k
  · rw [hk, Finmap.lookup_insert, h]
  · rw [Finmap.lookup_insert_of_ne _ hk, Finmap.lookup_erase_ne hk]

theorem insert_erase_insert (t : Finmap fun _ : κ => V) (k : κ) (v : V) :
    (t.erase k).insert k v = t.insert k v := by
  refine Finmap.ext_lookup fun k' => ?_
  by_cases hk : k' = k
  · rw [hk, Finmap.lookup_insert, Finmap.lookup_insert]
  · rw [Finmap.lookup_insert_of_ne _ hk, Finmap.lookup_insert_of_ne _ hk,
      Finmap.lookup_erase_ne hk]

/-- The share of an entry and the total of the others. -/
theorem total_erase (f : κ → V → M) {t : Finmap fun _ : κ => V} {k : κ} {v : V}
    (h : t.lookup k = some v) : f k v + total f (t.erase k) = total f t := by
  have hadd := total_insert_of_notMem f (Finmap.notMem_erase_self (a := k) (s := t)) v
  rw [insert_erase h] at hadd
  exact hadd.symm

/-- Replacing an entry exchanges its share. -/
theorem total_insert_of_lookup (f : κ → V → M) {t : Finmap fun _ : κ => V} {k : κ} {v : V}
    (h : t.lookup k = some v) (v' : V) :
    f k v + total f (t.insert k v') = f k v' + total f t := by
  have hadd := total_insert_of_notMem f (Finmap.notMem_erase_self (a := k) (s := t)) v'
  rw [insert_erase_insert] at hadd
  rw [hadd, ← total_erase f h, add_left_comm]

/-- A total as a sum over keys, among which are those of the table. -/
theorem total_eq_sum (f : κ → V → M) {t : Finmap fun _ : κ => V} {S : Finset κ}
    (h : ∀ k ∈ t, k ∈ S) : total f t = ∑ k ∈ S, (t.lookup k).elim 0 (f k) := by
  have hkeys : total f t = ∑ k ∈ t.keys, (t.lookup k).elim 0 (f k) := by
    show _ = ((t.entries.map Sigma.fst).map fun k => (t.lookup k).elim 0 (f k)).sum
    rw [Multiset.map_map]
    refine congrArg Multiset.sum (Multiset.map_congr rfl fun e he => ?_)
    rw [Function.comp_apply, Finmap.lookup_eq_some_iff.mpr he]
    rfl
  rw [hkeys]
  refine Finset.sum_subset (fun k hk => h k (Finmap.mem_keys.mp hk)) fun k _ hk => ?_
  rw [Finmap.lookup_eq_none.mpr fun hmem => hk (Finmap.mem_keys.mpr hmem)]
  rfl

end Total

section Contents

variable (f : κ → V → Multiset W)

/-- What a total contains is in some entry. -/
theorem mem_total {t : Finmap fun _ : κ => V} {x : W} :
    x ∈ total f t ↔ ∃ k v, t.lookup k = some v ∧ x ∈ f k v := by
  have hbind : total f t = t.entries.bind fun e => f e.1 e.2 := rfl
  rw [hbind, Multiset.mem_bind]
  constructor
  · rintro ⟨e, he, hx⟩
    exact ⟨e.1, e.2, Finmap.lookup_eq_some_iff.mpr he, hx⟩
  · rintro ⟨k, v, hl, hx⟩
    exact ⟨⟨k, v⟩, Finmap.lookup_eq_some_iff.mp hl, hx⟩

/-- The share of an entry is part of the total. -/
theorem le_total {t : Finmap fun _ : κ => V} {k : κ} {v : V} (h : t.lookup k = some v) :
    f k v ≤ total f t := by
  rw [← total_erase f h]
  exact Multiset.le_add_right _ _

/-- Without duplicates, an element is in one entry only. -/
theorem key_eq_of_nodup {t : Finmap fun _ : κ => V} (hn : (total f t).Nodup) {k k' : κ}
    {v v' : V} {x : W} (h : t.lookup k = some v) (h' : t.lookup k' = some v') (hx : x ∈ f k v)
    (hx' : x ∈ f k' v') : k = k' := by
  by_contra hk
  have herase : (t.erase k).lookup k' = some v' := by
    rwa [Finmap.lookup_erase_ne (Ne.symm hk)]
  rw [← total_erase f h, Multiset.nodup_add] at hn
  exact Multiset.disjoint_left.mp hn.2.2 hx (Multiset.mem_of_le (le_total f herase) hx')

end Contents

/-! ### Changing the values -/

section Map

/-- The table with a function applied to every entry. -/
def mapValues (f : κ → V → W) (t : Finmap fun _ : κ => V) : Finmap fun _ : κ => W where
  entries := t.entries.map fun e => ⟨e.1, f e.1 e.2⟩
  nodupKeys := by
    have h := t.nodupKeys
    rw [← Multiset.nodup_keys] at h ⊢
    unfold Multiset.keys at h ⊢
    rwa [Multiset.map_map]

theorem lookup_mapValues (f : κ → V → W) (t : Finmap fun _ : κ => V) (k : κ) :
    (mapValues f t).lookup k = (t.lookup k).map (f k) := by
  ext w
  rw [Option.map_eq_some_iff, Finmap.lookup_eq_some_iff, mapValues, Multiset.mem_map]
  constructor
  · rintro ⟨e, he, heq⟩
    cases heq
    exact ⟨e.2, Finmap.lookup_eq_some_iff.mpr he, rfl⟩
  · rintro ⟨v, hv, rfl⟩
    exact ⟨⟨k, v⟩, Finmap.lookup_eq_some_iff.mp hv, rfl⟩

omit [DecidableEq κ] in
theorem total_mapValues [AddCommMonoid M] (g : κ → W → M) (f : κ → V → W)
    (t : Finmap fun _ : κ => V) : total g (mapValues f t) = total (fun k v => g k (f k v)) t := by
  unfold total mapValues
  rw [Multiset.map_map]
  rfl

end Map

/-! ### Copies -/

section Copy

/-- The entries of `t` under the given keys, inserted one after the other into `acc`. -/
def refill (t : Finmap fun _ : κ => V) (keys : List κ) (acc : Finmap fun _ : κ => V) :
    Finmap fun _ : κ => V :=
  keys.foldl (fun acc k => ((t.lookup k).map (acc.insert k)).getD acc) acc

theorem lookup_refill (t : Finmap fun _ : κ => V) (keys : List κ) (acc : Finmap fun _ : κ => V)
    (k : κ) : (refill t keys acc).lookup k
      = if k ∈ keys then (t.lookup k).or (acc.lookup k) else acc.lookup k := by
  induction keys generalizing acc with
  | nil => rw [if_neg List.not_mem_nil]; rfl
  | cons k' keys ih =>
    rw [refill, List.foldl_cons]
    change (refill t keys _).lookup k = _
    rw [ih]
    by_cases hk : k = k'
    · -- inserting the entry once more does not change it
      rw [← hk, if_pos List.mem_cons_self]
      cases hl : t.lookup k with
      | none => simp
      | some v => simp
    · have hacc : (((t.lookup k').map (acc.insert k')).getD acc).lookup k = acc.lookup k := by
        cases t.lookup k' with
        | none => rfl
        | some v => exact Finmap.lookup_insert_of_ne _ hk
      simp only [hacc, List.mem_cons, hk, false_or]

/-- **A table copied entry by entry**, in any order of its keys, is the table. -/
theorem refill_eq {t : Finmap fun _ : κ => V} {keys : List κ}
    (h : (keys : Multiset κ) = t.keys.val) : refill t keys ∅ = t := by
  refine Finmap.ext_lookup fun k => ?_
  have hmem : k ∈ keys ↔ k ∈ t := by
    rw [← Multiset.mem_coe, h]
    exact Finmap.mem_keys
  rw [lookup_refill, Finmap.lookup_empty, Option.or_none]
  by_cases hk : k ∈ t
  · rw [if_pos (hmem.mpr hk)]
  · rw [if_neg fun hl => hk (hmem.mp hl), Finmap.lookup_eq_none.mpr hk]

end Copy

/-! ### Parts of a table -/

section Part

/-- The entries whose keys meet `p`. -/
def restrict (p : κ → Prop) [DecidablePred p] (t : Finmap fun _ : κ => V) :
    Finmap fun _ : κ => V where
  entries := t.entries.filter fun e => p e.1
  nodupKeys := by
    have h := t.nodupKeys
    rw [← Multiset.nodup_keys] at h ⊢
    exact Multiset.nodup_of_le (Multiset.map_le_map (Multiset.filter_le _ _)) h

variable {p : κ → Prop} [DecidablePred p] {t t' : Finmap fun _ : κ => V} {k : κ}

theorem lookup_restrict_of_pos (h : p k) : (restrict p t).lookup k = t.lookup k := by
  ext v
  rw [Finmap.lookup_eq_some_iff, Finmap.lookup_eq_some_iff, restrict, Multiset.mem_filter]
  exact and_iff_left h

theorem lookup_restrict_of_neg (h : ¬ p k) : (restrict p t).lookup k = none := by
  cases hl : (restrict p t).lookup k with
  | none => rfl
  | some v =>
    rw [Finmap.lookup_eq_some_iff, restrict, Multiset.mem_filter] at hl
    exact absurd hl.2 h

/-- Two tables have the same part when they agree on its keys. -/
theorem restrict_eq_iff :
    restrict p t = restrict p t' ↔ ∀ k, p k → t.lookup k = t'.lookup k := by
  constructor
  · intro h k hk
    rw [← lookup_restrict_of_pos hk, h, lookup_restrict_of_pos hk]
  · intro h
    refine Finmap.ext_lookup fun k => ?_
    by_cases hk : p k
    · rw [lookup_restrict_of_pos hk, lookup_restrict_of_pos hk, h k hk]
    · rw [lookup_restrict_of_neg hk, lookup_restrict_of_neg hk]

omit [DecidableEq κ] in
theorem restrict_empty : restrict p (∅ : Finmap fun _ : κ => V) = ∅ := rfl

theorem restrict_union : restrict p (t ∪ t') = restrict p t ∪ restrict p t' := by
  refine Finmap.ext_lookup fun k => ?_
  by_cases hk : p k
  · rw [lookup_restrict_of_pos hk]
    by_cases hmem : k ∈ t
    · have hmem' : k ∈ restrict p t := by
        rw [← Finmap.lookup_isSome, lookup_restrict_of_pos hk]
        exact Finmap.lookup_isSome.mpr hmem
      rw [Finmap.lookup_union_left hmem, Finmap.lookup_union_left hmem',
        lookup_restrict_of_pos hk]
    · have hmem' : k ∉ restrict p t := by
        rw [← Finmap.lookup_eq_none, lookup_restrict_of_pos hk]
        exact Finmap.lookup_eq_none.mpr hmem
      rw [Finmap.lookup_union_right hmem, Finmap.lookup_union_right hmem',
        lookup_restrict_of_pos hk]
  · have hmem : k ∉ restrict p t := Finmap.lookup_eq_none.mp (lookup_restrict_of_neg hk)
    rw [lookup_restrict_of_neg hk, Finmap.lookup_union_right hmem, lookup_restrict_of_neg hk]

theorem restrict_restrict_self : restrict p (restrict p t) = restrict p t :=
  restrict_eq_iff.mpr fun _ hk => lookup_restrict_of_pos hk

theorem restrict_restrict_of_disjoint {q : κ → Prop} [DecidablePred q] (h : ∀ k, p k → ¬ q k) :
    restrict p (restrict q t) = ∅ := by
  rw [← restrict_empty (p := p)]
  exact restrict_eq_iff.mpr fun k hk => lookup_restrict_of_neg (h k hk)

/-- A table is determined by its parts, when they cover all keys. -/
theorem eq_of_restrict {ι : Type*} [DecidableEq ι] (f : κ → ι)
    (h : ∀ i, restrict (fun k => f k = i) t = restrict (fun k => f k = i) t') : t = t' :=
  Finmap.ext_lookup fun k => restrict_eq_iff.mp (h (f k)) k rfl

end Part

end Table
