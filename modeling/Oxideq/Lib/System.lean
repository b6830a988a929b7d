import Mathlib.Data.Option.Basic
import Mathlib.Data.Finset.Basic
import Mathlib.Algebra.BigOperators.Group.Finset.Basic
import Mathlib.Algebra.Order.BigOperators.Group.Finset
import Mathlib.Data.Multiset.Bind
import Mathlib.Tactic.Abel

/-!
# Labelled systems

A system whose next state is computed from its state and a label, `none` where the label is not
enabled. `Reach` collects the states of the runs whose steps all meet a condition on the state
before the step and the label; what holds at the start and is kept by such steps holds in all of
them (`Reach.invariant`).

`recording` adds a record that is computed along the run and read by no step.
-/

structure System (σ ℓ : Type*) where
  step : σ → ℓ → Option σ

namespace System

variable {σ ℓ γ : Type*} (S : System σ ℓ)

/-- The state after a list of labels, as long as the steps meet `ok`. -/
def run (ok : σ → ℓ → Prop) [∀ s l, Decidable (ok s l)] (s : σ) : List ℓ → Option σ
  | [] => some s
  | l :: ls => if ok s l then (S.step s l).bind fun s' => run ok s' ls else none

/-- A label that is not enabled is passed over. Every run is a run of this function, over the
labels of its steps. -/
def attempt (s : σ) (l : ℓ) : σ := (S.step s l).getD s

/-- The states reached from `s₀` by steps that meet `ok`. -/
inductive Reach (ok : σ → ℓ → Prop) (s₀ : σ) : σ → Prop
  | start : Reach ok s₀ s₀
  | step {s s' : σ} {l : ℓ} (h : Reach ok s₀ s) (hok : ok s l) (hs : S.step s l = some s') :
    Reach ok s₀ s'

variable {S}

namespace Reach

variable {ok ok' : σ → ℓ → Prop} {s₀ s s' : σ}

/-- **Invariants hold in every state reached.** -/
theorem invariant (h : S.Reach ok s₀ s) (inv : σ → Prop) (h₀ : inv s₀)
    (hstep : ∀ s l s', inv s → ok s l → S.step s l = some s' → inv s') : inv s := by
  induction h with
  | start => exact h₀
  | step _ hok hs ih => exact hstep _ _ _ ih hok hs

/-- A weaker condition, to be shown along the run with an invariant at hand. -/
theorem weaken {inv : σ → Prop} (hinv : ∀ {s}, S.Reach ok s₀ s → inv s)
    (hok : ∀ s l, inv s → ok s l → ok' s l) (h : S.Reach ok s₀ s) : S.Reach ok' s₀ s := by
  induction h with
  | start => exact .start
  | step hr ho hs ih => exact ih.step (hok _ _ (hinv hr) ho) hs

theorem mono (hok : ∀ s l, ok s l → ok' s l) (h : S.Reach ok s₀ s) : S.Reach ok' s₀ s := by
  induction h with
  | start => exact .start
  | step _ ho hs ih => exact ih.step (hok _ _ ho) hs

theorem trans (h : S.Reach ok s₀ s) (h' : S.Reach ok s s') : S.Reach ok s₀ s' := by
  induction h' with
  | start => exact h
  | step _ ho hs ih => exact ih.step ho hs

/-- What `run` computes is reached. -/
theorem of_run [∀ s l, Decidable (ok s l)] {ls : List ℓ} (h : S.run ok s₀ ls = some s) :
    S.Reach ok s₀ s := by
  induction ls generalizing s₀ with
  | nil => cases h; exact .start
  | cons l ls ih =>
    rw [run, Option.ite_none_right_eq_some] at h
    obtain ⟨hok, h⟩ := h
    obtain ⟨s₁, hs₁, hrun⟩ := Option.bind_eq_some_iff.mp h
    exact (Reach.start.step hok hs₁).trans (ih hrun)

/-- A run that ends where `p` holds. -/
theorem exists_of_run (S : System σ ℓ) (ok : σ → ℓ → Prop) [∀ s l, Decidable (ok s l)] (s₀ : σ)
    (p : σ → Prop) [DecidablePred p] (ls : List ℓ) (h : (S.run ok s₀ ls).any (p ·) = true) :
    ∃ s, S.Reach ok s₀ s ∧ p s := by
  obtain ⟨s, hs, hp⟩ := (Option.any_eq_true _ _).mp h
  exact ⟨s, of_run hs, of_decide_eq_true hp⟩

end Reach

/-- The system with a record of its run: `r s l g` extends the record `g` when the step of `l` is
taken in `s`. -/
def recording (S : System σ ℓ) (r : σ → ℓ → γ → γ) : System (σ × γ) ℓ where
  step s l := (S.step s.1 l).map fun s' => (s', r s.1 l s.2)

theorem recording_step {r : σ → ℓ → γ → γ} {s s' : σ × γ} {l : ℓ} :
    (S.recording r).step s l = some s' ↔ S.step s.1 l = some s'.1 ∧ s'.2 = r s.1 l s.2 := by
  obtain ⟨s'₁, s'₂⟩ := s'
  simp only [recording, Option.map_eq_some_iff, Prod.mk.injEq]
  constructor
  · rintro ⟨_, hs, rfl, rfl⟩
    exact ⟨hs, rfl⟩
  · rintro ⟨hs, rfl⟩
    exact ⟨_, hs, rfl, rfl⟩

/-- Every run has a record. -/
theorem Reach.exists_record {r : σ → ℓ → γ → γ} {ok : σ → ℓ → Prop} {s₀ s : σ} (g₀ : γ)
    (h : S.Reach ok s₀ s) : ∃ g, (S.recording r).Reach (fun s l => ok s.1 l) (s₀, g₀) (s, g) := by
  induction h with
  | start => exact ⟨g₀, .start⟩
  | @step s s' l _ hok hs ih =>
    obtain ⟨g, hg⟩ := ih
    exact ⟨r s l g, hg.step (l := l) hok (recording_step.mpr ⟨hs, rfl⟩)⟩

/-! ### Sums over components -/

/-- The sum over a family of components after one of them changed, against the sum before. -/
theorem sum_update_add {ι β M : Type*} [Fintype ι] [DecidableEq ι] [AddCommMonoid M]
    (f : β → M) (x : ι → β) (i : ι) (b : β) :
    f (x i) + ∑ j, f (Function.update x i b j) = f b + ∑ j, f (x j) := by
  have hrest : ∑ j ∈ Finset.univ.erase i, f (Function.update x i b j)
      = ∑ j ∈ Finset.univ.erase i, f (x j) :=
    Finset.sum_congr rfl fun j hj => by
      rw [Function.update_of_ne (Finset.ne_of_mem_erase hj)]
  rw [← Finset.add_sum_erase _ _ (Finset.mem_univ i),
    ← Finset.add_sum_erase (a := i) _ (fun j => f (x j)) (Finset.mem_univ i), hrest,
    Function.update_self, add_left_comm]

/-- What a change of one component balances, the change of the sum balances. -/
theorem sum_update_exchange {ι β M : Type*} [Fintype ι] [DecidableEq ι] [AddCancelCommMonoid M]
    (f : β → M) (x : ι → β) (i : ι) (b : β) {p q r s : M}
    (h : p + f b + q = r + f (x i) + s) :
    p + ∑ j, f (Function.update x i b j) + q = r + ∑ j, f (x j) + s := by
  have hsum := sum_update_add f x i b
  refine add_left_cancel (a := f (x i)) ?_
  calc f (x i) + (p + ∑ j, f (Function.update x i b j) + q)
      = p + (f (x i) + ∑ j, f (Function.update x i b j)) + q := by abel
    _ = p + f b + q + ∑ j, f (x j) := by rw [hsum]; abel
    _ = f (x i) + (r + ∑ j, f (x j) + s) := by rw [h]; abel

/-- A sum of smaller components is smaller, with what is left over in one of them. -/
theorem sum_add_le_sum {ι M : Type*} [Fintype ι] [DecidableEq ι] [AddCommMonoid M] [Preorder M]
    [AddLeftMono M] {f g : ι → M} (h : ∀ j, f j ≤ g j) {i : ι} {d : M} (hi : f i + d ≤ g i) :
    ∑ j, f j + d ≤ ∑ j, g j := by
  have hrest : ∑ j ∈ Finset.univ.erase i, f j ≤ ∑ j ∈ Finset.univ.erase i, g j :=
    Finset.sum_le_sum fun j _ => h j
  calc ∑ j, f j + d = f i + d + ∑ j ∈ Finset.univ.erase i, f j := by
        rw [← Finset.add_sum_erase _ f (Finset.mem_univ i), add_right_comm]
    _ ≤ g i + ∑ j ∈ Finset.univ.erase i, g j := add_le_add hi hrest
    _ = ∑ j, g j := Finset.add_sum_erase _ g (Finset.mem_univ i)

/-! ### Contributions in order -/

section Ordered

variable {ι β : Type*} [DecidableEq ι] {f : ι → List β} {i : ι}

/-- What `i` contributes can be taken out in front, when those before it contribute nothing or it
does itself. -/
theorem flatMap_erase {is : List ι} (hi : i ∈ is)
    (h : ∀ j ∈ is.takeWhile (· ≠ i), f i = [] ∨ f j = []) :
    is.flatMap f = f i ++ (is.erase i).flatMap f := by
  induction is with
  | nil => cases hi
  | cons k ks ih =>
    by_cases hk : k = i
    · rw [hk, List.erase_cons_head, List.flatMap_cons]
    · rw [List.takeWhile_cons_of_pos (by simpa using hk)] at h
      have hrest := ih ((List.mem_cons.mp hi).resolve_left (Ne.symm hk)) fun j hj =>
        h j (List.mem_cons_of_mem _ hj)
      rw [List.erase_cons_tail (by simpa using hk), List.flatMap_cons, List.flatMap_cons, hrest]
      rcases h k List.mem_cons_self with hnil | hnil <;> simp [hnil]

/-- The same at the back of the reversed order. -/
theorem flatMap_reverse_erase {is : List ι} (hi : i ∈ is)
    (h : ∀ j ∈ is.takeWhile (· ≠ i), f i = [] ∨ f j = []) :
    is.reverse.flatMap f = (is.erase i).reverse.flatMap f ++ f i := by
  induction is with
  | nil => cases hi
  | cons k ks ih =>
    by_cases hk : k = i
    · rw [hk, List.erase_cons_head, List.reverse_cons, List.flatMap_append, List.flatMap_singleton]
    · rw [List.takeWhile_cons_of_pos (by simpa using hk)] at h
      have hrest := ih ((List.mem_cons.mp hi).resolve_left (Ne.symm hk)) fun j hj =>
        h j (List.mem_cons_of_mem _ hj)
      rw [List.erase_cons_tail (by simpa using hk), List.reverse_cons, List.reverse_cons,
        List.flatMap_append, List.flatMap_append, hrest, List.flatMap_singleton]
      rcases h k List.mem_cons_self with hnil | hnil <;> simp [hnil]

omit [DecidableEq ι] in
/-- The contributions in an order, when all who contribute stand in it. -/
theorem coe_flatMap [Fintype ι] {is : List ι} (hn : is.Nodup) (h : ∀ i, f i ≠ [] → i ∈ is) :
    (is.flatMap f : Multiset β) = ∑ i, (f i : Multiset β) := by
  have hlisted : (is.flatMap f : Multiset β) = ∑ i ∈ (⟨is, hn⟩ : Finset ι), (f i : Multiset β) := by
    rw [← Multiset.coe_bind]
    rfl
  rw [hlisted]
  refine Finset.sum_subset (Finset.subset_univ _) fun i _ hi => ?_
  by_contra hne
  exact hi (h i fun hnil => hne (by rw [hnil]; rfl))

end Ordered

section Multisets

variable {ι β : Type*} [Fintype ι] {f : ι → Multiset β}

theorem nodup_sum (hf : ∀ i, (f i).Nodup)
    (hdisj : ∀ i j x, x ∈ f i → x ∈ f j → i = j) : (∑ i, f i).Nodup := by
  show (Finset.univ.val.bind f).Nodup
  rw [Multiset.nodup_bind]
  refine ⟨fun i _ => hf i, Multiset.Nodup.pairwise ?_ Finset.univ.nodup⟩
  intro i _ j _ hij
  exact Multiset.disjoint_left.mpr fun {x} hi hj => hij (hdisj i j x hi hj)

/-- A sum without duplicates has each of its elements from one component. -/
theorem eq_of_mem_of_nodup_sum (hn : (∑ i, f i).Nodup) {i j : ι} {x : β} (hi : x ∈ f i)
    (hj : x ∈ f j) : i = j := by
  classical
  by_contra hij
  rw [← Finset.add_sum_erase _ _ (Finset.mem_univ i), Multiset.nodup_add] at hn
  refine Multiset.disjoint_left.mp hn.2.2 hi (Multiset.mem_sum.mpr ⟨j, ?_, hj⟩)
  exact Finset.mem_erase.mpr ⟨Ne.symm hij, Finset.mem_univ j⟩

end Multisets

end System
