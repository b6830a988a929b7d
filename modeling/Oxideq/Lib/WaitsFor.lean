import Mathlib.Data.Fintype.Basic
import Mathlib.Data.Finset.Max
import Mathlib.Logic.Relation

/-!
# Who waits for whom

Parties that wait for each other, as a relation: `r i j` says that `i` cannot go on before `j`
gives something up. Two arguments about such a relation, for any parties.

* **Ranks** (`exists_end`). If the waits along a chain go up in a linear order, then chains do not
  close, and among finitely many parties every chain ends in one that waits for nobody.
* **Steps.** When one party moves, chains change at that party only: it starts to wait
  (`chain_of_add`), or it goes on and may come to be waited for (`chain_of_idle`). Both say what a
  chain after the step was before it.
-/

namespace WaitChain

open Relation

variable {ι R : Type*} {r r' : ι → ι → Prop} {i x y : ι}

/-- **Every chain ends**, when waits go up in rank. -/
theorem exists_end [Fintype ι] [LinearOrder R] (rank : ι → R)
    (hrank : ∀ i j k, r i j → r j k → rank i < rank j) (i : ι) :
    ∃ j, ReflTransGen r i j ∧ ∀ k, ¬ r j k := by
  classical
  by_cases hi : ∀ k, ¬ r i k
  · exact ⟨i, .refl, hi⟩
  -- the highest party on a chain from `i` that still waits
  let waiting := Finset.univ.filter fun j => ReflTransGen r i j ∧ ∃ k, r j k
  have hne : waiting.Nonempty := by
    push Not at hi
    exact ⟨i, Finset.mem_filter.mpr ⟨Finset.mem_univ i, .refl, hi⟩⟩
  obtain ⟨j, hj, hmax⟩ := Finset.exists_max_image waiting rank hne
  obtain ⟨-, hchain, k, hjk⟩ := Finset.mem_filter.mp hj
  refine ⟨k, hchain.tail hjk, fun l hkl => ?_⟩
  have hk : k ∈ waiting := Finset.mem_filter.mpr ⟨Finset.mem_univ k, hchain.tail hjk, l, hkl⟩
  exact absurd (hrank j k l hjk hkl) (not_lt.mpr (hmax k hk))

/-- A chain after `i` started to wait for the parties in `p`. -/
theorem chain_of_add {p : ι → Prop} (hadd : ∀ a b, r' a b → r a b ∨ a = i ∧ p b)
    (h : ReflTransGen r' x y) :
    ReflTransGen r x y ∨ ReflTransGen r x i ∧ ∃ b, p b ∧ ReflTransGen r b y := by
  induction h with
  | refl => exact Or.inl .refl
  | @tail y z _ hyz ih =>
    rcases ih with hold | ⟨hxi, b, hb, hby⟩
    · rcases hadd y z hyz with hstep | ⟨rfl, hz⟩
      · exact Or.inl (hold.tail hstep)
      · exact Or.inr ⟨hold, z, hz, .refl⟩
    · rcases hadd y z hyz with hstep | ⟨rfl, hz⟩
      · exact Or.inr ⟨hxi, b, hb, hby.tail hstep⟩
      · exact Or.inr ⟨hxi, z, hz, .refl⟩

/-- A chain after `i` went on: `i` waits for nobody, so a chain can only end there. -/
theorem chain_of_idle (hidle : ∀ b, ¬ r' i b) (hold : ∀ a b, b ≠ i → r' a b → r a b)
    (h : ReflTransGen r' x y) :
    (y ≠ i → ReflTransGen r x y) ∧ (y = i → x = i ∨ ∃ k, ReflTransGen r x k ∧ r' k i) := by
  induction h with
  | refl => exact ⟨fun _ => .refl, Or.inl⟩
  | @tail y z _ hyz ih =>
    have hy : y ≠ i := by
      rintro rfl
      exact hidle z hyz
    refine ⟨fun hz => (ih.1 hy).tail (hold y z hz hyz), ?_⟩
    rintro rfl
    exact Or.inr ⟨y, ih.1 hy, hyz⟩

end WaitChain
