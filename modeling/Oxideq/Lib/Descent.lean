import Mathlib.Data.Prod.Lex
import Mathlib.Order.OrderIsoNat
import Oxideq.Lib.System

/-!
# Systems that come to rest

A system comes to rest when none of its runs goes on for ever. The argument is a measure in a
well-founded order that every step takes down (`Ends.of_measure`). For a system of components, the
measures of the components may be added, where a step takes down the measure of the component it
belongs to and leaves the others alone; two measures may be taken after one another, the second
one counting only while the first one stays (`sum_update_lt`).
-/

namespace System

variable {σ ℓ : Type*} {S : System σ ℓ} {ok : σ → ℓ → Prop}

/-- No run of steps that meet `ok` goes on for ever. -/
def Ends (S : System σ ℓ) (ok : σ → ℓ → Prop) : Prop :=
  ∀ (s : ℕ → σ) (l : ℕ → ℓ), ¬ ∀ n, ok (s n) (l n) ∧ S.step (s n) (l n) = some (s (n + 1))

/-- A measure that every step takes down. -/
theorem Ends.of_measure {W : Type*} [Preorder W] [WellFoundedLT W] (measure : σ → W)
    (h : ∀ s l s', ok s l → S.step s l = some s' → measure s' < measure s) : S.Ends ok := by
  intro s l hrun
  have hdown : ∀ n, measure (s (n + 1)) < measure (s n) := fun n => h _ _ _ (hrun n).1 (hrun n).2
  exact not_strictAnti_of_wellFoundedLT (fun n => measure (s n)) (strictAnti_nat_of_succ_lt hdown)

/-- A step of one component takes down the sums. -/
theorem sum_update_lt {ι β : Type*} [Fintype ι] [DecidableEq ι] (f g : β → ℕ) (x : ι → β) (i : ι)
    (b : β) (h : f b < f (x i) ∨ f b = f (x i) ∧ g b < g (x i)) :
    ∑ j, f (Function.update x i b j) < ∑ j, f (x j) ∨
      ∑ j, f (Function.update x i b j) = ∑ j, f (x j) ∧
        ∑ j, g (Function.update x i b j) < ∑ j, g (x j) := by
  have hf := sum_update_add f x i b
  have hg := sum_update_add g x i b
  rcases h with hlt | ⟨heq, hlt⟩
  · left
    omega
  · right
    omega

end System
