import Mathlib.Data.Set.Basic

/-!
# Frames

What a step leaves alone. A state is read at places, and a step is framed by a set of places when
every reading outside of the set is what it was. A frame may be larger than it has to be (`mono`),
so that steps one after the other are framed by a set that is large enough for each of them
(`trans`), whatever they are.
-/

variable {σ κ : Type*} {β : κ → Type*}

/-- Outside of `touched`, `s'` reads as `s` does. -/
def Framed (read : σ → ∀ k, β k) (touched : Set κ) (s s' : σ) : Prop :=
  ∀ k ∉ touched, read s' k = read s k

namespace Framed

variable {read : σ → ∀ k, β k} {touched touched' : Set κ} {s s' s'' : σ}

theorem refl (s : σ) : Framed read touched s s := fun _ _ => rfl

theorem of_eq (h : read s' = read s) : Framed read touched s s' :=
  fun k _ => congrFun h k

theorem mono (h : Framed read touched s s') (hsub : touched ⊆ touched') :
    Framed read touched' s s' :=
  fun k hk => h k fun hmem => hk (hsub hmem)

theorem trans (h : Framed read touched s s') (h' : Framed read touched s' s'') :
    Framed read touched s s'' :=
  fun k hk => (h' k hk).trans (h k hk)

end Framed
