import Mathlib.Data.List.Basic

/-!
# Runs of a step function

A function `step : σ → ε → σ` run over a list of events. `Along step P` says that `P` holds at
the start and after every event; `Meets step ok` says that every event met a condition on the
state before it. The two are tied together by an invariant:

* `Meets.invariant` — an invariant kept by the events that meet the condition holds after a run
  of such events;
* `Along.of_meets` — so does, after every event, whatever the invariant implies;
* `along_iff_meets` — where moreover every event that fails the condition breaks `P` on the
  spot, `P` holds all along a run exactly when every event of it meets the condition.

The last one settles questions of the form "when does this always hold": the right-hand side
speaks about the inputs of the run only.
-/

namespace Oxideq

variable {σ ε : Type*} {step : σ → ε → σ}

/-- `P` holds now and after each of the events. -/
def Along (step : σ → ε → σ) (P : σ → Prop) : σ → List ε → Prop
  | s, [] => P s
  | s, e :: es => P s ∧ Along step P (step s e) es

/-- Every event meets `ok` in the state it finds. -/
def Meets (step : σ → ε → σ) (ok : σ → ε → Prop) : σ → List ε → Prop
  | _, [] => True
  | s, e :: es => ok s e ∧ Meets step ok (step s e) es

instance Meets.decidable (ok : σ → ε → Prop) [∀ s e, Decidable (ok s e)] :
    ∀ s es, Decidable (Meets step ok s es)
  | _, [] => inferInstanceAs (Decidable True)
  | s, e :: es =>
    have : Decidable (Meets step ok (step s e) es) := Meets.decidable ok (step s e) es
    inferInstanceAs (Decidable (_ ∧ _))

namespace Along

variable {P Q : σ → Prop} {s : σ} {es es' : List ε}

theorem start (h : Along step P s es) : P s := by
  cases es with
  | nil => exact h
  | cons e es => exact h.1

theorem finish (h : Along step P s es) : P (es.foldl step s) := by
  induction es generalizing s with
  | nil => exact h
  | cons e es ih => exact ih h.2

theorem mono (hPQ : ∀ s, P s → Q s) (h : Along step P s es) : Along step Q s es := by
  induction es generalizing s with
  | nil => exact hPQ _ h
  | cons e es ih => exact ⟨hPQ _ h.1, ih h.2⟩

end Along

namespace Meets

variable {P : σ → Prop} {ok ok' : σ → ε → Prop} {s : σ} {es : List ε}

/-- A condition that every event meets on its own. -/
theorem of_forall_mem (h : ∀ e ∈ es, ∀ s, ok s e) : Meets step ok s es := by
  induction es generalizing s with
  | nil => trivial
  | cons e es ih =>
    exact ⟨h e List.mem_cons_self s, ih fun e he => h e (List.mem_cons_of_mem _ he)⟩

/-- A condition on the events alone. -/
theorem iff_forall_mem {p : ε → Prop} : Meets step (fun _ e => p e) s es ↔ ∀ e ∈ es, p e := by
  induction es generalizing s with
  | nil => simp [Meets]
  | cons e es ih => rw [Meets, ih, List.forall_mem_cons]

theorem mono (hok : ∀ s e, ok s e → ok' s e) (h : Meets step ok s es) : Meets step ok' s es := by
  induction es generalizing s with
  | nil => trivial
  | cons e es ih => exact ⟨hok _ _ h.1, ih h.2⟩

/-- **Invariants hold at the end of a run.** -/
theorem invariant (I : σ → Prop) (h : Meets step ok s es) (h₀ : I s)
    (hstep : ∀ s e, I s → ok s e → I (step s e)) : I (es.foldl step s) := by
  induction es generalizing s with
  | nil => exact h₀
  | cons e es ih => exact ih h.2 (hstep s e h₀ h.1)

/-- An invariant holds all along the run, and so does what it implies. -/
theorem along (I : σ → Prop) (h : Meets step ok s es) (h₀ : I s)
    (hstep : ∀ s e, I s → ok s e → I (step s e)) (hP : ∀ s, I s → P s) : Along step P s es := by
  induction es generalizing s with
  | nil => exact hP s h₀
  | cons e es ih => exact ⟨hP s h₀, ih h.2 (hstep s e h₀ h.1)⟩

end Meets

/-- **When a property holds all along a run.** An invariant `I` that implies `P` is kept by the
events that meet `ok`, and the other events leave a state without `P`. -/
theorem along_iff_meets {P : σ → Prop} {ok : σ → ε → Prop} (I : σ → Prop) (hP : ∀ s, I s → P s)
    (hstep : ∀ s e, I s → ok s e → I (step s e))
    (hbreak : ∀ s e, I s → ¬ ok s e → ¬ P (step s e)) {s : σ} {es : List ε} (h₀ : I s) :
    Along step P s es ↔ Meets step ok s es := by
  refine ⟨fun h => ?_, fun h => h.along I h₀ hstep hP⟩
  induction es generalizing s with
  | nil => trivial
  | cons e es ih =>
    -- the first event that fails the condition would already break `P`
    have hok : ok s e := by
      by_contra hno
      exact hbreak s e h₀ hno h.2.start
    exact ⟨hok, ih (hstep s e h₀ hok) h.2⟩

end Oxideq
