import Mathlib.Data.List.Basic
import Mathlib.Tactic.Common

/-!
# Noninterference

A machine that answers inputs one after the other, and inputs that it turns away: whatever its
state, such an input leaves the state as it is and has an answer that the state has no part in.
Turned away inputs can then be purged from a run (`purge`): the others are answered as before and
the run ends in the same state, so nobody who only sends such inputs learns anything of the state
or of other inputs, or has any influence on what the others see.
-/

namespace Noninterference

variable {σ ι ο : Type*}

/-- The inputs of a run with their answers, and the state after it. -/
def transcript (step : σ → ι → ο × σ) : σ → List ι → List (ι × ο) × σ
  | s, [] => ([], s)
  | s, i :: is =>
    let r := transcript step (step s i).2 is
    ((i, (step s i).1) :: r.1, r.2)

/-- **Invariants of transcripts.** What one step keeps, of the transcript so far and the state,
holds to the end; and what one step meets, given the transcript so far, all of them meet. -/
theorem transcript_invariant {step : σ → ι → ο × σ} {inv : List (ι × ο) → σ → Prop}
    {good : List (ι × ο) → ι × ο → Prop}
    (hstep : ∀ past s i, inv past s →
      good past (i, (step s i).1) ∧ inv (past ++ [(i, (step s i).1)]) (step s i).2)
    {past : List (ι × ο)} {s : σ} (h : inv past s) (is : List ι) :
    inv (past ++ (transcript step s is).1) (transcript step s is).2 ∧
      ∀ before e after, (transcript step s is).1 = before ++ e :: after →
        good (past ++ before) e := by
  induction is generalizing past s with
  | nil =>
    refine ⟨by rwa [transcript, List.append_nil], fun before e after heq => ?_⟩
    rw [transcript] at heq
    exact absurd heq (by simp)
  | cons i is ih =>
    obtain ⟨hgood, hinv⟩ := hstep past s i h
    obtain ⟨hend, hrest⟩ := ih hinv
    refine ⟨by rwa [List.append_assoc] at hend, fun before e after heq => ?_⟩
    rw [transcript] at heq
    cases before with
    | nil =>
      obtain ⟨rfl, -⟩ := List.cons.inj heq
      rwa [List.append_nil]
    | cons e' before =>
      obtain ⟨rfl, htail⟩ := List.cons.inj heq
      have hlater := hrest before e after htail
      rwa [List.append_assoc] at hlater

/-- The input changes nothing, and its answer does not depend on the state. -/
def TurnedAway (step : σ → ι → ο × σ) (answer : ι → ο) (i : ι) : Prop :=
  ∀ s, step s i = (answer i, s)

variable {step : σ → ι → ο × σ} {answer : ι → ο} {admitted : ι → Prop}

/-- **Purging.** The inputs that are turned away can be left out. -/
theorem purge [DecidablePred admitted] (h : ∀ i, ¬ admitted i → TurnedAway step answer i)
    (s : σ) (is : List ι) :
    transcript step s (is.filter admitted)
      = ((transcript step s is).1.filter fun e => admitted e.1, (transcript step s is).2) := by
  induction is generalizing s with
  | nil => rfl
  | cons i is ih =>
    by_cases hi : admitted i
    · rw [List.filter_cons_of_pos (by simpa using hi), transcript, transcript, ih]
      simp only
      rw [List.filter_cons_of_pos (by simpa using hi)]
    · rw [List.filter_cons_of_neg (by simpa using hi), transcript, h i hi s, ih]
      simp only
      rw [List.filter_cons_of_neg (by simpa using hi)]

/-- Their answers are those they have in any state. -/
theorem answer_of_mem (h : ∀ i, ¬ admitted i → TurnedAway step answer i) {s : σ} {is : List ι}
    {e : ι × ο} (he : e ∈ (transcript step s is).1) (hi : ¬ admitted e.1) : e.2 = answer e.1 := by
  induction is generalizing s with
  | nil => cases he
  | cons i is ih =>
    rw [transcript] at he
    rcases List.mem_cons.mp he with rfl | he
    · exact congrArg Prod.fst (h i hi s)
    · exact ih he

end Noninterference
