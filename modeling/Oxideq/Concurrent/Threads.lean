import Oxideq.Concurrent.Turns

/-!
# Threads that make many calls

A thread of `Oxideq.Concurrent.Calls` makes one call. A server makes the next one when the last
one has ended, so that a run has as many calls as one likes, and which they are shows only as it
goes on. `Config.callAt` gives a thread its next call; nothing else of the configuration changes,
and a thread without a call running has nothing in hand.
-/

namespace Oxideq

variable {ι α : Type}

namespace Thread

/-- A thread that has not been given a call. -/
def vacant : Thread α := ⟨.done (.ok .done), none⟩

/-- The thread has no call running: it has not begun its call, or the call has ended. -/
def idle : Thread α → Bool
  | ⟨.start _, none⟩ => true
  | ⟨.done _, _⟩ => true
  | _ => false

theorem phase_of_idle {t : Thread α} (h : t.idle = true) : t.pc.phase = .idle := by
  unfold idle at h
  split at h
  · rfl
  · rfl
  · cases h

theorem serves_vacant (c : Call α) : (vacant : Thread α).Serves c :=
  ⟨.done, fun hne => absurd rfl hne⟩

theorem serves_call (c : Call α) : (Thread.call c).Serves c :=
  ⟨.start, fun hne => absurd rfl hne⟩

end Thread

namespace Config

/-- No call is running. -/
def Quiet (σ : Config ι α) : Prop := ∀ i, (σ.threads i).idle = true

variable [DecidableEq ι]

/-- Thread `i` is given the call `c`. -/
def callAt (σ : Config ι α) (i : ι) (c : Call α) : Config ι α :=
  { σ with threads := Function.update σ.threads i (Thread.call c) }

/-- What the call before had in hand is gone, if it was dropped in the middle. -/
theorem phases_callAt (σ : Config ι α) (i : ι) (c : Call α) :
    (σ.callAt i c).phases = Function.update σ.phases i .idle := by
  funext j
  by_cases hj : j = i
  · rw [hj, Function.update_self]
    simp [phases, pc, callAt, Thread.call]
  · rw [Function.update_of_ne hj]
    simp [phases, pc, callAt, Function.update_of_ne hj]

end Config

end Oxideq
