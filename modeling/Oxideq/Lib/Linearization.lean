import Mathlib.Data.List.Nodup
import Mathlib.Data.List.TakeWhile
import Mathlib.Logic.Function.Basic

/-!
# Linearizations

Calls on a shared object overlap: each is invoked at one moment and returns at a later one. They
are **linearizable** when every one of them could have taken effect at a single moment in between:
the calls can be put in an order in which, made one after the other, they return what they
returned and leave the state that was left, and a call that had returned before another was
invoked stands before it.

The object is given by `run`: what a call returns and the state it leaves, from the state it finds
and what it receives from outside. States may differ in parts that no call reads; `same` relates
those that differ in nothing else.

An order is built along a run of the overlapping calls. The marks of their beginnings and ends are
recorded (`RespectsTime.invoke`, `RespectsTime.finish`), and a call joins the order at its end when
it takes effect (`RespectsTime.take`). What the call received from outside may become known only
later, as long as the state it leaves does not depend on that (`same_after`).
-/

namespace Linearization

variable {ι ε τ ρ : Type*}

/-- The moments of a run at which a call is invoked and at which it returns. -/
inductive Mark (ι : Type*) where
  | invoked (i : ι)
  | returned (i : ι)

/-! ### Calls one after the other -/

section Sequential

variable (run : ι → ε → τ → ρ × τ) (envs : ι → ε) (t : τ)

/-- The state behind the calls of a list. -/
def after (order : List ι) : τ := order.foldl (fun t i => (run i (envs i) t).2) t

variable [DecidableEq ι]

/-- The state the call `i` of a list finds. -/
def before (order : List ι) (i : ι) : τ := after run envs t (order.takeWhile (· ≠ i))

/-- What the call `i` of a list returns. -/
def answer (order : List ι) (i : ι) : ρ := (run i (envs i) (before run envs t order i)).1

variable {run envs t} {order : List ι} {i j : ι}

omit [DecidableEq ι] in
theorem after_concat :
    after run envs t (order ++ [i]) = (run i (envs i) (after run envs t order)).2 := by
  rw [after, List.foldl_concat, after]

theorem before_concat_of_mem (h : i ∈ order) :
    before run envs t (order ++ [j]) i = before run envs t order i := by
  have hstop : (order ++ [j]).takeWhile (· ≠ i) = order.takeWhile (· ≠ i) := by
    induction order with
    | nil => cases h
    | cons k ks ih =>
      by_cases hk : k = i
      · simp [hk]
      · have hi : i ∈ ks := (List.mem_cons.mp h).resolve_left (Ne.symm hk)
        simpa [hk] using ih hi
  rw [before, before, hstop]

theorem before_concat_self (h : i ∉ order) :
    before run envs t (order ++ [i]) i = after run envs t order := by
  have hall : (order ++ [i]).takeWhile (· ≠ i) = order := by
    rw [List.takeWhile_append_of_pos]
    · simp
    · rintro k hk
      simpa using fun hki : k = i => h (hki ▸ hk)
  rw [before, hall]

/-! What a call receives matters from where it stands. -/

theorem after_update (h : i ∉ order) (e : ε) :
    after run (Function.update envs i e) t order = after run envs t order := by
  induction order generalizing t with
  | nil => rfl
  | cons k ks ih =>
    rw [List.mem_cons, not_or] at h
    rw [after, List.foldl_cons, Function.update_of_ne (Ne.symm h.1), ← after, ih h.2]
    rfl

theorem before_update (h : i ∉ order) (e : ε) (j : ι) :
    before run (Function.update envs i e) t order j = before run envs t order j :=
  after_update (fun hmem => h (List.takeWhile_subset _ hmem)) e

end Sequential

/-! ### States that differ in what no call reads -/

/-- The calls return the same from related states, and leave related states. -/
structure Respected (same : τ → τ → Prop) (run : ι → ε → τ → ρ × τ) : Prop where
  refl : ∀ t, same t t
  trans : ∀ {t t' t''}, same t t' → same t' t'' → same t t''
  answers : ∀ {t t'} i e, same t t' → (run i e t).1 = (run i e t').1
  states : ∀ {t t'} i e, same t t' → same (run i e t).2 (run i e t').2

section Respected

variable {same : τ → τ → Prop} {run : ι → ε → τ → ρ × τ} {envs envs' : ι → ε}

/-- What a call receives from outside may be exchanged, where the state it leaves does not depend
on it. -/
theorem Respected.same_after (h : Respected same run) {order : List ι}
    (henvs : ∀ i ∈ order, ∀ t, same (run i (envs i) t).2 (run i (envs' i) t).2) {t t' : τ}
    (ht : same t t') : same (after run envs t order) (after run envs' t' order) := by
  induction order generalizing t t' with
  | nil => exact ht
  | cons i is ih =>
    refine ih (fun j hj => henvs j (List.mem_cons_of_mem _ hj)) ?_
    exact h.trans (h.states i (envs i) ht) (henvs i List.mem_cons_self t')

variable [DecidableEq ι]

theorem Respected.same_before (h : Respected same run) {order : List ι}
    (henvs : ∀ i ∈ order, ∀ t, same (run i (envs i) t).2 (run i (envs' i) t).2) (t : τ) (i : ι) :
    same (before run envs t order i) (before run envs' t order i) :=
  h.same_after (fun j hj => henvs j (List.takeWhile_subset _ hj)) (h.refl t)

/-- The exchange for a single call. -/
theorem Respected.same_update (h : Respected same run) {i : ι} {e : ε}
    (he : ∀ t, same (run i (envs i) t).2 (run i e t).2) (j : ι) (t : τ) :
    same (run j (envs j) t).2 (run j (Function.update envs i e j) t).2 := by
  by_cases hj : j = i
  · rw [hj, Function.update_self]
    exact he t
  · rw [Function.update_of_ne hj]
    exact h.refl _

end Respected

/-! ### Real time -/

/-- The order agrees with the marks of a run: the calls that have returned are in it, those that
are in it have been invoked, and one that had returned before another was invoked precedes it. -/
structure RespectsTime (marks : List (Mark ι)) (order : List ι) : Prop where
  nodup : order.Nodup
  of_returned : ∀ i, .returned i ∈ marks → i ∈ order
  invoked : ∀ i ∈ order, .invoked i ∈ marks
  precedes : ∀ i j, List.Sublist [.returned i, .invoked j] marks → j ∈ order →
    List.Sublist [i, j] order

/-- A pair in a list with one more element is in the list, or ends with that element. -/
theorem pair_sublist_concat {β : Type*} {a b c : β} {l : List β}
    (h : List.Sublist [a, b] (l ++ [c])) :
    List.Sublist [a, b] l ∨ (a ∈ l ∧ b = c) := by
  obtain ⟨l₁, l₂, hl, h₁, h₂⟩ := List.sublist_append_iff.mp h
  rcases List.sublist_singleton.mp h₂ with rfl | rfl
  · rw [List.append_nil] at hl
    exact Or.inl (hl ▸ h₁)
  · rw [show [a, b] = [a] ++ [b] from rfl] at hl
    obtain ⟨rfl, hb⟩ := List.append_inj' hl rfl
    exact Or.inr ⟨List.singleton_sublist.mp h₁, (List.singleton_inj.mp hb)⟩

namespace RespectsTime

variable {marks : List (Mark ι)} {order : List ι} {i : ι}

theorem nil : RespectsTime ([] : List (Mark ι)) [] :=
  ⟨List.nodup_nil, fun _ h => absurd h List.not_mem_nil, fun _ h => absurd h List.not_mem_nil,
    fun _ _ _ h => absurd h List.not_mem_nil⟩

/-- A call is invoked that has not taken effect. -/
theorem invoke (h : RespectsTime marks order) (hi : i ∉ order) :
    RespectsTime (marks ++ [.invoked i]) order := by
  refine ⟨h.nodup, fun j hj => ?_, fun j hj => List.mem_append_left _ (h.invoked j hj),
    fun j k hjk hk => ?_⟩
  · rcases List.mem_append.mp hj with hj | hj
    · exact h.of_returned j hj
    · cases List.mem_singleton.mp hj
  · rcases pair_sublist_concat hjk with hold | ⟨-, hnew⟩
    · exact h.precedes j k hold hk
    · cases hnew
      exact absurd hk hi

/-- A call that was invoked takes effect: all calls that have returned did before. -/
theorem take (h : RespectsTime marks order) (hi : i ∉ order) (hinv : .invoked i ∈ marks) :
    RespectsTime marks (order ++ [i]) := by
  refine ⟨?_, fun j hj => List.mem_append_left _ (h.of_returned j hj), fun j hj => ?_,
    fun j k hjk hk => ?_⟩
  · exact List.nodup_append.mpr ⟨h.nodup, List.nodup_singleton i,
      fun j hj k hk => by cases List.mem_singleton.mp hk; rintro rfl; exact hi hj⟩
  · rcases List.mem_append.mp hj with hj | hj
    · exact h.invoked j hj
    · cases List.mem_singleton.mp hj
      exact hinv
  · rcases List.mem_append.mp hk with hk | hk
    · exact (h.precedes j k hjk hk).trans (List.sublist_append_left _ _)
    · cases List.mem_singleton.mp hk
      have hj : j ∈ order := h.of_returned j (hjk.subset List.mem_cons_self)
      exact List.Sublist.append (List.singleton_sublist.mpr hj) (List.Sublist.refl [i])

/-- A call returns that has taken effect. -/
theorem finish (h : RespectsTime marks order) (hi : i ∈ order) :
    RespectsTime (marks ++ [.returned i]) order := by
  refine ⟨h.nodup, fun j hj => ?_, fun j hj => List.mem_append_left _ (h.invoked j hj),
    fun j k hjk hk => ?_⟩
  · rcases List.mem_append.mp hj with hj | hj
    · exact h.of_returned j hj
    · cases List.mem_singleton.mp hj
      exact hi
  · rcases pair_sublist_concat hjk with hold | ⟨-, hnew⟩
    · exact h.precedes j k hold hk
    · cases hnew

end RespectsTime

/-! ### Linearizable runs -/

/-- **The run is linearizable.** `answers` says what the calls have returned, `none` for those that
have not: some of these may have taken effect nonetheless. `final` is what is known of the state
behind the calls that have. -/
def Linearizable [DecidableEq ι] (run : ι → ε → τ → ρ × τ) (t : τ) (marks : List (Mark ι))
    (answers : ι → Option ρ) (final : τ → Prop) : Prop :=
  ∃ (order : List ι) (envs : ι → ε), RespectsTime marks order ∧
    (∀ i r, answers i = some r → i ∈ order ∧ answer run envs t order i = r) ∧
    final (after run envs t order)

end Linearization
