import Mathlib.Data.List.Induction
import Mathlib.Data.List.Nodup

/-!
# Lifetimes in a log

A log whose entries open, use and close lifetimes, each known by its key. In a well-formed log
every key is opened once, is used only behind the entry that opens it, and is not named any more
behind an entry that closes it (`Vocabulary.WellFormed`).

A log is written at its end, so the one thing to know is what another entry asks for
(`WellFormed.snoc`); and it is read from its beginning, so whatever holds of a log holds of the
part read so far (`WellFormed.of_append`).
-/

/-- What the entries of a log say about the keys. What is opened or used is named, and to close a
lifetime is to use it. -/
structure Vocabulary (β κ : Type*) where
  opens : β → List κ
  uses : β → List κ
  closes : β → List κ
  names : β → List κ
  opens_subset : ∀ b, opens b ⊆ names b
  uses_subset : ∀ b, uses b ⊆ names b
  closes_subset : ∀ b, closes b ⊆ uses b

namespace Vocabulary

variable {β κ : Type*} (v : Vocabulary β κ)

/-- The keys opened in a log. -/
def opened (log : List β) : List κ := log.flatMap v.opens

/-- The keys closed in a log. -/
def closed (log : List β) : List κ := log.flatMap v.closes

/-- Every lifetime runs its course in the log. -/
structure WellFormed (log : List β) : Prop where
  used : ∀ before b after, log = before ++ b :: after → ∀ k ∈ v.uses b, k ∈ v.opened before
  last : ∀ before b after, log = before ++ b :: after → ∀ k ∈ v.closes b, ∀ b' ∈ after,
    k ∉ v.names b'
  once : (v.opened log).Nodup

variable {v} {log log' : List β} {b : β} {k : κ}

@[simp] theorem opened_nil : v.opened [] = [] := rfl

@[simp] theorem closed_nil : v.closed [] = [] := rfl

@[simp] theorem opened_append (log log' : List β) :
    v.opened (log ++ log') = v.opened log ++ v.opened log' := List.flatMap_append

@[simp] theorem closed_append (log log' : List β) :
    v.closed (log ++ log') = v.closed log ++ v.closed log' := List.flatMap_append

@[simp] theorem opened_singleton (b : β) : v.opened [b] = v.opens b := List.flatMap_singleton ..

@[simp] theorem closed_singleton (b : β) : v.closed [b] = v.closes b := List.flatMap_singleton ..

namespace WellFormed

theorem nil : v.WellFormed [] where
  used before b after h := by simp at h
  last before b after h := by simp at h
  once := List.nodup_nil

/-- The part of a log read so far. -/
theorem of_append (h : v.WellFormed (log ++ log')) : v.WellFormed log where
  used before b after heq k hk :=
    h.used before b (after ++ log') (by rw [heq, List.append_assoc, List.cons_append]) k hk
  last before b after heq k hk b' hb' :=
    h.last before b (after ++ log') (by rw [heq, List.append_assoc, List.cons_append]) k hk b'
      (List.mem_append_left _ hb')
  once := by
    have honce := h.once
    rw [opened_append] at honce
    exact honce.of_append_left

/-- What is closed was opened before. -/
theorem opened_of_closed (h : v.WellFormed log) (hk : k ∈ v.closed log) : k ∈ v.opened log := by
  obtain ⟨b, hb, hkb⟩ := List.mem_flatMap.mp hk
  obtain ⟨before, after, rfl⟩ := List.append_of_mem hb
  rw [opened_append]
  exact List.mem_append_left _ (h.used before b after rfl k (v.closes_subset b hkb))

/-- The next entry names no key that is closed. -/
theorem notMem_closed (h : v.WellFormed (log ++ [b])) (hk : k ∈ v.names b) :
    k ∉ v.closed log := by
  intro hc
  obtain ⟨b', hb', hkb⟩ := List.mem_flatMap.mp hc
  obtain ⟨before, after, rfl⟩ := List.append_of_mem hb'
  refine h.last before b' (after ++ [b]) (by rw [List.append_assoc, List.cons_append]) k hkb b
    ?_ hk
  exact List.mem_append_right _ (List.mem_singleton_self b)

/-- No key is closed twice. -/
theorem nodup_closed (h : v.WellFormed log) (hc : ∀ b, (v.closes b).Nodup) :
    (v.closed log).Nodup := by
  induction log using List.reverseRecOn with
  | nil => exact List.nodup_nil
  | append_singleton log b ih =>
    rw [closed_append, closed_singleton, List.nodup_append]
    refine ⟨ih h.of_append, hc b, ?_⟩
    rintro k hk _ hk' rfl
    exact h.notMem_closed (v.uses_subset b (v.closes_subset b hk')) hk

/-- **The next entry.** It uses what is open, names nothing that is closed, and opens new keys. -/
theorem snoc (h : v.WellFormed log) (huses : ∀ k ∈ v.uses b, k ∈ v.opened log)
    (hnames : ∀ k ∈ v.names b, k ∉ v.closed log) (hnodup : (v.opens b).Nodup)
    (hopens : ∀ k ∈ v.opens b, k ∉ v.opened log) : v.WellFormed (log ++ [b]) where
  used before b' after heq k hk := by
    -- either the entry in question is the new one, or it stands in the old log
    obtain rfl | ⟨after', c, rfl⟩ := after.eq_nil_or_concat'
    · obtain ⟨rfl, rfl⟩ := (List.append_inj' heq rfl).imp id fun h => (List.cons.inj h).1
      exact huses k hk
    · rw [← List.cons_append, ← List.append_assoc] at heq
      exact h.used before b' after' (List.append_inj' heq rfl).1 k hk
  last before b' after heq k hk b'' hb'' := by
    obtain rfl | ⟨after', c, rfl⟩ := after.eq_nil_or_concat'
    · cases hb''
    · rw [← List.cons_append, ← List.append_assoc] at heq
      obtain ⟨hlog, hc⟩ := List.append_inj' heq rfl
      obtain rfl : b = c := (List.cons.inj hc).1
      rcases List.mem_append.mp hb'' with hold | hnew
      · exact h.last before b' after' hlog k hk b'' hold
      · -- the new entry does not name what an old one closed
        rw [List.mem_singleton.mp hnew]
        refine fun hname => hnames k hname (List.mem_flatMap.mpr ⟨b', ?_, hk⟩)
        rw [hlog]
        exact List.mem_append_right _ List.mem_cons_self
  once := by
    rw [opened_append, opened_singleton, List.nodup_append]
    refine ⟨h.once, hnodup, ?_⟩
    rintro k hk _ hk' rfl
    exact hopens k hk' hk

end WellFormed

end Vocabulary
