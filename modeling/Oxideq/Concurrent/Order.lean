import Oxideq.Concurrent.Alignment

/-!
# Order

A replay pairs the ids of a delivery with the items at the front of the queue, so the order of the
queues matters. In the log an item reaches its queue when the entry of its call is written, in the
table when the call pushes it, and `dequeue` pops before it logs. As long as the pushes to one end
of a queue are made in the order of their entries, and no delivery is logged while a `nack` that
is before it in the log has not pushed yet, a replay finds every queue as the table has it, with
what is popped and not logged in front, and with what is logged and not pushed at its end
(`Config.Ordered`). Deliveries then find their items (`Config.Ordered.pairs`).
-/

namespace Oxideq

variable {ι α : Type}

/-! ### Ends of queues -/

/-- The end of a queue. -/
inductive QueueEnd where
  | front (queue : String)
  | back (queue : String)
  deriving DecidableEq

/-- The end of a queue that the work will push to. -/
def Work.lands : Work α → Option QueueEnd
  | .queue name _ => some (.back name)
  | .queueBatch name items => if items.isEmpty then none else some (.back name)
  | .nack _ task =>
    if task.exhausted then some (.back (dlqName task.queueName))
    else some (.front task.queueName)
  | _ => none

theorem Work.lands_of_frontPush {w : Work α} {q : String} (h : w.frontPush q ≠ []) :
    w.lands = some (.front q) := by
  cases w with
  | nack id task =>
    simp only [frontPush, ne_eq, ite_eq_right_iff, not_forall] at h
    obtain ⟨⟨hex, rfl⟩, -⟩ := h
    simp [lands, hex]
  | _ => exact absurd rfl h

theorem Work.lands_of_backPush {w : Work α} {q : String} (h : w.backPush q ≠ []) :
    w.lands = some (.back q) := by
  cases w with
  | queue name item =>
    simp only [backPush, ne_eq, ite_eq_right_iff, not_forall] at h
    obtain ⟨rfl, -⟩ := h
    rfl
  | queueBatch name items =>
    simp only [backPush, ne_eq, ite_eq_right_iff, not_forall] at h
    obtain ⟨rfl, hne⟩ := h
    simpa [lands] using hne
  | nack id task =>
    simp only [backPush, ne_eq, ite_eq_right_iff, not_forall] at h
    obtain ⟨⟨hex, rfl⟩, -⟩ := h
    simp [lands, hex]
  | _ => exact absurd rfl h

theorem Work.queueGuard_of_popped {w : Work α} {q : String} (h : w.popped q ≠ []) :
    w.queueGuard = some q := by
  cases w with
  | dequeue name item taskId =>
    simp only [popped, ne_eq, ite_eq_right_iff, not_forall] at h
    obtain ⟨rfl, -⟩ := h
    rfl
  | dequeueBatch name deliveries =>
    simp only [popped, ne_eq, ite_eq_right_iff, not_forall] at h
    obtain ⟨rfl, -⟩ := h
    rfl
  | _ => exact absurd rfl h

namespace Phase

/-- What is popped and not logged. -/
def popped (q : String) : Phase α → List (QueueItem α)
  | .unlogged w => w.popped q
  | _ => []

/-- What is logged and not pushed to the front. -/
def front (q : String) : Phase α → List (QueueItem α)
  | .logged w => w.frontPush q
  | _ => []

/-- What is logged and not pushed to the back. -/
def back (q : String) : Phase α → List (QueueItem α)
  | .logged w => w.backPush q
  | _ => []

/-- The end of a queue a logged push goes to. -/
def lands : Phase α → Option QueueEnd
  | .logged w => w.lands
  | _ => none

theorem lands_of_front {p : Phase α} {q : String} (h : p.front q ≠ []) :
    p.lands = some (.front q) := by
  cases p with
  | logged w => exact Work.lands_of_frontPush h
  | _ => exact absurd rfl h

theorem lands_of_back {p : Phase α} {q : String} (h : p.back q ≠ []) :
    p.lands = some (.back q) := by
  cases p with
  | logged w => exact Work.lands_of_backPush h
  | _ => exact absurd rfl h

end Phase

/-! ### Locked entries -/

namespace Pc

variable {s : InMemoryStorage α} {env : Env} {pc pc' : Pc α} {a : Access α} {q : String}

/-- What is popped and not logged is popped from a locked entry. -/
theorem queueGuard_of_popped (h : pc.phase.popped q ≠ []) : pc.queueGuard = some q := by
  cases pc with
  | waitWal w => exact Work.queueGuard_of_popped h
  | appendWal w => exact Work.queueGuard_of_popped h
  | restore w e => exact Work.queueGuard_of_popped h
  | _ => exact absurd rfl h

/-- A push to the front waits for the entry. -/
theorem queueAccess_of_front (h : pc.phase.front q ≠ []) : pc.queueAccess = some q := by
  cases pc with
  | apply w =>
    have hlands := Work.lands_of_frontPush h
    cases w with
    | nack id task =>
      simp only [Work.lands] at hlands
      split at hlands
      · cases hlands
      · next hex =>
        cases hlands
        simp [queueAccess, hex]
    | queueBatch name items =>
      simp only [Work.lands] at hlands
      split at hlands <;> cases hlands
    | _ => cases hlands
  | _ => exact absurd rfl h

theorem queueGuard_toLog {w : Work α} (h : (toLog s w).queueGuard = some q) :
    w.queueGuard = some q := by
  unfold toLog at h
  split at h
  · exact h
  · cases w <;> exact h

/-- An entry that is locked after a move was locked before, or the move has reached for it. -/
theorem Move.queueGuard (hm : Move s env pc a pc') (h : pc'.queueGuard = some q) :
    pc.queueGuard = some q ∨ pc.queueAccess = some q := by
  cases hm with
  | createQueue hq | queue hq | queueBatch hq | dequeue hq | dequeueBatch hq _ _ _ | ack hq
  | nack hq | extendVisibility hq | verified =>
    have hguard := queueGuard_toLog h
    first
    | exact Or.inr hguard
    | cases hguard
  | acquire => exact Or.inl h
  | @append w happ =>
    refine Or.inl ?_
    cases w <;> exact h
  | @appendFails w e happ =>
    refine Or.inl ?_
    cases w <;> exact h
  | beginInsert => exact Or.inl h
  | insertTasks => exact Or.inl h
  | _ => cases h

end Pc

namespace Config

/-! ### Conditions on the steps -/

/-- The work whose entry the step appends. -/
def appending (s : Config ι α × History ι α) (l : ι × Env) : Option (Work α) :=
  match s.1.phases l.1, ((s.1.pc l.1).step s.1.store l.2).2.phase with
  | .unlogged w, .logged _ => some w
  | _, _ => none

/-- No delivery is logged while a push to the front of the queue is before it in the log. -/
def DeliversClear (s : Config ι α × History ι α) (l : ι × Env) : Prop :=
  ∀ w ∈ appending s l, ∀ q ∈ w.queueGuard, ∀ j, (s.1.phases j).lands ≠ some (.front q)

instance [Fintype ι] (s : Config ι α × History ι α) (l : ι × Env) :
    Decidable (DeliversClear s l) :=
  inferInstanceAs (Decidable (∀ w ∈ appending s l, ∀ q ∈ w.queueGuard, ∀ j,
    (s.1.phases j).lands ≠ some (.front q)))

variable [DecidableEq ι]

/-- A push is made after those to the same end of the queue that are before it in the log. -/
def InOrder (s : Config ι α × History ι α) (l : ι × Env) : Prop :=
  ∀ j ∈ s.2.waiting.takeWhile (· ≠ l.1), ∀ e ∈ (s.1.phases l.1).lands,
    (s.1.phases j).lands ≠ some e

instance (s : Config ι α × History ι α) (l : ι × Env) : Decidable (InOrder s l) :=
  inferInstanceAs (Decidable (∀ j ∈ s.2.waiting.takeWhile _, ∀ e ∈ (s.1.phases l.1).lands, _ ≠ _))

/-! ### Locks in a run -/

/-- An entry is locked by one call at most. -/
def Guarded (σ : Config ι α) : Prop :=
  ∀ i j q, (σ.pc i).queueGuard = some q → (σ.pc j).queueGuard = some q → i = j

omit [DecidableEq ι] in
theorem queueGuard_resume (loop : Option (List String × ℕ)) (pc : Pc α) :
    (Thread.resume loop pc).pc.queueGuard = pc.queueGuard := by
  have hnext : ∀ (count : ℕ) (ids : List String),
      (Thread.next count ids : Thread α).pc.queueGuard = none := by
    intro count ids
    cases ids <;> rfl
  unfold Thread.resume
  split
  · exact hnext _ _
  · exact hnext _ _
  · exact hnext _ _
  · rfl

theorem Guarded.step {σ σ' : Config ι α} {i : ι} {env : Env} {a : Access α} {pc' : Pc α}
    (hg : Guarded σ) (henabled : σ.Enabled i) (h : StepOf σ i env σ' a pc') : Guarded σ' := by
  have hself : (σ'.pc i).queueGuard = pc'.queueGuard := by
    rw [pc, h.threads, Function.update_self, queueGuard_resume]
  have hother : ∀ j, j ≠ i → (σ'.pc j).queueGuard = (σ.pc j).queueGuard := by
    intro j hj
    rw [h.pc_of_ne hj]
  -- what the step has locked, no other call has
  have hnew : ∀ j q, j ≠ i → pc'.queueGuard = some q → (σ.pc j).queueGuard ≠ some q := by
    intro j q hj hq hjq
    -- it was locked by `i` before, or the step was enabled only because it was free
    rcases h.move.queueGuard hq with hold | haccess
    · exact hj (hg j i q hjq hold)
    · exact henabled.2 j hj (Or.inl ⟨q, haccess, hjq⟩)
  intro j k q hjq hkq
  by_cases hj : j = i
  · by_cases hk : k = i
    · rw [hj, hk]
    · rw [hj, hself] at hjq
      rw [hother k hk] at hkq
      exact absurd hkq (hnew k q hk hjq)
  · rw [hother j hj] at hjq
    by_cases hk : k = i
    · rw [hk, hself] at hkq
      exact absurd hjq (hnew j q hj hkq)
    · rw [hother k hk] at hkq
      exact hg j k q hjq hkq

omit [DecidableEq ι] in
/-- One call at most has popped items of the queue in hand that are not logged. -/
theorem Guarded.popped {σ : Config ι α} (hg : Guarded σ) {i j : ι} {q : String}
    (hi : (σ.phases i).popped q ≠ []) (hj : j ≠ i) : (σ.phases j).popped q = [] := by
  by_contra hne
  exact hj (hg j i q (Pc.queueGuard_of_popped hne) (Pc.queueGuard_of_popped hi))

/-! ### The order of the queues -/

/-- `popped` is what is popped from the queue and not logged. -/
structure Held (σ : Config ι α) (q : String) (popped : List (QueueItem α)) : Prop where
  eq : ∀ i, (σ.phases i).popped q ≠ [] → (σ.phases i).popped q = popped
  of_ne : popped ≠ [] → ∃ i, (σ.phases i).popped q = popped

section Held

variable {σ σ' : Config ι α} {q : String} {popped : List (QueueItem α)}

omit [DecidableEq ι] in
theorem Held.congr (h : Held σ q popped)
    (heq : ∀ i, (σ'.phases i).popped q = (σ.phases i).popped q) : Held σ' q popped := by
  constructor
  · intro i hi
    rw [heq] at hi ⊢
    exact h.eq i hi
  · intro hne
    obtain ⟨i, hi⟩ := h.of_ne hne
    exact ⟨i, (heq i).trans hi⟩

omit [DecidableEq ι] in
theorem Held.eq_nil (h : Held σ q popped) (hnone : ∀ i, (σ.phases i).popped q = []) :
    popped = [] := by
  by_contra hne
  obtain ⟨i, hi⟩ := h.of_ne hne
  exact hne (hi.symm.trans (hnone i))

omit [DecidableEq ι] in
theorem Held.nil (hnone : ∀ i, (σ.phases i).popped q = []) : Held σ q [] :=
  ⟨fun i hi => absurd (hnone i) hi, fun hne => absurd rfl hne⟩

omit [DecidableEq ι] in
theorem Held.of_guarded (hg : Guarded σ) {i : ι} (hi : (σ.phases i).popped q ≠ []) :
    Held σ q ((σ.phases i).popped q) := by
  refine ⟨fun j hj => ?_, fun _ => ⟨i, rfl⟩⟩
  by_cases hji : j = i
  · rw [hji]
  · exact absurd (hg.popped hi hji) hj

end Held

/-- What is logged and will be pushed to the front, the last one in the log first. -/
def fronts (s : Config ι α × History ι α) (q : String) : List (QueueItem α) :=
  s.2.waiting.reverse.flatMap fun i => (s.1.phases i).front q

/-- What is logged and will be pushed to the back, in the order of the log. -/
def backs (s : Config ι α × History ι α) (q : String) : List (QueueItem α) :=
  s.2.waiting.flatMap fun i => (s.1.phases i).back q

/-- A replay finds the queues as the tables have them, up to what the calls have in hand. -/
structure Ordered (entries : List (WalEntry α)) (s : Config ι α × History ι α) : Prop where
  guarded : Guarded s.1
  waiting : ∀ i, i ∈ s.2.waiting ↔ ∃ w, s.1.phases i = .logged w
  nodup : s.2.waiting.Nodup
  items : ∀ q, ∃ popped, Held s.1 q popped ∧ (rebuilt entries s.1).items q
    = fronts s q ++ popped ++ s.1.store.items q ++ backs s q

section Step

variable {entries : List (WalEntry α)} {base : Multiset α}
  {s s' : Config ι α × History ι α} {l : ι × Env} {acks : List (InFlightTask α)}
  {ops : List (WalOp α)} {p p' : Phase α} {q : String}

omit [DecidableEq ι] in
theorem fronts_of_lands (h : ∀ i, (s.1.phases i).lands ≠ some (.front q)) : fronts s q = [] := by
  rw [fronts, List.flatMap_eq_nil_iff]
  intro i _
  by_contra hne
  exact h i (Phase.lands_of_front hne)

omit [DecidableEq ι] in
/-- **Deliveries find their items.** -/
theorem Ordered.pairs (h : Ordered entries s) (hd : DeliversClear s l) : Pairs entries s l := by
  intro w hbefore hafter q
  by_cases hnil : w.popped q = []
  · exact ⟨_, by rw [hnil, List.nil_append]⟩
  · have happending : appending s l = some w := by rw [appending, hbefore, hafter]
    -- with no push to the front outstanding, what is popped is what a replay finds in front
    have hfronts := fronts_of_lands (hd w happending q (Work.queueGuard_of_popped hnil))
    obtain ⟨popped, hheld, hitems⟩ := h.items q
    have hpopped : w.popped q = popped := by
      have heq := hheld.eq l.1
      rw [hbefore] at heq
      exact heq hnil
    rw [hfronts, List.nil_append, ← hpopped, List.append_assoc] at hitems
    exact ⟨_, hitems⟩

namespace Passes

theorem phases_ne (h : Passes s s' l acks ops p p') {j : ι} (hj : j ≠ l.1) :
    s'.1.phases j = s.1.phases j := by
  rw [h.phases, Function.update_of_ne hj]

theorem phases_self (h : Passes s s' l acks ops p p') : s'.1.phases l.1 = p' := by
  rw [h.phases, Function.update_self]

/-- A step that leaves a reading of the phase of its thread alone leaves that of all threads
alone. -/
theorem congr (h : Passes s s' l acks ops p p') {β : Type} {f : Phase α → β} (hf : f p' = f p)
    (j : ι) : f (s'.1.phases j) = f (s.1.phases j) := by
  by_cases hj : j = l.1
  · rw [hj, h.phases_self, h.before, hf]
  · rw [h.phases_ne hj]

theorem fronts_eq (h : Passes s s' l acks ops p p') (hw : s'.2.waiting = s.2.waiting)
    (hf : p'.front q = p.front q) : fronts s' q = fronts s q := by
  rw [fronts, fronts, hw]
  exact List.flatMap_congr fun j _ => h.congr (f := Phase.front q) hf j

theorem backs_eq (h : Passes s s' l acks ops p p') (hw : s'.2.waiting = s.2.waiting)
    (hf : p'.back q = p.back q) : backs s' q = backs s q := by
  rw [backs, backs, hw]
  exact List.flatMap_congr fun j _ => h.congr (f := Phase.back q) hf j

variable {w : Work α}

/-- An append puts its pushes behind those before it in the log. -/
theorem ends_log (h : Passes s s' l acks ops (.unlogged w) (.logged w))
    (ho : Ordered entries s) :
    fronts s' q = w.frontPush q ++ fronts s q ∧ backs s' q = backs s q ++ w.backPush q := by
  have hwaiting : s'.2.waiting = s.2.waiting ++ [l.1] := h.waiting
  have hne : ∀ j ∈ s.2.waiting, j ≠ l.1 := by
    rintro j hj rfl
    obtain ⟨w', hw'⟩ := (ho.waiting _).mp hj
    rw [h.before] at hw'
    cases hw'
  constructor
  · rw [fronts, hwaiting, List.reverse_append, List.flatMap_append, List.reverse_singleton,
      List.flatMap_singleton, h.phases_self, fronts]
    refine congrArg (w.frontPush q ++ ·) (List.flatMap_congr fun j hj => ?_)
    rw [h.phases_ne (hne j (List.mem_reverse.mp hj))]
  · rw [backs, hwaiting, List.flatMap_append, List.flatMap_singleton, h.phases_self, backs]
    refine congrArg (· ++ w.backPush q) (List.flatMap_congr fun j hj => ?_)
    rw [h.phases_ne (hne j hj)]

/-- A push in order is the one next to the table. -/
theorem ends_finish (h : Passes s s' l acks ops (.logged w) .idle) (ho : Ordered entries s)
    (hin : InOrder s l) :
    fronts s q = fronts s' q ++ w.frontPush q ∧ backs s q = w.backPush q ++ backs s' q := by
  have hwaiting : s'.2.waiting = s.2.waiting.erase l.1 := h.waiting
  have hmem : l.1 ∈ s.2.waiting := (ho.waiting _).mpr ⟨w, h.before⟩
  have hne : ∀ j ∈ s.2.waiting.erase l.1, j ≠ l.1 := by
    rintro j hj rfl
    exact ho.nodup.not_mem_erase hj
  constructor
  -- whoever is before it in the log pushes to another end, so its own items come next
  · have hsplit := System.flatMap_reverse_erase (f := fun i => (s.1.phases i).front q) hmem
      fun j hj => by
        by_contra hboth
        rw [not_or] at hboth
        exact hin j hj _ (Phase.lands_of_front hboth.1) (Phase.lands_of_front hboth.2)
    rw [fronts, hsplit, fronts, hwaiting, h.before]
    refine congrArg (· ++ w.frontPush q) (List.flatMap_congr fun j hj => ?_)
    rw [h.phases_ne (hne j (List.mem_reverse.mp hj))]
  · have hsplit := System.flatMap_erase (f := fun i => (s.1.phases i).back q) hmem
      fun j hj => by
        by_contra hboth
        rw [not_or] at hboth
        exact hin j hj _ (Phase.lands_of_back hboth.1) (Phase.lands_of_back hboth.2)
    rw [backs, hsplit, backs, hwaiting, h.before]
    refine congrArg (w.backPush q ++ ·) (List.flatMap_congr fun j hj => ?_)
    rw [h.phases_ne (hne j hj)]

end Passes

/-- Where nothing is logged, nothing changes for the replay. -/
theorem Passes.items_quiet (h : Passes s s' l acks [] p p') (hwaiting : s'.2.waiting = s.2.waiting)
    (hfront : p'.front q = p.front q) (hback : p'.back q = p.back q)
    {popped popped' : List (QueueItem α)}
    (hitems : (Config.rebuilt entries s.1).items q
      = fronts s q ++ popped ++ s.1.store.items q ++ backs s q)
    (hheld : Held s'.1 q popped')
    (hsame : popped' ++ s'.1.store.items q = popped ++ s.1.store.items q) :
    ∃ popped, Held s'.1 q popped ∧ (Config.rebuilt entries s'.1).items q
      = fronts s' q ++ popped ++ s'.1.store.items q ++ backs s' q := by
  refine ⟨popped', hheld, ?_⟩
  rw [h.rebuilt, InMemoryStorage.effects, List.foldl_nil, hitems, h.fronts_eq hwaiting hfront,
    h.backs_eq hwaiting hback, List.append_assoc (fronts s q) popped,
    List.append_assoc (fronts s q) popped', hsame]

/-- The items of a queue after a step that leaves it alone. -/
theorem Ordered.items_alone (ho : Ordered entries s) (h : Passes s s' l acks [] p p')
    (hwaiting : s'.2.waiting = s.2.waiting) (hfront : p'.front q = p.front q)
    (hback : p'.back q = p.back q) (hpopped : p'.popped q = p.popped q)
    (hq : s'.1.store.items q = s.1.store.items q) :
    ∃ popped, Held s'.1 q popped ∧ (rebuilt entries s'.1).items q
      = fronts s' q ++ popped ++ s'.1.store.items q ++ backs s' q := by
  obtain ⟨popped, hheld, hitems⟩ := ho.items q
  have hheld' := hheld.congr (h.congr (f := Phase.popped q) hpopped)
  exact h.items_quiet hwaiting hfront hback hitems hheld' (by rw [hq])

/-- The items of a queue after the step that takes what a delivery needs. -/
theorem Ordered.items_enter (ho : Ordered entries s) (hguarded : Guarded s'.1) {w : Work α}
    (h : Passes s s' l acks [] .idle (.unlogged w))
    (hq : s.1.store.items q = w.popped q ++ s'.1.store.items q) :
    ∃ popped, Held s'.1 q popped ∧ (rebuilt entries s'.1).items q
      = fronts s' q ++ popped ++ s'.1.store.items q ++ backs s' q := by
  by_cases hnil : w.popped q = []
  · refine ho.items_alone h h.waiting rfl rfl hnil ?_
    rw [hq, hnil, List.nil_append]
  · obtain ⟨popped, hheld, hitems⟩ := ho.items q
    have hself : (s'.1.phases l.1).popped q ≠ [] := by
      rw [h.phases_self]
      exact hnil
    -- the entry was not locked, so nothing else was popped
    have hnone : popped = [] := by
      refine hheld.eq_nil fun j => ?_
      by_cases hj : j = l.1
      · rw [hj, h.before]
        rfl
      · rw [← h.phases_ne hj]
        exact hguarded.popped hself hj
    have hheld' := Held.of_guarded hguarded hself
    rw [h.phases_self] at hheld'
    exact h.items_quiet h.waiting rfl rfl hitems hheld' (by rw [hq, hnone, List.nil_append]; rfl)

section Held

variable {popped : List (QueueItem α)}

/-- A call that has popped items has all that are popped and not logged. -/
theorem Passes.popped_eq (h : Passes s s' l acks ops p p') (hheld : Held s.1 q popped)
    (hne : p.popped q ≠ []) : p.popped q = popped := by
  have hself := hheld.eq l.1
  rw [h.before] at hself
  exact hself hne

/-- When it logs them or puts them back, none are popped any more. -/
theorem Passes.held_nil (h : Passes s s' l acks ops p p') (hg : Guarded s.1)
    (hne : p.popped q ≠ []) (hnil : p'.popped q = []) : Held s'.1 q [] := by
  refine Held.nil fun j => ?_
  by_cases hj : j = l.1
  · rw [hj, h.phases_self, hnil]
  · rw [h.phases_ne hj]
    rw [← h.before] at hne
    exact hg.popped hne hj

end Held

/-- The items of a queue after the step that puts back what a delivery took. -/
theorem Ordered.items_undo (ho : Ordered entries s) {w : Work α}
    (h : Passes s s' l acks [] (.unlogged w) .idle)
    (hq : s'.1.store.items q = w.popped q ++ s.1.store.items q) :
    ∃ popped, Held s'.1 q popped ∧ (rebuilt entries s'.1).items q
      = fronts s' q ++ popped ++ s'.1.store.items q ++ backs s' q := by
  by_cases hnil : w.popped q = []
  · refine ho.items_alone h h.waiting rfl rfl hnil.symm ?_
    rw [hq, hnil, List.nil_append]
  · obtain ⟨popped, hheld, hitems⟩ := ho.items q
    have hpopped : w.popped q = popped := h.popped_eq hheld hnil
    -- what was popped goes back in front
    exact h.items_quiet h.waiting rfl rfl hitems (h.held_nil ho.guarded hnil rfl)
      (by rw [hq, hpopped, List.nil_append])

/-- The items of a queue after the step that completes a call. -/
theorem Ordered.items_finish (ho : Ordered entries s) (hin : InOrder s l)
    (henabled : s.1.Enabled l.1) {w : Work α} (h : Passes s s' l acks [] (.logged w) .idle)
    (hq : s'.1.store.items q = w.frontPush q ++ s.1.store.items q ++ w.backPush q) :
    ∃ popped, Held s'.1 q popped ∧ (rebuilt entries s'.1).items q
      = fronts s' q ++ popped ++ s'.1.store.items q ++ backs s' q := by
  obtain ⟨popped, hheld, hitems⟩ := ho.items q
  obtain ⟨hfronts, hbacks⟩ := h.ends_finish (q := q) ho hin
  refine ⟨popped, hheld.congr (h.congr (f := Phase.popped q) rfl), ?_⟩
  -- a push to the front waits for the lock of a delivery
  have hcomm : w.frontPush q ++ popped = popped ++ w.frontPush q := by
    by_cases hnil : w.frontPush q = []
    · rw [hnil, List.nil_append, List.append_nil]
    · have haccess : (s.1.pc l.1).queueAccess = some q := by
        refine Pc.queueAccess_of_front ?_
        have hbefore : (s.1.pc l.1).phase = .logged w := h.before
        rw [hbefore]
        exact hnil
      have hnone : popped = [] := by
        refine hheld.eq_nil fun j => ?_
        by_cases hj : j = l.1
        · rw [hj, h.before]
          rfl
        · by_contra hne
          exact henabled.2 j hj (Or.inl ⟨q, haccess, Pc.queueGuard_of_popped hne⟩)
      rw [hnone, List.nil_append, List.append_nil]
  calc (rebuilt entries s'.1).items q
      = fronts s' q ++ (w.frontPush q ++ popped) ++ s.1.store.items q
          ++ (w.backPush q ++ backs s' q) := by
        rw [h.rebuilt, InMemoryStorage.effects, List.foldl_nil, hitems, hfronts, hbacks]
        simp only [List.append_assoc]
    _ = fronts s' q ++ popped ++ s'.1.store.items q ++ backs s' q := by
        rw [hcomm, hq]
        simp only [List.append_assoc]

/-- The threads between their append and their last step, after a step. -/
theorem Ordered.waiting_step (ho : Ordered entries s) (h : Passes s s' l acks ops p p') :
    (∀ j, j ∈ s'.2.waiting ↔ ∃ w, s'.1.phases j = .logged w) ∧ s'.2.waiting.Nodup := by
  have hbefore := h.before
  have hold : (∃ w, p = .logged w) ↔ l.1 ∈ s.2.waiting := by rw [ho.waiting, hbefore]
  -- most steps leave the thread on its side of the log
  have hquiet : s'.2.waiting = s.2.waiting → ((∃ w, p' = .logged w) ↔ ∃ w, p = .logged w) →
      (∀ j, j ∈ s'.2.waiting ↔ ∃ w, s'.1.phases j = .logged w) ∧ s'.2.waiting.Nodup := by
    intro hw hside
    rw [hw]
    refine ⟨fun j => ?_, ho.nodup⟩
    by_cases hj : j = l.1
    · rw [hj, h.phases_self, hside, hold]
    · rw [h.phases_ne hj, ho.waiting]
  cases h.turn with
  | rest _ _ _ _ | enter _ _ _ _ _ | wait _ _ _ _ | undo _ _ _ _ | go _ _ _ _ _ _ _ =>
    exact hquiet h.waiting (by simp)
  | @log w hq ht hacks hops =>
    have hw : s'.2.waiting = s.2.waiting ++ [l.1] := h.waiting
    have hnot : l.1 ∉ s.2.waiting := by
      rw [← hold]
      simp
    rw [hw]
    refine ⟨fun j => ?_, List.nodup_append'.mpr ⟨ho.nodup, List.nodup_singleton _, by simpa⟩⟩
    rw [List.mem_append, List.mem_singleton]
    by_cases hj : j = l.1
    · rw [hj, h.phases_self]
      simp
    · rw [h.phases_ne hj, ho.waiting]
      simp [hj]
  | finish hq ht hacks hops =>
    have hw : s'.2.waiting = s.2.waiting.erase l.1 := h.waiting
    rw [hw]
    refine ⟨fun j => ?_, ho.nodup.erase _⟩
    rw [ho.nodup.mem_erase_iff]
    by_cases hj : j = l.1
    · rw [hj, h.phases_self]
      simp
    · rw [h.phases_ne hj, ho.waiting]
      simp [hj]

variable [Fintype ι]

/-- The items of a queue after an append. -/
theorem Ordered.items_log (ho : Ordered entries s) (ha : Aligned entries s)
    (hb : Balanced base s) (hs : Settled s) (hd : DeliversClear s l) {w : Work α}
    (h : Passes s s' l acks [w.op] (.unlogged w) (.logged w))
    (hq : s'.1.store.items q = s.1.store.items q) :
    ∃ popped, Held s'.1 q popped ∧ (rebuilt entries s'.1).items q
      = fronts s' q ++ popped ++ s'.1.store.items q ++ backs s' q := by
  obtain ⟨popped, hheld, hitems⟩ := ho.items q
  obtain ⟨hfronts, hbacks⟩ := h.ends_log (q := q) ho
  have hvalid := hb.phases l.1
  rw [h.before] at hvalid
  have heffect : (rebuilt entries s'.1).items q = w.frontPush q
      ++ ((rebuilt entries s.1).items q).drop (w.popped q).length ++ w.backPush q := by
    rw [h.rebuilt]
    exact InMemoryStorage.items_effect ⟨fun hq => ha.keys _ (hvalid.target_mem hq), hvalid.id_eq⟩
      (valid_rebuilt entries s.1) (ha.returns hb hs h.before) (fun _ => 0) q
  by_cases hnil : w.popped q = []
  · refine ⟨popped, hheld.congr (h.congr (f := Phase.popped q) hnil.symm), ?_⟩
    -- nothing was popped for it: the replay gains its pushes at both ends
    rw [heffect, hnil, List.length_nil, List.drop_zero, hitems, hfronts, hbacks, hq]
    simp only [List.append_assoc]
  · -- the delivery takes what it has popped off the front of the replay's queue
    have happending : appending s l = some w := by rw [appending, h.before, h.after]
    have hclear := fronts_of_lands (hd w happending q (Work.queueGuard_of_popped hnil))
    have hpopped : w.popped q = popped := h.popped_eq hheld hnil
    refine ⟨[], h.held_nil ho.guarded hnil rfl, ?_⟩
    rw [heffect, hitems, hclear, hpopped, hfronts, hclear, hbacks, hq]
    simp only [List.nil_append, List.append_nil, List.append_assoc, List.drop_left]

/-- The items of a queue after any step. -/
theorem Ordered.items_step (ho : Ordered entries s) (ha : Aligned entries s)
    (hb : Balanced base s) (hs : Settled s) (hin : InOrder s l) (hd : DeliversClear s l)
    (henabled : s.1.Enabled l.1) (hguarded : Guarded s'.1)
    (h : Passes s s' l acks ops p p') (q : String) :
    ∃ popped, Held s'.1 q popped ∧ (rebuilt entries s'.1).items q
      = fronts s' q ++ popped ++ s'.1.store.items q ++ backs s' q := by
  cases h.turn with
  | rest hq ht hacks hops =>
    subst hops
    exact ho.items_alone h h.waiting rfl rfl rfl (hq q)
  | enter hq ht hacks hack hops =>
    subst hops
    exact ho.items_enter hguarded h (hq q)
  | wait hq ht hacks hops =>
    subst hops
    exact ho.items_alone h h.waiting rfl rfl rfl (hq q)
  | undo hq ht hacks hops =>
    subst hops
    exact ho.items_undo h (hq q)
  | log hq ht hacks hops =>
    subst hops
    exact ho.items_log ha hb hs hd h (hq q)
  | go hq ht hfront hback hacks hops hm =>
    -- the loops over the in-flight table push to no queue
    have hf := hfront q
    have hbk := hback q
    subst hops
    exact ho.items_alone h h.waiting (hf.2.trans hf.1.symm) (hbk.2.trans hbk.1.symm) rfl (hq q)
  | finish hq ht hacks hops =>
    subst hops
    exact ho.items_finish hin henabled h (hq q)

/-- **Steps in order keep the order.** -/
theorem Ordered.step (ho : Ordered entries s) (ha : Aligned entries s) (hb : Balanced base s)
    (hs : Settled s) (hc : CreatesAbsent s.1 l) (hin : InOrder s l) (hd : DeliversClear s l)
    (hstep : (recorded ι α).step s l = some s') : Ordered entries s' := by
  obtain ⟨acks, ops, p, p', h⟩ := hb.passes ha.persistent hc hstep
  obtain ⟨henabled, ⟨a, pc', hmove⟩, -⟩ := recorded_move hstep
  have hguarded := ho.guarded.step henabled hmove
  obtain ⟨hwaiting, hnodup⟩ := ho.waiting_step h
  exact ⟨hguarded, hwaiting, hnodup, ho.items_step ha hb hs hin hd henabled hguarded h⟩

end Step

omit [DecidableEq ι] in
theorem ordered_init {envs : ℕ → Env} {entries : List (WalEntry α)} {calls : ι → Call α} :
    Ordered entries (init (InMemoryStorage.boot true envs entries) calls) := by
  refine ⟨fun i j q hi => ?_, fun i => ⟨fun h => ?_, fun ⟨w, h⟩ => ?_⟩, List.nodup_nil,
    fun q => ⟨[], Held.nil fun i => rfl, ?_⟩⟩
  · cases hi
  · cases h
  · cases h
  · exact ((rebuilt_init _ _ _).items q).trans (List.append_nil _).symm

/-! ### Traced runs -/

/-- The log of a run tells where its messages are. -/
structure Traced [Fintype ι] (entries : List (WalEntry α)) (base : Multiset α)
    (s : Config ι α × History ι α) : Prop where
  balanced : Balanced base s
  settled : Settled s
  aligned : Aligned entries s
  ordered : Ordered entries s

omit [DecidableEq ι] in
theorem traced_init [Fintype ι] (envs : ℕ → Env) (entries : List (WalEntry α))
    (calls : ι → Call α) : Traced entries (InMemoryStorage.boot true envs entries).messages
      (init (.boot true envs entries) calls) :=
  ⟨balanced_init (InMemoryStorage.valid_boot ..) calls, settled_init _, aligned_init,
    ordered_init⟩

/-- **Steps in order keep the trace.** -/
theorem Traced.step [Fintype ι] {entries : List (WalEntry α)} {base : Multiset α}
    {s s' : Config ι α × History ι α} {l : ι × Env} (h : Traced entries base s)
    (hf : Fresh s l) (hc : CreatesAbsent s.1 l) (ho : SettlesOpen s l) (hl : LeavesSettled s l)
    (hin : InOrder s l) (hd : DeliversClear s l) (hstep : (recorded ι α).step s l = some s') :
    Traced entries base s' :=
  ⟨h.balanced.step hf hc hstep, h.settled.step h.balanced.valid ho hl hstep,
    h.aligned.step h.balanced h.settled hc ho (h.ordered.pairs hd) hstep,
    h.ordered.step h.aligned h.balanced h.settled hc hin hd hstep⟩

end Config

end Oxideq
