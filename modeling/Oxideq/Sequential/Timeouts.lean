import Oxideq.Replication.Reachable
import Oxideq.Sequential.Heartbeat
import Oxideq.Storage.Batches

/-!
# Timeouts over the whole range

`cleanup_expired_tasks` takes its timeout as a `u64`, which `main` reads from the environment
without a bound, and hands it to `chrono::Duration::seconds` as an `i64`. What the scan compares
the ages with is the timeout only as long as neither the cast nor the duration changes it
(`expiryTimeout_cases`):

* up to `i64::MAX` milliseconds it is the timeout;
* the largest timeouts, from `2^64` down to as much below it, are cast to small negative numbers:
  every task that is not stamped in the future is older than that;
* for all others the duration is out of range and the call panics.

Apart from that the loop does what it should (`cleanupExpiredTasks_eq`): the tables are linked,
so every `nack` of a scanned task succeeds, takes out that task only, and is counted. Expiry is
exact in the first case, and in the second one where it makes no difference: when no task is in
flight that is older than the wrapped timeout and not older than the real one (`exactExpiry_iff`).
-/

namespace Oxideq

variable {ι α : Type}

/-- The task has been in flight for more than `timeoutSeconds` seconds. -/
def InFlightTask.Outlives (task : InFlightTask α) (now : Int) (timeoutSeconds : UInt64) : Prop :=
  (timeoutSeconds.toNat : Int) * 1000000000 < now - task.consumedAt

instance (task : InFlightTask α) (now : Int) (timeoutSeconds : UInt64) :
    Decidable (task.Outlives now timeoutSeconds) :=
  inferInstanceAs (Decidable (_ < _))

/-- The cleanup returns, takes exactly the tasks older than the timeout out of flight, leaves the
others as they are, and returns how many it took. -/
def ExactExpiry (s : InMemoryStorage α) (envs : ℕ → Env) (timeoutSeconds : UInt64) : Prop :=
  ∃ count s', s.cleanupExpiredTasks envs timeoutSeconds = (.ok count, s') ∧
    (∀ id, s'.inFlight.lookup id
      = (s.inFlight.lookup id).filter fun task => ¬ task.Outlives ((envs 0).now 0) timeoutSeconds) ∧
    count = (s.inFlight.entries.filter fun e =>
      e.2.Outlives ((envs 0).now 0) timeoutSeconds).card

/-- The largest number of seconds a `chrono::Duration` holds. -/
def maxSeconds : ℕ := 9223372036854775

/-- The timeout is not changed on its way to the scan, or the change makes no difference: it is
wrapped to a negative number of seconds, and every task older than that is older than the real
timeout. -/
def TimeoutKept (s : InMemoryStorage α) (now : Int) (timeoutSeconds : UInt64) : Prop :=
  timeoutSeconds.toNat ≤ maxSeconds ∨
    2 ^ 64 ≤ timeoutSeconds.toNat + maxSeconds ∧
      ∀ id task, s.inFlight.lookup id = some task →
        ((timeoutSeconds.toNat : Int) - 2 ^ 64) * 1000000000 < now - task.consumedAt →
        task.Outlives now timeoutSeconds

/-! ### The timeout of the scan -/

/-- The cast `as i64` takes `2^64` from the upper half of the range. -/
theorem toInt_toInt64 (n : UInt64) :
    n.toInt64.toInt = if n.toNat < 2 ^ 63 then (n.toNat : Int) else (n.toNat : Int) - 2 ^ 64 := by
  have hcast : n.toInt64.toInt = n.toBitVec.toInt := rfl
  have hnat : n.toBitVec.toNat = n.toNat := rfl
  have hlt := n.toNat_lt
  rw [hcast, BitVec.toInt_eq_toNat_cond, hnat]
  split <;> split <;> omega

namespace InMemoryStorage

theorem expiryTimeout_cases (timeoutSeconds : UInt64) :
    (timeoutSeconds.toNat ≤ maxSeconds ∧
        expiryTimeout timeoutSeconds = some (timeoutSeconds.toNat * 1000000000)) ∨
      (2 ^ 64 ≤ timeoutSeconds.toNat + maxSeconds ∧
        expiryTimeout timeoutSeconds
          = some (((timeoutSeconds.toNat : Int) - 2 ^ 64) * 1000000000)) ∨
      (maxSeconds < timeoutSeconds.toNat ∧ timeoutSeconds.toNat + maxSeconds < 2 ^ 64 ∧
        expiryTimeout timeoutSeconds = none) := by
  have hlt := timeoutSeconds.toNat_lt
  have hcast := toInt_toInt64 timeoutSeconds
  unfold expiryTimeout durationSeconds maxSeconds
  by_cases hhalf : timeoutSeconds.toNat < 2 ^ 63
  · rw [if_pos hhalf] at hcast
    rw [hcast]
    by_cases hle : timeoutSeconds.toNat ≤ 9223372036854775
    · exact Or.inl ⟨hle, if_pos (by omega)⟩
    · exact Or.inr (Or.inr ⟨by omega, by omega, if_neg (by omega)⟩)
  -- cast to a negative number, and refused when that is too small
  · rw [if_neg hhalf] at hcast
    rw [hcast]
    by_cases hle : 2 ^ 64 ≤ timeoutSeconds.toNat + 9223372036854775
    · exact Or.inr (Or.inl ⟨hle, if_pos (by omega)⟩)
    · exact Or.inr (Or.inr ⟨by omega, by omega, if_neg (by omega)⟩)

/-! ### The loop -/

section Loop

variable {s : InMemoryStorage α}

/-- `nack` of a task in flight, when its append does not fail. -/
theorem Valid.nack_eq (hs : s.Valid) {env : Env} (ha : s.wal.isSome → env.append = .ok ())
    {id : String} (hid : id ∈ s.inFlight) :
    ∃ s', s.nack env id = (.ok (), s') ∧ s'.Valid ∧ s'.inFlight = s.inFlight.erase id ∧
      s'.wal.isSome = s.wal.isSome := by
  obtain ⟨task, hl⟩ := Finmap.mem_iff.mp hid
  have happ : (s.dropTask id).wal = none ∨ env.append = .ok () := by
    cases hw : s.wal with
    | none => exact Or.inl hw
    | some m => exact Or.inr (ha (by rw [hw]; rfl))
  have hlog := logOp_of_append happ (.nack id)
  have hdrop : ((s.dropTask id).logged env (.nack id)).Valid :=
    (hs.dropTask id).of_tables rfl rfl
  obtain ⟨s', hs'⟩ := exists_requeue (s := (s.dropTask id).logged env (.nack id))
    (hs.queue_mem hl)
  refine ⟨s', ?_, ?_, ?_, ?_⟩
  · simp only [InMemoryStorage.nack, hl, hlog, hs']
  · have hvalid := hdrop.requeue task
    rwa [hs'] at hvalid
  · exact requeue_inFlight hs'
  · rw [requeue_wal hs']
    exact Option.isSome_map

theorem Valid.nackAll_eq (hs : s.Valid) (envs : ℕ → Env)
    (ha : s.wal.isSome → ∀ k, (envs k).append = .ok ()) {ids : List String} (hids : ids.Nodup)
    (hmem : ∀ id ∈ ids, id ∈ s.inFlight) (count : ℕ) :
    ∃ s', s.nackAll envs ids count = (count + ids.length, s') ∧
      ∀ id, s'.inFlight.lookup id = if id ∈ ids then none else s.inFlight.lookup id := by
  induction ids generalizing s envs count with
  | nil => exact ⟨s, rfl, fun id => (if_neg List.not_mem_nil).symm⟩
  | cons id ids ih =>
    rw [List.nodup_cons] at hids
    rw [List.forall_mem_cons] at hmem
    obtain ⟨s₁, hnack, hvalid, hflight, hwal⟩ := hs.nack_eq (fun h => ha h 0) hmem.1
    -- the other ids are still there
    have hrest : ∀ id' ∈ ids, id' ∈ s₁.inFlight := by
      intro id' hid'
      have hne : id' ≠ id := fun heq => hids.1 (heq ▸ hid')
      rw [hflight]
      exact Finmap.mem_erase.mpr ⟨hne, hmem.2 id' hid'⟩
    obtain ⟨s', hall, hlookup⟩ := ih hvalid (fun k => envs (k + 1))
      (fun h k => ha (hwal ▸ h) (k + 1)) hids.2 hrest (count + 1)
    refine ⟨s', ?_, fun id' => ?_⟩
    · rw [nackAll, hnack]
      simp only [hall, List.length_cons]
      rw [Nat.add_assoc, Nat.add_comm 1]
    · rw [hlookup, hflight]
      by_cases hid : id' = id
      · rw [hid, Finmap.lookup_erase, ite_self, if_pos List.mem_cons_self]
      · simp only [List.mem_cons, hid, false_or, Finmap.lookup_erase_ne hid]

/-- No task is scanned twice. -/
theorem nodup_expiredIds (s : InMemoryStorage α) (now timeout : Int) :
    (s.expiredIds now timeout).Nodup := by
  have hkeys : s.inFlight.entries.keys.Nodup := Multiset.nodup_keys.mpr s.inFlight.nodupKeys
  exact Multiset.nodup_of_le (Multiset.map_le_map (Multiset.filter_le _ _)) hkeys

/-- **The loop does what the scan asks for.** -/
theorem Valid.cleanupExpiredTasks_eq (hs : s.Valid) {envs : ℕ → Env}
    (ha : s.wal.isSome → ∀ k, (envs k).append = .ok ()) {timeoutSeconds : UInt64} {timeout : Int}
    (ht : expiryTimeout timeoutSeconds = some timeout) :
    ∃ s', s.cleanupExpiredTasks envs timeoutSeconds
        = (.ok (s.inFlight.entries.filter fun e =>
            timeout < (envs 0).now 0 - e.2.consumedAt).card, s') ∧
      ∀ id, s'.inFlight.lookup id
        = (s.inFlight.lookup id).filter fun task =>
            ¬ timeout < (envs 0).now 0 - task.consumedAt := by
  have hlist := (envs 0).iter.coe_list (s.expiredIds ((envs 0).now 0) timeout)
  have hscan : ∀ id, id ∈ (envs 0).iter.list (s.expiredIds ((envs 0).now 0) timeout)
      ↔ ∃ task, s.inFlight.lookup id = some task ∧ timeout < (envs 0).now 0 - task.consumedAt := by
    intro id
    rw [← Multiset.mem_coe, hlist]
    exact mem_expiredIds
  have hnodup : ((envs 0).iter.list (s.expiredIds ((envs 0).now 0) timeout)).Nodup := by
    rw [← Multiset.coe_nodup, hlist]
    exact s.nodup_expiredIds _ _
  obtain ⟨s', hall, hlookup⟩ := hs.nackAll_eq (fun k => envs (k + 1))
    (fun h k => ha h (k + 1)) hnodup
    (fun id hid => ((hscan id).mp hid).elim fun task h => Finmap.mem_iff.mpr ⟨task, h.1⟩) 0
  refine ⟨s', ?_, fun id => ?_⟩
  · have hcard : ((envs 0).iter.list (s.expiredIds ((envs 0).now 0) timeout)).length
        = (s.inFlight.entries.filter fun e =>
            timeout < (envs 0).now 0 - e.2.consumedAt).card := by
      rw [← Multiset.coe_card, hlist, expiredIds, Multiset.card_map]
    simp only [cleanupExpiredTasks, scanExpiredTasks, ht, hall, Nat.zero_add, hcard]
  · rw [hlookup]
    cases hl : s.inFlight.lookup id with
    | none => simp
    | some task =>
      by_cases hold : timeout < (envs 0).now 0 - task.consumedAt
      · rw [if_pos ((hscan id).mpr ⟨task, hl, hold⟩), Option.filter_some, if_neg]
        rw [decide_eq_true_eq, not_not]
        exact hold
      · rw [if_neg, Option.filter_some, if_pos (decide_eq_true hold)]
        intro hid
        obtain ⟨task', hl', hlt⟩ := (hscan id).mp hid
        rw [hl, Option.some_inj] at hl'
        exact hold (hl' ▸ hlt)

end Loop

/-! ### When expiry is exact -/

/-- A cleanup whose scan compares with `timeout` is exact when `timeout` tells the tasks in flight
apart as the real one does. -/
theorem Valid.exactExpiry_iff_agree {s : InMemoryStorage α} (hs : s.Valid) {envs : ℕ → Env}
    (ha : s.wal.isSome → ∀ k, (envs k).append = .ok ()) {timeoutSeconds : UInt64} {timeout : Int}
    (ht : expiryTimeout timeoutSeconds = some timeout) :
    ExactExpiry s envs timeoutSeconds ↔ ∀ id task, s.inFlight.lookup id = some task →
      (timeout < (envs 0).now 0 - task.consumedAt
        ↔ task.Outlives ((envs 0).now 0) timeoutSeconds) := by
  obtain ⟨s', heq, hlookup⟩ := hs.cleanupExpiredTasks_eq ha ht
  constructor
  · rintro ⟨count, s'', heq', hexact, -⟩ id task hl
    rw [heq, Prod.mk.injEq] at heq'
    have hsame := hexact id
    rw [← heq'.2, hlookup, hl, Option.filter_some, Option.filter_some] at hsame
    -- both lists of the table either hold the task or do not
    by_cases hlt : timeout < (envs 0).now 0 - task.consumedAt
    · by_cases hout : task.Outlives ((envs 0).now 0) timeoutSeconds
      · exact iff_of_true hlt hout
      · simp [hlt, hout] at hsame
    · by_cases hout : task.Outlives ((envs 0).now 0) timeoutSeconds
      · simp [hlt, hout] at hsame
      · exact iff_of_false hlt hout
  · intro hagree
    refine ⟨_, s', heq, fun id => ?_, ?_⟩
    · rw [hlookup]
      cases hl : s.inFlight.lookup id with
      | none => rw [Option.filter_none, Option.filter_none]
      | some task => simp only [Option.filter_some, hagree id task hl]
    · refine congrArg Multiset.card (Multiset.filter_congr fun e he => ?_)
      exact hagree e.1 e.2 (Finmap.lookup_eq_some_iff.mpr he)

theorem Valid.exactExpiry_iff_kept {s : InMemoryStorage α} (hs : s.Valid) {envs : ℕ → Env}
    (ha : s.wal.isSome → ∀ k, (envs k).append = .ok ()) (timeoutSeconds : UInt64) :
    ExactExpiry s envs timeoutSeconds ↔ TimeoutKept s ((envs 0).now 0) timeoutSeconds := by
  have hlt := timeoutSeconds.toNat_lt
  obtain ⟨hle, ht⟩ | ⟨hge, ht⟩ | ⟨hlow, hhigh, ht⟩ := expiryTimeout_cases timeoutSeconds
  -- read as it is
  · exact iff_of_true ((hs.exactExpiry_iff_agree ha ht).mpr fun _ _ _ => Iff.rfl) (Or.inl hle)
  -- wrapped below zero: every task older than the real timeout is older than that as well
  · rw [hs.exactExpiry_iff_agree ha ht]
    constructor
    · exact fun hagree => Or.inr ⟨hge, fun id task hl => (hagree id task hl).mp⟩
    · rintro (hle | ⟨-, hkept⟩) id task hl
      · unfold maxSeconds at hge hle
        omega
      · refine ⟨hkept id task hl, fun hout => ?_⟩
        unfold InFlightTask.Outlives at hout
        omega
  -- out of range: the call panics
  · refine iff_of_false ?_ ?_
    · rintro ⟨count, s', heq, -⟩
      simp [cleanupExpiredTasks, scanExpiredTasks, ht] at heq
    · rintro (hle | ⟨hge, -⟩)
      · omega
      · omega

end InMemoryStorage

namespace Config

/-- **When expiry is exact**, in every state a node can come to: as long as the timeout reaches the
scan as it is, or its change makes no difference to the tasks in flight. -/
theorem Reachable.exactExpiry_iff [Fintype ι] [DecidableEq ι] {σ : Config ι Bytes}
    (h : Reachable σ) {envs : ℕ → Env} (ha : σ.store.wal.isSome → ∀ k, (envs k).append = .ok ())
    (timeoutSeconds : UInt64) :
    ExactExpiry σ.store envs timeoutSeconds
      ↔ TimeoutKept σ.store ((envs 0).now 0) timeoutSeconds :=
  h.consistent.store.exactExpiry_iff_kept ha timeoutSeconds

/-- A node with a message that was delivered just now. -/
def justDelivered : Config (Fin 1) Bytes :=
  start (InMemoryStorage.boot true (fun _ => Env.quiet [])
    [⟨.createQueue "q", 0⟩, ⟨.enqueue "q" [1], 0⟩, ⟨.dequeued "q" "a", 0⟩])
    fun _ => .cleanupExpiredTasks 30

theorem reachable_justDelivered : Reachable justDelivered := .start true _ _ _

/-- The timeout of thirty seconds that `main` takes when none is set. -/
theorem Reachable.exactExpiry_iff_justDelivered :
    ExactExpiry justDelivered.store (fun _ => Env.quiet []) 30
      ↔ TimeoutKept justDelivered.store 0 30 :=
  Reachable.exactExpiry_iff reachable_justDelivered (fun _ _ => rfl) 30

/-- Under the largest timeout the message expires at once. -/
theorem not_exactExpiry_justDelivered :
    ¬ ∀ (σ : Config (Fin 1) Bytes) (envs : ℕ → Env) (timeoutSeconds : UInt64), Reachable σ →
      (σ.store.wal.isSome → ∀ k, (envs k).append = .ok ()) →
      ExactExpiry σ.store envs timeoutSeconds := by
  intro hall
  have hexact := hall justDelivered (fun _ => Env.quiet []) 18446744073709551615
    reachable_justDelivered fun _ _ => rfl
  have hkept := (reachable_justDelivered.consistent.store.exactExpiry_iff_kept
    (fun _ _ => rfl) _).mp hexact
  rcases hkept with hle | ⟨-, hkept⟩
  · exact absurd hle (by decide)
  · -- cast to minus one second, which a task of age zero is older than
    have hout := hkept "a" ⟨"a", [1], 0, "q", 1⟩ rfl (by decide)
    exact absurd hout (by decide)

end Config

end Oxideq
