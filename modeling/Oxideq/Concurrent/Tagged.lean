import Oxideq.Concurrent.Start

/-!
# Tagged messages

Two messages may have the same bytes. To say of a message where it is, its payload is tagged with
where it comes from: the entry of the log that names it, or the call that brings it. Under their
tags all messages differ (`distinct_tagged`).
-/

namespace Oxideq

variable {ι α β : Type}

/-- Where a message comes from: the `j`-th payload of the `k`-th entry of the log, or of the call
of thread `i`. -/
inductive Tag (ι : Type) where
  | logged (k j : ℕ)
  | called (i : ι) (j : ℕ)
  deriving DecidableEq

/-- The call with `f` applied to its payloads, each with its position. -/
def Call.relabel (f : ℕ → α → β) : Call α → Call β
  | .createQueue name => .createQueue name
  | .queue name item => .queue name (f 0 item)
  | .queueBatch name items => .queueBatch name (items.mapIdx f)
  | .dequeue name => .dequeue name
  | .dequeueBatch name count => .dequeueBatch name count
  | .ack taskId => .ack taskId
  | .ackBatch taskIds => .ackBatch taskIds
  | .nack taskId => .nack taskId
  | .extendVisibility taskId duration => .extendVisibility taskId duration
  | .cleanupExpiredTasks timeoutSeconds => .cleanupExpiredTasks timeoutSeconds

/-- The payloads a call brings. -/
def Call.payloads : Call α → List α
  | .queue _ item => [item]
  | .queueBatch _ items => items
  | _ => []

def WalOp.relabel (f : ℕ → α → β) : WalOp α → WalOp β
  | .createQueue name => .createQueue name
  | .enqueue queue data => .enqueue queue (f 0 data)
  | .enqueueBatch queue data => .enqueueBatch queue (data.mapIdx f)
  | .dequeued queue taskId => .dequeued queue taskId
  | .dequeuedBatch queue taskIds => .dequeuedBatch queue taskIds
  | .ack taskId => .ack taskId
  | .ackBatch taskIds => .ackBatch taskIds
  | .nack taskId => .nack taskId
  | .extendVisibility taskId duration => .extendVisibility taskId duration

theorem Call.payloads_relabel (f : ℕ → α → β) (c : Call α) :
    (c.relabel f).payloads = c.payloads.mapIdx f := by
  cases c <;> rfl

theorem WalOp.payloads_relabel (f : ℕ → α → β) (op : WalOp α) :
    (op.relabel f).payloads = op.payloads.mapIdx f := by
  cases op <;> rfl

/-- The calls of the threads with their payloads tagged. -/
def tagCalls (calls : ι → Call α) (i : ι) : Call (Tag ι × α) :=
  (calls i).relabel fun j x => (.called i j, x)

/-- The entries of a log with their payloads tagged, from the `k`-th on. -/
def tagLogFrom (ι : Type) : ℕ → List (WalEntry α) → List (WalEntry (Tag ι × α))
  | _, [] => []
  | k, e :: es => ⟨e.op.relabel fun j x => (.logged k j, x), e.timestamp⟩ :: tagLogFrom ι (k + 1) es

def tagLog (ι : Type) (entries : List (WalEntry α)) : List (WalEntry (Tag ι × α)) :=
  tagLogFrom ι 0 entries

/-- The payloads of the entries of a log. -/
def logPayloads (entries : List (WalEntry α)) : List α := entries.flatMap fun e => e.op.payloads

/-! ### Distinct messages -/

/-- No payload occurs twice in the log and the calls. -/
def Distinct [Fintype ι] (entries : List (WalEntry α)) (calls : ι → Call α) : Prop :=
  ((logPayloads entries : Multiset α) + ∑ i, ((calls i).payloads : Multiset α)).Nodup

theorem nodup_mapIdx_tag {f : ℕ → Tag ι} (hf : f.Injective) (xs : List α) :
    (xs.mapIdx fun j x => (f j, x)).Nodup := by
  rw [List.nodup_iff_injective_getElem]
  intro a b hab
  simp only [List.getElem_mapIdx, Prod.mk.injEq] at hab
  exact Fin.ext (hf hab.1)

theorem exists_tag_logPayloads {k : ℕ} {entries : List (WalEntry α)} {m : Tag ι × α}
    (h : m ∈ logPayloads (tagLogFrom ι k entries)) : ∃ k' j, k ≤ k' ∧ m.1 = .logged k' j := by
  induction entries generalizing k with
  | nil => cases h
  | cons e es ih =>
    rw [tagLogFrom, logPayloads, List.flatMap_cons, List.mem_append,
      WalOp.payloads_relabel, List.mem_mapIdx] at h
    rcases h with ⟨j, hj, rfl⟩ | h
    · exact ⟨k, j, le_rfl, rfl⟩
    · obtain ⟨k', j, hk, hm⟩ := ih h
      exact ⟨k', j, by omega, hm⟩

theorem nodup_logPayloads (k : ℕ) (entries : List (WalEntry α)) :
    (logPayloads (tagLogFrom ι k entries)).Nodup := by
  induction entries generalizing k with
  | nil => exact List.nodup_nil
  | cons e es ih =>
    rw [tagLogFrom, logPayloads, List.flatMap_cons, List.nodup_append', WalOp.payloads_relabel]
    refine ⟨nodup_mapIdx_tag (fun a b hab => by simpa using hab) _, ih (k + 1), ?_⟩
    intro m hm hm'
    obtain ⟨j, hj, rfl⟩ := List.mem_mapIdx.mp hm
    obtain ⟨k', j', hk, htag⟩ := exists_tag_logPayloads hm'
    cases htag
    omega

theorem exists_tag_payloads {calls : ι → Call α} {i : ι} {m : Tag ι × α}
    (h : m ∈ (tagCalls calls i).payloads) : ∃ j, m.1 = .called i j := by
  rw [tagCalls, Call.payloads_relabel] at h
  obtain ⟨j, hj, rfl⟩ := List.mem_mapIdx.mp h
  exact ⟨j, rfl⟩

/-- **Tagged messages are distinct.** -/
theorem distinct_tagged [Fintype ι] (entries : List (WalEntry α)) (calls : ι → Call α) :
    Distinct (tagLog ι entries) (tagCalls calls) := by
  unfold Distinct
  rw [Multiset.nodup_add, Multiset.coe_nodup]
  refine ⟨nodup_logPayloads 0 entries, ?_, ?_⟩
  · refine System.nodup_sum (fun i => ?_) fun i j m hi hj => ?_
    · rw [Multiset.coe_nodup, tagCalls, Call.payloads_relabel]
      exact nodup_mapIdx_tag (fun a b hab => by simpa using hab) _
    · obtain ⟨k, hk⟩ := exists_tag_payloads (Multiset.mem_coe.mp hi)
      obtain ⟨k', hk'⟩ := exists_tag_payloads (Multiset.mem_coe.mp hj)
      rw [hk] at hk'
      cases hk'
      rfl
  · rw [Multiset.disjoint_left]
    intro m hm hm'
    obtain ⟨k', j, -, htag⟩ := exists_tag_logPayloads (Multiset.mem_coe.mp hm)
    obtain ⟨i, -, hi⟩ := Multiset.mem_sum.mp hm'
    obtain ⟨j', htag'⟩ := exists_tag_payloads (Multiset.mem_coe.mp hi)
    rw [htag] at htag'
    cases htag'

end Oxideq
