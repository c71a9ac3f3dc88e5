import Ltfs.SchedulerSpec
import Ltfs.Lib.Run

namespace Ltfs.SchedulerCounts

open Requests RequestState Queues Scheduler QueueSpec CallSpec SchedulerRun SchedulerSpec

variable {ι : Type} {c : Unified.UnifiedData} {s : Scheduler ι}

/-- What the lists and counters of the scheduler are to say about its files. -/
structure Consistent (s : Scheduler ι) : Prop where
  inQueue : ∀ i q, s.inQueue i q = (s.requests i).countP (fun r => r.state = q)
  member : ∀ i q, i ∈ s.queue q ↔ 0 < s.inQueue i q
  nodup : ∀ q, (s.queue q).Nodup
  length : ∀ q, s.count q = (s.queue q).length
  working : s.requestCount requestPartial = ∑ᶠ i, s.inQueue i requestPartial
  index : s.requestCount requestIp = ∑ᶠ i, s.inQueue i requestIp
  data : s.requestCount requestDp = ∑ᶠ i, if s.writeIp i then 0 else s.inQueue i requestDp

theorem good_unifiedInit : Good (unifiedInit : Scheduler ι) := by
  refine ⟨fun q => ⟨List.nodup_nil, fun i => ?_, rfl, rfl⟩, fun i p hp => nomatch hp⟩
  simp [unifiedInit, inQueue]

theorem inQueue_eq_countP (hs : Good s) (i : ι) (q : RequestState) :
    s.inQueue i q = (s.requests i).countP (fun r => r.state = q) := by
  cases hp : s.priv i with
  | none => simp [inQueue, requests, hp]
  | some p =>
    rw [inQueue_of_priv hp, hs.counts i p hp]
    simp [requests, hp, tally]

variable [DecidableEq ι]

/-- A file outside of a list adds nothing to the counter, so that the sum is over all files. -/
theorem requestCount_eq_finsum (hs : Linked s) (q : RequestState) : s.requestCount q = ∑ᶠ i, s.shown q i := by
  have h := hs q
  rw [h.total, finsum_eq_sum_of_support_subset (s := (s.queue q).toFinset), List.sum_toFinset _ h.nodup]
  intro i hi
  rw [List.coe_toFinset, Set.mem_ofPred_eq, h.mem]
  by_contra hzero
  apply hi
  rw [shown, Nat.eq_zero_of_not_pos hzero, ite_self]

theorem consistent_of_good (hs : Good s) : Consistent s where
  inQueue := inQueue_eq_countP hs
  member i q := (hs.linked q).mem i
  nodup q := (hs.linked q).nodup
  length q := (hs.linked q).length
  working := requestCount_eq_finsum hs.linked requestPartial
  index := requestCount_eq_finsum hs.linked requestIp
  data := by simpa [shown] using requestCount_eq_finsum hs.linked requestDp

/-- Whatever is done to whichever files, no counter wraps and no list is corrupted, and the counters and lists
tell which requests the files have. -/
theorem run_consistent (c : Unified.UnifiedData) (as : List (Step ι)) : ∃ s, run c as = some s ∧ Consistent s := by
  obtain ⟨s, h, hs⟩ := Lib.Run.foldlM_invariant (fun s a hs => step_good (c := c) hs a) as good_unifiedInit
  exact ⟨s, h, consistent_of_good hs⟩

end Ltfs.SchedulerCounts
