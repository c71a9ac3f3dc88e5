import Mathlib
import Ltfs.ExtQueue

namespace Ltfs.ExtQueueSpec

open Format Requests RequestState RawFile Unified Queues Scheduler SchedulerRun ExtQueue

variable {ι : Type} {c : UnifiedData} {s s' : Scheduler ι} {i : ι} {p : CountedPriv}

/-- Only extents that the new one covers are deleted. -/
theorem updateAltWalk_ne_nil (new : ExtentInfo) (l : List ExtentInfo) : updateAltWalk c new false l ≠ [] := by
  cases l with
  | nil => simp [updateAltWalk]
  | cons entry rest =>
    rw [updateAltWalk]
    by_cases hle : new.fileoffset ≤ entry.fileoffset
    · simp only [hle, and_self, if_true]
      split_ifs <;> simp
    · have hlt : entry.fileoffset < new.fileoffset := Nat.lt_of_not_le hle
      split_ifs <;> simp

/-- A file with extents on the index partition is not linked again. -/
theorem indexLoop_later (rest done : List WriteRequest) (d : Contents) (dpr : DentryPriv) (t : Tape)
    (h : dpr.altExtentlist ≠ []) :
    extInserts c rest dpr t = 0 ∧ (indexLoop c d rest done dpr t).1.altExtentlist ≠ [] := by
  induction rest generalizing done dpr t with
  | nil => exact ⟨rfl, h⟩
  | cons req rest ih =>
    rw [extInserts, indexLoop]
    split_ifs with hip
    · cases ltfsFsrawWriteData c.label c.drive .ip req.cache t with
      | mk res t' =>
        cases res with
        | error e => exact ⟨rfl, h⟩
        | ok start =>
          obtain ⟨hnone, hsome⟩ := ih done (unifiedUpdateAltExtentlist c _ dpr) t' (updateAltWalk_ne_nil _ _)
          exact ⟨by simpa [h] using hnone, hsome⟩
    · exact ih (done ++ [req]) dpr t h

/-- A file is linked when its first extent is written to the index partition. -/
theorem indexLoop_first (rest done : List WriteRequest) (d : Contents) (dpr : DentryPriv) (t : Tape)
    (h : dpr.altExtentlist = []) :
    extInserts c rest dpr t = 0 ∧ (indexLoop c d rest done dpr t).1.altExtentlist = [] ∨
      extInserts c rest dpr t = 1 ∧ (indexLoop c d rest done dpr t).1.altExtentlist ≠ [] := by
  induction rest generalizing done t with
  | nil => exact .inl ⟨rfl, h⟩
  | cons req rest ih =>
    rw [extInserts, indexLoop]
    split_ifs with hip
    · cases ltfsFsrawWriteData c.label c.drive .ip req.cache t with
      | mk res t' =>
        cases res with
        | error e => exact .inl ⟨rfl, h⟩
        | ok start =>
          obtain ⟨hnone, hsome⟩ :=
            indexLoop_later rest done d (unifiedUpdateAltExtentlist c _ dpr) t' (updateAltWalk_ne_nil _ _)
          exact .inr ⟨by simpa [h] using hnone, hsome⟩
    · exact ih (done ++ [req]) t

theorem truncateAlt_eq_nil {length : Nat} {l : List ExtentInfo} :
    truncateAlt length l = [] ↔ ∀ e ∈ l, length ≤ e.fileoffset := by
  induction l with
  | nil => simp [truncateAlt]
  | cons e l ih =>
    rw [truncateAlt, List.forall_mem_cons]
    split_ifs with hle hend
    · rw [ih]
      exact (and_iff_right hle).symm
    · simp [hle]
    · simp [hle]

theorem extLinked_unifiedInit : ExtLinked (unifiedInit : Scheduler ι) := by
  refine ⟨List.nodup_nil, fun i => ?_⟩
  simp [unifiedInit, altExtents]

variable [DecidableEq ι]

theorem keepsExt_index (w : World) (idle : Bool) :
    KeepsExt (SchedulerRun.unifiedProcessIndexQueue c w idle i : Scheduler ι → _) := by
  refine KeepsExt.bind (keepsExt_withPriv ?_) (frames_free idle).keepsExt
  intro s s' p hp h hs
  obtain ⟨s₁, h₁, h₂⟩ := Option.bind_eq_some_iff.1 h
  obtain rfl := Option.some.inj h₂
  obtain ⟨hqueue, hext⟩ := setDpr_ext h₁
  have halt := altExtents_of_priv hp
  have hmem := hs.mem i
  rw [halt] at hmem
  have hother : ∀ j, j ≠ i → (j ∈ s.extQueue ↔ altExtents s₁ j ≠ []) := by
    intro j hj
    rw [hs.mem j, Ne, Ne, hext j, if_neg hj]
  have hself := hext i
  rw [if_pos rfl] at hself
  -- The file is appended at most once, and only if it was not there.
  have hnew : extInserts c p.dpr.requests p.dpr w.tape = 0 ∧ (i ∈ s.extQueue ↔ altExtents s₁ i ≠ []) ∨
      extInserts c p.dpr.requests p.dpr w.tape = 1 ∧ i ∉ s.extQueue ∧ altExtents s₁ i ≠ [] := by
    by_cases hnil : p.dpr.altExtentlist = []
    · have hout : i ∉ s.extQueue := fun hi => hmem.1 hi hnil
      rcases indexLoop_first p.dpr.requests [] w.contents p.dpr w.tape hnil with ⟨hzero, hres⟩ | ⟨hone, hres⟩
      · exact .inl ⟨hzero, iff_of_false hout (not_not.2 (hself.2 hres))⟩
      · exact .inr ⟨hone, hout, fun hno => hres (hself.1 hno)⟩
    · obtain ⟨hzero, hres⟩ := indexLoop_later p.dpr.requests [] w.contents p.dpr w.tape hnil
      exact .inl ⟨hzero, iff_of_true (hmem.2 hnil) (fun hno => hres (hself.1 hno))⟩
  rcases hnew with ⟨hzero, hiff⟩ | ⟨hone, hout, hres⟩
  · rw [hzero]
    refine ⟨by simpa [hqueue] using hs.nodup, fun j => ?_⟩
    change j ∈ s₁.extQueue ++ [] ↔ altExtents s₁ j ≠ []
    rw [List.append_nil, hqueue]
    by_cases hj : j = i
    · rw [hj]
      exact hiff
    · exact hother j hj
  · rw [hone]
    refine ⟨?_, fun j => ?_⟩
    · change (s₁.extQueue ++ [i]).Nodup
      rw [hqueue]
      exact List.Nodup.append hs.nodup (List.nodup_singleton i) (by simpa using hout)
    · change j ∈ s₁.extQueue ++ [i] ↔ altExtents s₁ j ≠ []
      rw [hqueue, List.mem_append, List.mem_singleton]
      by_cases hj : j = i
      · rw [hj]
        exact iff_of_true (.inr rfl) hres
      · rw [← hother j hj]
        exact or_iff_left hj

/-- A file without extents is not taken from the queue, even if it is there. -/
theorem replace_nil (start stop : CountedPriv → Bool) (hnil : altExtents s i = [])
    (h : replace start stop i s = some s') : SameExt s s' := by
  cases hp : s.priv i with
  | none =>
    rw [replace, withPriv, hp] at h
    exact frames_some s s' h
  | some p =>
    rw [replace, withPriv, hp] at h
    simp only at h
    split_ifs at h with hstart hstop
    · exact sameExt_setWriteIp hp h
    · simp only [SchedulerRun.unifiedUnsetWriteIp, Option.bind_eq_bind, Option.bind_eq_some_iff] at h
      obtain ⟨s₁, h₁, s₂, h₂, h₃⟩ := h
      have hsame₁ : SameExt s s₁ := sameExt_leaveIpQueue hp h₁
      have hsame₂ : SameExt s₁ s₂ := by
        refine frames_withPriv ?_ s₁ s₂ h₂
        intro s s' p hp h
        obtain rfl := Option.some.inj h
        exact sameExt_mode _ false hp
      have hsame : SameExt s s₂ := hsame₁.trans hsame₂
      have hnil₂ : altExtents s₂ i = [] := (hsame.alt i).2 hnil
      rw [withPriv] at h₃
      split at h₃
      next => exact hsame.trans (frames_some s₂ s' h₃)
      next p hp =>
        rw [altExtents_of_priv hp] at hnil₂
        rw [SchedulerRun.unifiedClearAltExtentlist, if_pos hnil₂] at h₃
        exact hsame.trans (frames_some s₂ s' h₃)
    · exact frames_some s s' h

theorem truncate_extLinked (w : World) (length : Nat) (hs : ExtLinked s)
    (h : SchedulerRun.unifiedTruncate c w length i s = some s') :
    ExtLinked s' ↔ LeavesExtent s ⟨i, w, .truncate length⟩ := by
  obtain ⟨s₁, h₁, h₂⟩ := Option.bind_eq_some_iff.1 h
  constructor
  · intro hs' p hp hlength hsome
    by_contra hall
    push Not at hall
    rw [truncateLists, withPriv, hp] at h₁
    simp only [if_pos hlength] at h₁
    obtain ⟨hqueue, hext⟩ := setDpr_ext h₁
    have hnil : altExtents s₁ i = [] := by
      rw [hext i, if_pos rfl, truncateAlt_eq_nil]
      exact hall
    have hs₁ : ExtLinked s₁ := (replace_nil _ _ hnil h₂).extLinked_iff.1 hs'
    have hin : i ∈ s₁.extQueue := by
      rw [hqueue, hs.mem i, altExtents_of_priv hp]
      exact hsome
    exact (hs₁.mem i).1 hin hnil
  · intro hleaves
    refine keepsExt_replace _ _ s₁ s' h₂ ?_
    rw [truncateLists, withPriv] at h₁
    split at h₁
    next => exact frames_some.keepsExt s s₁ h₁ hs
    next p hp =>
      split_ifs at h₁ with hlength
      · refine (sameExt_setDpr hp h₁ ?_).extLinked_iff.2 hs
        refine ⟨fun hnil => ?_, fun hnil => by simp [hnil, truncateAlt]⟩
        by_contra hsome
        obtain ⟨e, he, hlt⟩ := hleaves p hp hlength hsome
        exact absurd (truncateAlt_eq_nil.1 hnil e he) (Nat.not_le.2 hlt)
      · exact (sameExt_setDpr hp h₁ Iff.rfl).extLinked_iff.2 hs

theorem step_extLinked (a : Step ι) (hs : ExtLinked s) (h : step c s a = some s') :
    ExtLinked s' ↔ LeavesExtent s a := by
  obtain ⟨i, w, op⟩ := a
  cases op with
  | write ipFull room offset buf => exact iff_of_true (keepsExt_write w ipFull room offset buf s s' h hs) trivial
  | truncate length => exact truncate_extLinked w length hs h
  | flush => exact iff_of_true ((frames_flush w).keepsExt s s' h hs) trivial
  | close flush idle => exact iff_of_true ((frames_close w flush idle).keepsExt s s' h hs) trivial
  | place => exact iff_of_true (keepsExt_replace _ _ s s' h hs) trivial
  | data full => exact iff_of_true ((frames_data w full).keepsExt s s' h hs) trivial
  | index idle => exact iff_of_true (keepsExt_index w idle s s' h hs) trivial
  | error e failed => exact iff_of_true ((frames_error w e failed).keepsExt s s' h hs) trivial

/-- The queue is in order all along a run just if no truncation takes the last extent from a file. -/
theorem run_extLinked_iff (c : UnifiedData) (as : List (Step ι)) :
    Lib.Run.Admits (step c) LeavesExtent unifiedInit as ↔
      ∀ bs, bs <+: as → ∃ s, run c bs = some s ∧ ExtLinked s :=
  Lib.Run.admits_iff (fun _ a hs => SchedulerSpec.step_good hs a) (fun _ a _ _ hs h => step_extLinked a hs h)
    SchedulerCounts.good_unifiedInit extLinked_unifiedInit

section Rewrite

/-- A scheduler with files of one byte on the index partition, over a drive without errors. -/
def smallFiles : UnifiedData where
  cacheSize := 1
  cacheSize_pos := Nat.one_pos
  maxFilesize := 1
  label := ⟨'a', 'b', 1, Label.a_ne_b, Label.a_ne_nul, Label.b_ne_nul, Nat.one_pos⟩
  drive := ⟨fun _ s => s, RawFile.keeps_same, fun _ _ => none, fun _ _ => false⟩

def emptyFile : World where
  contents := ⟨[], 0⟩
  matchesNameCriteria := true
  deleted := false
  tape := ⟨⟨⟨[], []⟩, ⟨0, 0⟩, RawFile.blank_le⟩, 0⟩

/-- A byte is written, sent to the data partition and then to the index partition. -/
def writeThrough : List (Step Unit) :=
  [.write false none 0 [7], .flush, .index false].map (Step.mk () emptyFile)

/-- A file is written, truncated, and written again. -/
def rewrite : List (Step Unit) := writeThrough ++ ⟨(), emptyFile, .truncate 0⟩ :: writeThrough

theorem rewrite_linked_twice : ∃ s, run smallFiles rewrite = some s ∧ ¬ ExtLinked s := by
  have h : (run smallFiles rewrite).map (·.extQueue) = some [(), ()] := by decide
  obtain ⟨s, hs, hqueue⟩ := Option.map_eq_some_iff.1 h
  refine ⟨s, hs, fun hlinked => ?_⟩
  have hnodup := hlinked.nodup
  rw [hqueue] at hnodup
  simp at hnodup

end Rewrite

end Ltfs.ExtQueueSpec
