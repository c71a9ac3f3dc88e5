import Ltfs.SchedulerCounts

namespace Ltfs.ExtQueue

open Format Requests RequestState RawFile Unified Queues Scheduler SchedulerRun

variable {ι : Type} {c : UnifiedData} {s s' s₁ : Scheduler ι} {i : ι} {p : CountedPriv} {dpr : DentryPriv}

/-- The extents of a file on the index partition. -/
def altExtents (s : Scheduler ι) (i : ι) : List ExtentInfo := (s.priv i).elim [] (fun p => p.dpr.altExtentlist)

/-- `ext_queue` holds the files with extents on the index partition, each once. -/
structure ExtLinked (s : Scheduler ι) : Prop where
  nodup : s.extQueue.Nodup
  mem : ∀ i, i ∈ s.extQueue ↔ altExtents s i ≠ []

/-- A truncation does not take away the last extent that a file has on the index partition. -/
def LeavesExtent (s : Scheduler ι) (a : Step ι) : Prop :=
  match a.op with
  | .truncate length => ∀ p, s.priv a.file = some p → length < p.dpr.fileSize → p.dpr.altExtentlist ≠ [] →
      ∃ e ∈ p.dpr.altExtentlist, e.fileoffset < length
  | _ => True

/-- Nothing that `ext_queue` is about changes. -/
structure SameExt (s s' : Scheduler ι) : Prop where
  queue : s'.extQueue = s.extQueue
  alt : ∀ i, altExtents s' i = [] ↔ altExtents s i = []

theorem SameExt.refl (s : Scheduler ι) : SameExt s s := ⟨rfl, fun _ => Iff.rfl⟩

theorem SameExt.trans (h : SameExt s s₁) (h' : SameExt s₁ s') : SameExt s s' :=
  ⟨h'.queue.trans h.queue, fun i => (h'.alt i).trans (h.alt i)⟩

theorem SameExt.extLinked_iff (h : SameExt s s') : ExtLinked s' ↔ ExtLinked s := by
  constructor
  · rintro ⟨hnodup, hmem⟩
    rw [h.queue] at hnodup hmem
    exact ⟨hnodup, fun i => (hmem i).trans (not_congr (h.alt i))⟩
  · rintro ⟨hnodup, hmem⟩
    rw [← h.queue] at hnodup hmem
    exact ⟨hnodup, fun i => (hmem i).trans (not_congr (h.alt i).symm)⟩

theorem altExtents_of_priv (hp : s.priv i = some p) : altExtents s i = p.dpr.altExtentlist := by
  simp [altExtents, hp]

/-- An operation that leaves `ext_queue` and the extents alone. -/
def Frames (f : Scheduler ι → Option (Scheduler ι)) : Prop := ∀ s s', f s = some s' → SameExt s s'

/-- An operation that keeps `ext_queue` in order. -/
def KeepsExt (f : Scheduler ι → Option (Scheduler ι)) : Prop := ∀ s s', f s = some s' → ExtLinked s → ExtLinked s'

theorem Frames.keepsExt {f : Scheduler ι → Option (Scheduler ι)} (hf : Frames f) : KeepsExt f :=
  fun s s' h => (hf s s' h).extLinked_iff.2

theorem frames_some : Frames (some : Scheduler ι → Option (Scheduler ι)) := by
  intro s s' h
  obtain rfl := Option.some.inj h
  exact SameExt.refl s

theorem Frames.bind {f g : Scheduler ι → Option (Scheduler ι)} (hf : Frames f) (hg : Frames g) :
    Frames (fun s => f s >>= g) := by
  intro s s' h
  obtain ⟨s₁, h₁, h₂⟩ := Option.bind_eq_some_iff.1 h
  exact (hf s s₁ h₁).trans (hg s₁ s' h₂)

theorem KeepsExt.bind {f g : Scheduler ι → Option (Scheduler ι)} (hf : KeepsExt f) (hg : KeepsExt g) :
    KeepsExt (fun s => f s >>= g) := by
  intro s s' h hs
  obtain ⟨s₁, h₁, h₂⟩ := Option.bind_eq_some_iff.1 h
  exact hg s₁ s' h₂ (hf s s₁ h₁ hs)

theorem frames_withPriv {f : CountedPriv → Scheduler ι → Option (Scheduler ι)}
    (hf : ∀ s s' p, s.priv i = some p → f p s = some s' → SameExt s s') : Frames (withPriv i f) := by
  intro s s' h
  rw [withPriv] at h
  split at h
  next => exact frames_some s s' h
  next p hp => exact hf s s' p hp h

theorem keepsExt_withPriv {f : CountedPriv → Scheduler ι → Option (Scheduler ι)}
    (hf : ∀ s s' p, s.priv i = some p → f p s = some s' → ExtLinked s → ExtLinked s') :
    KeepsExt (withPriv i f) := by
  intro s s' h hs
  rw [withPriv] at h
  split at h
  next => exact frames_some.keepsExt s s' h hs
  next p hp => exact hf s s' p hp h hs

variable [DecidableEq ι]

theorem altExtents_setPriv (x : Option CountedPriv) (j : ι) :
    altExtents (s.setPriv i x) j = if j = i then x.elim [] (fun p => p.dpr.altExtentlist) else altExtents s j := by
  by_cases hj : j = i
  · subst hj
    simp [altExtents, setPriv]
  · simp [altExtents, setPriv, hj]

/-- New data of a file with extents if the old data had some. -/
theorem sameExt_setPriv {x : Option CountedPriv}
    (hx : x.elim [] (fun p => p.dpr.altExtentlist) = [] ↔ altExtents s i = []) : SameExt s (s.setPriv i x) := by
  refine ⟨rfl, fun j => ?_⟩
  rw [altExtents_setPriv]
  split_ifs with hj
  · rw [hx, hj]
  · rfl

theorem sameExt_called {q : RequestState} {m : List ι × Nat} {total n : Nat} (hp : s.priv i = some p) :
    SameExt s (s.called q m total i p n) := by
  have hsame : SameExt (s.setQueue q m total) (s.called q m total i p n) := by
    apply sameExt_setPriv
    rw [altExtents_of_priv (s := s.setQueue q m total) hp]
    rfl
  exact ⟨hsame.queue, hsame.alt⟩

theorem frames_updateQueueMembership (cl : Call) : Frames (fun s : Scheduler ι => updateQueueMembership i s cl) := by
  intro s s' h
  simp only [updateQueueMembership] at h
  split at h
  next => cases h
  next p hp =>
    split at h
    · simp only [addMember, Option.bind_eq_bind, Option.bind_eq_some_iff] at h
      obtain ⟨l, -, h⟩ := h
      obtain rfl := Option.some.inj h
      exact sameExt_called hp
    · simp only [removeMember, Option.bind_eq_bind, Option.bind_eq_some_iff] at h
      obtain ⟨l, -, total, -, h⟩ := h
      obtain rfl := Option.some.inj h
      exact sameExt_called hp

theorem frames_calls (cs : List Call) : Frames (calls i cs : Scheduler ι → _) := by
  induction cs with
  | nil => exact frames_some
  | cons cl cs ih =>
    intro s s' h
    rw [calls, List.foldlM_cons] at h
    exact (frames_updateQueueMembership cl).bind ih s s' h

theorem setDpr_ext {cs : List Call} (h : setDpr i p dpr cs s = some s') :
    s'.extQueue = s.extQueue ∧
      ∀ j, altExtents s' j = [] ↔ if j = i then dpr.altExtentlist = [] else altExtents s j = [] := by
  have hsame := frames_calls cs _ _ h
  refine ⟨hsame.queue, fun j => ?_⟩
  rw [hsame.alt j, altExtents_setPriv]
  split_ifs <;> rfl

theorem sameExt_setDpr {cs : List Call} (hp : s.priv i = some p) (h : setDpr i p dpr cs s = some s')
    (halt : dpr.altExtentlist = [] ↔ p.dpr.altExtentlist = []) : SameExt s s' := by
  obtain ⟨hqueue, hext⟩ := setDpr_ext h
  refine ⟨hqueue, fun j => ?_⟩
  rw [hext j]
  split_ifs with hj
  · rw [hj, altExtents_of_priv hp, halt]
  · rfl

theorem frames_getWriteError : Frames (SchedulerRun.unifiedGetWriteError i : Scheduler ι → _) := by
  apply frames_withPriv
  intro s s' p hp h
  exact sameExt_setDpr hp h Iff.rfl

theorem frames_writeRequests (room : Option Nat) (offset : Nat) (buf : Bytes) :
    Frames (writeRequests c room offset buf i : Scheduler ι → _) := by
  apply frames_withPriv
  intro s s' p hp h
  exact sameExt_setDpr hp h Iff.rfl

theorem sameExt_getDentryPriv (w : World) : SameExt s (SchedulerRun.unifiedGetDentryPriv c w i s) := by
  rw [SchedulerRun.unifiedGetDentryPriv]
  cases hp : s.priv i with
  | some p => exact SameExt.refl s
  | none =>
    apply sameExt_setPriv
    simp [altExtents, hp, Unified.unifiedGetDentryPriv]

theorem frames_flush (w : World) : Frames (SchedulerRun.unifiedFlushUnlocked c w i : Scheduler ι → _) := by
  apply frames_withPriv
  intro s s' p hp h
  split_ifs at h with herr hreq
  · exact frames_getWriteError s s' h
  · exact frames_some s s' h
  · obtain ⟨s₁, h₁, h₂⟩ := Option.bind_eq_some_iff.1 h
    have hfirst := sameExt_setDpr hp h₁ (by rw [(DrainCalls.drain_frame ..).2])
    exact hfirst.trans (frames_getWriteError s₁ s' h₂)

theorem frames_data (w : World) (full : Bool) :
    Frames (SchedulerRun.unifiedProcessDataQueue c w full i : Scheduler ι → _) := by
  apply frames_withPriv
  intro s s' p hp h
  exact sameExt_setDpr hp h (by rw [(DrainCalls.drain_frame ..).2])

theorem frames_error (w : World) (e : WriteError) (failed : RequestState) :
    Frames (SchedulerRun.unifiedHandleWriteError c w e failed i : Scheduler ι → _) := by
  apply frames_withPriv
  intro s s' p hp h
  exact sameExt_setDpr hp h Iff.rfl

/-- What is freed has no extents, so that it is not in the queue either. -/
theorem frames_free (idle : Bool) :
    Frames (SchedulerRun.unifiedFreeDentryPrivConditional idle i : Scheduler ι → _) := by
  apply frames_withPriv
  intro s s' p hp h
  split_ifs at h with hfree
  · obtain rfl := Option.some.inj h
    apply sameExt_setPriv
    simp [altExtents_of_priv hp, hfree.2.2]
  · exact frames_some s s' h

theorem frames_close (w : World) (flush idle : Bool) :
    Frames (SchedulerRun.unifiedClose c w flush idle i : Scheduler ι → _) := by
  have hflush : Frames ((if flush then SchedulerRun.unifiedFlushUnlocked c w i else some) : Scheduler ι → _) := by
    split_ifs
    · exact frames_flush w
    · exact frames_some
  exact hflush.bind (frames_getWriteError.bind (frames_free idle))

theorem sameExt_mode (n : RequestState → Nat) (b : Bool) (hp : s.priv i = some p) :
    SameExt s ({ s with requestCount := n }.setPriv i (some { p with dpr := { p.dpr with writeIp := b } })) := by
  have hsame : SameExt { s with requestCount := n }
      ({ s with requestCount := n }.setPriv i (some { p with dpr := { p.dpr with writeIp := b } })) := by
    apply sameExt_setPriv
    rw [altExtents_of_priv (s := { s with requestCount := n }) hp]
    rfl
  exact ⟨hsame.queue, hsame.alt⟩

theorem sameExt_setWriteIp (hp : s.priv i = some p) (h : SchedulerRun.unifiedSetWriteIp i p s = some s') :
    SameExt s s' := by
  simp only [SchedulerRun.unifiedSetWriteIp, Option.bind_eq_bind, Option.bind_eq_some_iff] at h
  obtain ⟨total, -, h⟩ := h
  obtain rfl := Option.some.inj h
  exact sameExt_mode _ true hp

theorem sameExt_leaveIpQueue (hp : s.priv i = some p) (h : leaveIpQueue i p s = some s') : SameExt s s' := by
  rw [leaveIpQueue] at h
  split_ifs at h
  · exact frames_some s s' h
  · exact sameExt_setDpr hp h Iff.rfl

/-- With its extents a file leaves the queue. -/
theorem extLinked_clear (p : CountedPriv) (hs : ExtLinked s) :
    ExtLinked (SchedulerRun.unifiedClearAltExtentlist i p s) := by
  rw [SchedulerRun.unifiedClearAltExtentlist]
  split_ifs with halt
  · exact hs
  · refine ⟨hs.nodup.erase i, fun j => ?_⟩
    rw [altExtents_setPriv]
    change j ∈ s.extQueue.erase i ↔ (if j = i then [] else altExtents s j) ≠ []
    rw [hs.nodup.mem_erase_iff]
    split_ifs with hj
    · simp [hj]
    · rw [hs.mem j]
      exact and_iff_right hj

theorem keepsExt_unset : KeepsExt (withPriv i (SchedulerRun.unifiedUnsetWriteIp i) : Scheduler ι → _) := by
  apply keepsExt_withPriv
  intro s s' p hp h hs
  simp only [SchedulerRun.unifiedUnsetWriteIp, Option.bind_eq_bind, Option.bind_eq_some_iff] at h
  obtain ⟨s₁, h₁, s₂, h₂, h₃⟩ := h
  have hs₁ : ExtLinked s₁ := (sameExt_leaveIpQueue hp h₁).extLinked_iff.2 hs
  have hs₂ : ExtLinked s₂ := by
    refine keepsExt_withPriv ?_ s₁ s₂ h₂ hs₁
    intro s s' p hp h hs
    obtain rfl := Option.some.inj h
    exact (sameExt_mode _ false hp).extLinked_iff.2 hs
  refine keepsExt_withPriv ?_ s₂ s' h₃ hs₂
  intro s s' p _ h hs
  obtain rfl := Option.some.inj h
  exact extLinked_clear p hs

theorem keepsExt_replace (start stop : CountedPriv → Bool) :
    KeepsExt (replace start stop i : Scheduler ι → _) := by
  apply keepsExt_withPriv
  intro s s' p hp h hs
  split_ifs at h with hstart hstop
  · exact (sameExt_setWriteIp hp h).extLinked_iff.2 hs
  · exact keepsExt_unset s s' (by rw [withPriv, hp]; exact h) hs
  · exact frames_some.keepsExt s s' h hs

theorem keepsExt_write (w : World) (ipFull : Bool) (room : Option Nat) (offset : Nat) (buf : Bytes) :
    KeepsExt (SchedulerRun.unifiedWrite c w ipFull room offset buf i : Scheduler ι → _) := by
  intro s s' h hs
  rw [SchedulerRun.unifiedWrite] at h
  split_ifs at h with hbuf
  · exact frames_some.keepsExt s s' h hs
  · refine keepsExt_withPriv ?_ _ s' h ((sameExt_getDentryPriv w).extLinked_iff.2 hs)
    intro s s' p hp h hs
    split_ifs at h with herr
    · exact (keepsExt_replace _ _).bind (frames_writeRequests room offset buf).keepsExt s s' h hs
    · exact (sameExt_setDpr hp h Iff.rfl).extLinked_iff.2 hs

end Ltfs.ExtQueue
