import Ltfs.SchedulerRun
import Ltfs.QueueSpec
import Ltfs.DrainCalls

namespace Ltfs.SchedulerSpec

open Format Requests RequestState Unified RawFile Queues Scheduler RequestCalls QueueSpec CallSpec WriteCalls
open DrainCalls SchedulerRun

variable {ι : Type} {c : UnifiedData} {s : Scheduler ι} {i : ι} {p : CountedPriv}

/-- The lists are in order, and the counters of every file are the numbers of its requests. -/
structure Good (s : Scheduler ι) : Prop where
  linked : Linked s
  counts : ∀ i p, s.priv i = some p → p.inQueue = tally p.dpr.requests

/-- An operation that always has a result, and leaves the scheduler in order. -/
def Keeps (f : Scheduler ι → Option (Scheduler ι)) : Prop := ∀ s, Good s → ∃ s', f s = some s' ∧ Good s'

theorem keeps_some : Keeps (some : Scheduler ι → Option (Scheduler ι)) := fun s hs => ⟨s, rfl, hs⟩

theorem Keeps.bind {f g : Scheduler ι → Option (Scheduler ι)} (hf : Keeps f) (hg : Keeps g) :
    Keeps (fun s => f s >>= g) := by
  intro s hs
  obtain ⟨s₁, h₁, hs₁⟩ := hf s hs
  obtain ⟨s₂, h₂, hs₂⟩ := hg s₁ hs₁
  refine ⟨s₂, ?_, hs₂⟩
  simp [h₁, h₂]

theorem keeps_withPriv {f : CountedPriv → Scheduler ι → Option (Scheduler ι)}
    (h : ∀ s p, Good s → s.priv i = some p → ∃ s', f p s = some s' ∧ Good s') : Keeps (withPriv i f) := by
  intro s hs
  cases hp : s.priv i with
  | none => exact ⟨s, by simp [withPriv, hp], hs⟩
  | some p =>
    obtain ⟨s', hf, hs'⟩ := h s p hs hp
    exact ⟨s', by simp [withPriv, hp, hf], hs'⟩

theorem good_extQueue (hs : Good s) (l : List ι) : Good { s with extQueue := l } :=
  ⟨fun q => ⟨(hs.linked q).nodup, (hs.linked q).mem, (hs.linked q).length, (hs.linked q).total⟩, hs.counts⟩

variable [DecidableEq ι]

theorem good_setPriv {x : Option CountedPriv} (hs : Good s) (hl : Linked (s.setPriv i x))
    (hx : ∀ p, x = some p → p.inQueue = tally p.dpr.requests) : Good (s.setPriv i x) := by
  refine ⟨hl, fun j p hp => ?_⟩
  by_cases hj : j = i
  · subst hj
    exact hx p (by simpa [setPriv] using hp)
  · exact hs.counts j p (by simpa [setPriv, hj] using hp)

/-- New data with calls that take the old numbers of requests to the new ones. -/
theorem setDpr_good (dpr : DentryPriv) (hs : Good s) (hp : s.priv i = some p) {cs : List Call}
    (hip : dpr.writeIp = p.dpr.writeIp) (hcs : bump cs (tally p.dpr.requests) = tally dpr.requests) :
    ∃ s', setDpr i p dpr cs s = some s' ∧ Good s' ∧ s'.extQueue = s.extQueue ∧
      s'.priv = Function.update s.priv i (some ⟨dpr, tally dpr.requests⟩) := by
  have hl : Linked (s.setPriv i (some { p with dpr := dpr })) := by
    apply linked_setPriv hs.linked
    · intro q
      exact (inQueue_of_priv hp q).symm
    · exact .inl (by simp [writeIp, hp, hip])
  have hpriv : (s.setPriv i (some { p with dpr := dpr })).priv i = some ⟨dpr, p.inQueue⟩ := by
    simp [setPriv]
  obtain ⟨s', hcalls, hs', hext, hpriv'⟩ := calls_linked cs hl hpriv
  rw [hs.counts i p hp, hcs] at hpriv'
  have hupd : s'.priv = Function.update s.priv i (some ⟨dpr, tally dpr.requests⟩) := by
    rw [hpriv', setPriv, Function.update_idem]
  refine ⟨s', hcalls, ⟨hs', fun j q hq => ?_⟩, hext, hupd⟩
  rw [hupd] at hq
  by_cases hj : j = i
  · subst hj
    rw [Function.update_self] at hq
    obtain rfl := Option.some.inj hq
    rfl
  · rw [Function.update_of_ne hj] at hq
    exact hs.counts j q hq

theorem setDpr_keeps (hs : Good s) (hp : s.priv i = some p) {dpr : DentryPriv} {cs : List Call}
    (hip : dpr.writeIp = p.dpr.writeIp) (hcs : bump cs (tally p.dpr.requests) = tally dpr.requests) :
    ∃ s', setDpr i p dpr cs s = some s' ∧ Good s' := by
  obtain ⟨s', h, hs', -⟩ := setDpr_good dpr hs hp hip hcs
  exact ⟨s', h, hs'⟩

theorem good_getDentryPriv (hs : Good s) (w : World) : Good (SchedulerRun.unifiedGetDentryPriv c w i s) := by
  rw [SchedulerRun.unifiedGetDentryPriv]
  cases hp : s.priv i with
  | some p => exact hs
  | none =>
    apply good_setPriv hs
    · apply linked_setPriv hs.linked
      · intro q
        simp [inQueue, hp]
      · exact .inr (by simp [inQueue, hp])
    · intro p hp
      obtain rfl := Option.some.inj hp
      rfl

/-- Data of a file that the counters do not depend on. -/
theorem good_sameRequests (hs : Good s) (hp : s.priv i = some p) {dpr : DentryPriv}
    (hreq : dpr.requests = p.dpr.requests) (hip : dpr.writeIp = p.dpr.writeIp) :
    Good (s.setPriv i (some { p with dpr := dpr })) := by
  apply good_setPriv hs
  · apply linked_setPriv hs.linked
    · intro q
      exact (inQueue_of_priv hp q).symm
    · exact .inl (by simp [writeIp, hp, hip])
  · intro p' hp'
    obtain rfl := Option.some.inj hp'
    rw [hreq]
    exact hs.counts i p hp

/-- Of the counters only the one for the data partition knows the flag. -/
theorem linked_mode (hs : Linked s) (hp : s.priv i = some p) {total : Nat} {b : Bool} (hb : p.dpr.writeIp = !b)
    (htotal : if b then s.requestCount requestDp = total + p.inQueue requestDp
      else total = s.requestCount requestDp + p.inQueue requestDp) :
    Linked ({ s with requestCount := Function.update s.requestCount requestDp total }.setPriv i
      (some { p with dpr := { p.dpr with writeIp := b } })) := by
  set s' : Scheduler ι := { s with requestCount := Function.update s.requestCount requestDp total }.setPriv i
    (some { p with dpr := { p.dpr with writeIp := b } }) with hs'
  have hin : ∀ j q, s'.inQueue j q = s.inQueue j q := by
    intro j q
    by_cases hj : j = i
    · subst hj
      simp [hs', inQueue, setPriv, hp]
    · simp [hs', inQueue, setPriv, hj]
  have hshown : s'.shown requestDp = Function.update (s.shown requestDp) i (if b then 0 else p.inQueue requestDp) := by
    funext j
    rw [shown, hin]
    by_cases hj : j = i
    · subst hj
      simp [hs', writeIp, setPriv, inQueue_of_priv hp]
    · simp [hs', writeIp, setPriv, shown, hj]
  intro q
  have h := hs q
  refine ⟨h.nodup, fun j => ?_, h.length, ?_⟩
  · rw [hin]
    exact h.mem j
  · by_cases hq : q = requestDp
    · subst hq
      have hold := shown_of_priv hp requestDp
      have hmem := h.mem i
      have ht := h.total
      rw [inQueue_of_priv hp] at hmem
      rw [hshown]
      change Function.update s.requestCount requestDp total requestDp =
        ((s.queue requestDp).map (Function.update (s.shown requestDp) i _)).sum
      rw [Function.update_self]
      by_cases hi : i ∈ s.queue requestDp
      · have hsum := sum_update_of_mem (f := s.shown requestDp) (v := if b then 0 else p.inQueue requestDp) h.nodup hi
        rw [hold, ← ht] at hsum
        cases b <;> simp [CountedPriv.hidden, hb] at hsum htotal ⊢ <;> omega
      · rw [sum_update_of_notMem hi, ← ht]
        have hzero : p.inQueue requestDp = 0 := Nat.eq_zero_of_not_pos (fun hpos => hi (hmem.2 hpos))
        cases b <;> simp [hzero] at htotal <;> omega
    · have hother : s'.shown q = s.shown q := by
        funext j
        rw [shown, shown, hin]
        simp [hq]
      rw [hother]
      have ht := h.total
      simpa [hs', setPriv, hq] using ht

/-- What a file shows is part of the global counter. -/
theorem inQueue_le_requestCount (hs : Linked s) (hp : s.priv i = some p) (hb : p.dpr.writeIp = false) :
    p.inQueue requestDp ≤ s.requestCount requestDp := by
  have h := hs requestDp
  have hmem := h.mem i
  have hshown := shown_of_priv hp requestDp
  rw [inQueue_of_priv hp] at hmem
  by_cases hi : i ∈ s.queue requestDp
  · rw [h.total]
    have hle : s.shown requestDp i ≤ ((s.queue requestDp).map (s.shown requestDp)).sum :=
      List.single_le_sum (by simp) _ (List.mem_map_of_mem hi)
    simpa [hshown, CountedPriv.hidden, hb] using hle
  · have hzero : p.inQueue requestDp = 0 := Nat.eq_zero_of_not_pos (fun hpos => hi (hmem.2 hpos))
    omega

theorem good_mode (hs : Good s) (hp : s.priv i = some p) {total : Nat} {b : Bool} (hb : p.dpr.writeIp = !b)
    (htotal : if b then s.requestCount requestDp = total + p.inQueue requestDp
      else total = s.requestCount requestDp + p.inQueue requestDp) :
    Good ({ s with requestCount := Function.update s.requestCount requestDp total }.setPriv i
      (some { p with dpr := { p.dpr with writeIp := b } })) := by
  refine ⟨linked_mode hs.linked hp hb htotal, fun j p' hp' => ?_⟩
  by_cases hj : j = i
  · subst hj
    obtain rfl : _ = p' := by simpa [setPriv] using hp'
    exact hs.counts j p hp
  · exact hs.counts j p' (by simpa [setPriv, hj] using hp')

theorem setWriteIp_good (hs : Good s) (hp : s.priv i = some p) (hb : p.dpr.writeIp = false) :
    ∃ s', SchedulerRun.unifiedSetWriteIp i p s = some s' ∧ Good s' := by
  have hle := inQueue_le_requestCount hs.linked hp hb
  refine ⟨_, by rw [SchedulerRun.unifiedSetWriteIp, decrease, if_pos hle]; rfl, good_mode hs hp (by simpa using hb) ?_⟩
  rw [if_pos rfl]
  omega

theorem bump_leaveIp (l : List WriteRequest) :
    bump [removeAll requestIp] (tally l) = tally (l.filter (·.state ≠ requestIp)) := by
  rw [bump_removeAll]
  funext q
  by_cases hq : q = requestIp
  · subst hq
    simp [tally, List.countP_filter]
  · rw [Function.update_of_ne hq, tally_filter_ne hq]

theorem unsetWriteIp_good (hs : Good s) (hp : s.priv i = some p) (hb : p.dpr.writeIp = true) :
    ∃ s', SchedulerRun.unifiedUnsetWriteIp i p s = some s' ∧ Good s' := by
  have hleave : ∃ s₁ p₁, leaveIpQueue i p s = some s₁ ∧ Good s₁ ∧ s₁.priv i = some p₁ ∧ p₁.dpr.writeIp = true := by
    rw [leaveIpQueue]
    split_ifs with hzero
    · exact ⟨s, p, rfl, hs, hp, hb⟩
    · obtain ⟨s₁, h₁, hs₁, -, hp₁⟩ := setDpr_good (withoutIp p.dpr) hs hp rfl (bump_leaveIp _)
      exact ⟨s₁, ⟨withoutIp p.dpr, _⟩, h₁, hs₁, by rw [hp₁, Function.update_self], hb⟩
  obtain ⟨s₁, p₁, h₁, hs₁, hp₁, hb₁⟩ := hleave
  have hs₂ : Good (unhide i p₁ s₁) := good_mode hs₁ hp₁ (by simpa using hb₁) (by simp)
  have hp₂ : (unhide i p₁ s₁).priv i = some { p₁ with dpr := { p₁.dpr with writeIp := false } } := by
    simp [unhide, setPriv]
  set p₂ : CountedPriv := { p₁ with dpr := { p₁.dpr with writeIp := false } }
  refine ⟨SchedulerRun.unifiedClearAltExtentlist i p₂ (unhide i p₁ s₁), ?_, ?_⟩
  · simp [SchedulerRun.unifiedUnsetWriteIp, h₁, withPriv, hp₁, hp₂]
  · rw [SchedulerRun.unifiedClearAltExtentlist]
    split_ifs with halt
    · exact hs₂
    · have hext := good_extQueue hs₂ ((unhide i p₁ s₁).extQueue.erase i)
      refine good_sameRequests hext hp₂ ?_ ?_ <;> rfl

theorem keeps_replace (start stop : CountedPriv → Bool) : Keeps (replace start stop i : Scheduler ι → _) := by
  apply keeps_withPriv
  intro s p hs hp
  split_ifs with hstart hstop
  · exact setWriteIp_good hs hp hstart.1
  · exact unsetWriteIp_good hs hp hstop.1
  · exact ⟨s, rfl, hs⟩

theorem keeps_writeRequests (room : Option Nat) (offset : Nat) (buf : Bytes) :
    Keeps (writeRequests c room offset buf i : Scheduler ι → _) := by
  apply keeps_withPriv
  intro s p hs hp
  exact setDpr_keeps hs hp rfl (shifts_writePass _).bump

theorem keeps_write (w : World) (ipFull : Bool) (room : Option Nat) (offset : Nat) (buf : Bytes) :
    Keeps (SchedulerRun.unifiedWrite c w ipFull room offset buf i : Scheduler ι → _) := by
  intro s hs
  rw [SchedulerRun.unifiedWrite]
  split_ifs with hbuf
  · exact ⟨s, rfl, hs⟩
  · apply keeps_withPriv _ _ (good_getDentryPriv hs w)
    intro s p hs hp
    split_ifs with herr
    · exact (keeps_replace _ _).bind (keeps_writeRequests room offset buf) s hs
    · exact setDpr_keeps hs hp rfl rfl

theorem keeps_truncateLists (length : Nat) : Keeps (truncateLists length i : Scheduler ι → _) := by
  apply keeps_withPriv
  intro s p hs hp
  split_ifs with hcut
  · refine setDpr_keeps hs hp rfl ?_
    rw [← tally_reverse]
    exact (shifts_truncate _ _).bump
  · exact setDpr_keeps hs hp rfl rfl

theorem keeps_truncate (w : World) (length : Nat) :
    Keeps (SchedulerRun.unifiedTruncate c w length i : Scheduler ι → _) :=
  (keeps_truncateLists length).bind (keeps_replace _ _)

theorem keeps_getWriteError : Keeps (SchedulerRun.unifiedGetWriteError i : Scheduler ι → _) := by
  apply keeps_withPriv
  intro s p hs hp
  exact setDpr_keeps hs hp rfl rfl

/-- The requests of the states that a walk takes no longer count. -/
theorem tally_waiting (take : RequestState → Bool) (l : List WriteRequest) (q : RequestState) :
    tally (waiting (fun r => take r.state) l) q = if q ≠ requestIp ∧ take q = true then 0 else tally l q := by
  rw [tally, waiting, List.countP_filter]
  split_ifs with hq
  · apply List.countP_eq_zero.2
    intro r _ hr
    simp only [Bool.and_eq_true, decide_eq_true_eq] at hr
    obtain ⟨rfl, hr⟩ := hr
    rcases hr with hr | hr
    · exact hq.1 hr
    · exact hr hq.2
  · apply List.countP_congr
    intro r _
    simp only [Bool.and_eq_true, decide_eq_true_eq]
    constructor
    · exact And.left
    · rintro rfl
      refine ⟨rfl, ?_⟩
      by_contra hno
      rw [not_or, not_not] at hno
      exact hq hno

theorem keeps_flush (w : World) : Keeps (SchedulerRun.unifiedFlushUnlocked c w i : Scheduler ι → _) := by
  apply keeps_withPriv
  intro s p hs hp
  split_ifs with herr hreq
  · exact keeps_getWriteError s hs
  · exact ⟨s, rfl, hs⟩
  · have hdrain : ∃ s', setDpr i p (drain c false (fun _ => true) p.dpr p.dpr.requests [] [] w.contents w.tape).1
        (removeAll requestDp :: removeAll requestPartial ::
          drainCalls c false (fun _ => true) p.dpr.writeIp p.dpr.requests [] w.contents w.tape) s = some s' ∧
        Good s' := by
      apply setDpr_keeps hs hp (drain_writeIp ..)
      have hclear : bump [removeAll requestDp, removeAll requestPartial] (tally p.dpr.requests) =
          tally (waiting (fun _ => true) p.dpr.requests) := by
        funext q
        rw [tally_waiting (fun _ => true)]
        cases q <;> simp [bump, bumpOne, removeAll, leaving]
      rw [← bump_drain, List.nil_append, ← hclear]
      rfl
    obtain ⟨s₁, h₁, hs₁⟩ := hdrain
    obtain ⟨s₂, h₂, hs₂⟩ := keeps_getWriteError (i := i) s₁ hs₁
    exact ⟨s₂, by simp [h₁, h₂], hs₂⟩

theorem keeps_free (idle : Bool) :
    Keeps (SchedulerRun.unifiedFreeDentryPrivConditional idle i : Scheduler ι → _) := by
  apply keeps_withPriv
  intro s p hs hp
  split_ifs with hfree
  · have hzero : ∀ q, p.inQueue q = 0 := by
      intro q
      rw [hs.counts i p hp, hfree.2.1]
      rfl
    refine ⟨_, rfl, good_setPriv hs ?_ (fun p hp => nomatch hp)⟩
    apply linked_setPriv hs.linked
    · intro q
      rw [inQueue_of_priv hp, hzero]
      rfl
    · exact .inr (by rw [inQueue_of_priv hp, hzero])
  · exact ⟨s, rfl, hs⟩

theorem keeps_close (w : World) (flush idle : Bool) :
    Keeps (SchedulerRun.unifiedClose c w flush idle i : Scheduler ι → _) := by
  have hflush : Keeps ((if flush then SchedulerRun.unifiedFlushUnlocked c w i else some) : Scheduler ι → _) := by
    split_ifs
    · exact keeps_flush w
    · exact keeps_some
  exact hflush.bind (keeps_getWriteError.bind (keeps_free idle))

theorem keeps_data (w : World) (full : Bool) :
    Keeps (SchedulerRun.unifiedProcessDataQueue c w full i : Scheduler ι → _) := by
  apply keeps_withPriv
  intro s p hs hp
  apply setDpr_keeps hs hp (drain_writeIp ..)
  rw [← bump_drain, bump_append, List.nil_append]
  congr 1
  funext q
  rw [tally_waiting (fun q => full || q == requestDp)]
  cases full <;> cases q <;> simp [bump, bumpOne, removeAll, leaving]

theorem keeps_index (w : World) (idle : Bool) :
    Keeps (SchedulerRun.unifiedProcessIndexQueue c w idle i : Scheduler ι → _) := by
  refine Keeps.bind (keeps_withPriv ?_) (keeps_free idle)
  intro s p hs hp
  have hloop : ∃ s', setDpr i p (indexLoop c w.contents p.dpr.requests [] p.dpr w.tape).1
      (removeAll requestIp :: indexCalls c p.dpr.requests [] w.tape) s = some s' ∧ Good s' := by
    apply setDpr_keeps hs hp (indexLoop_writeIp ..)
    rw [← bump_index, List.nil_append, ← bump_leaveIp]
    rfl
  obtain ⟨s₁, h₁, hs₁⟩ := hloop
  exact ⟨_, by simp [h₁]; rfl, good_extQueue hs₁ _⟩

theorem keeps_error (w : World) (e : WriteError) (failed : RequestState) :
    Keeps (SchedulerRun.unifiedHandleWriteError c w e failed i : Scheduler ι → _) := by
  apply keeps_withPriv
  intro s p hs hp
  refine setDpr_keeps hs hp rfl ?_
  rw [handleWriteError_requests]
  by_cases hnil : p.dpr.requests = []
  · rw [hnil]
    rfl
  · exact bump_handleWriteError hnil (fun _ => rfl) (fun _ q _ => rfl)

theorem step_good (hs : Good s) (a : Step ι) : ∃ s', step c s a = some s' ∧ Good s' := by
  obtain ⟨i, w, op⟩ := a
  cases op with
  | write ipFull room offset buf => exact keeps_write w ipFull room offset buf s hs
  | truncate length => exact keeps_truncate w length s hs
  | flush => exact keeps_flush w s hs
  | close flush idle => exact keeps_close w flush idle s hs
  | place => exact keeps_replace _ _ s hs
  | data full => exact keeps_data w full s hs
  | index idle => exact keeps_index w idle s hs
  | error e failed => exact keeps_error w e failed s hs

end Ltfs.SchedulerSpec
