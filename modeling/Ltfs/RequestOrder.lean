import Mathlib
import Ltfs.SchedulerCounts
import Ltfs.WriteOrder

namespace Ltfs.RequestOrder

open Format Requests RequestState RequestSpec RawFile Unified Queues Scheduler SchedulerRun WriteClear WriteRefill
open WriteOrder SchedulerSpec CallSpec

variable {ι : Type} {cs : Nat} {c : UnifiedData} {s s' : Scheduler ι} {i : ι} {p : CountedPriv} {dpr : DentryPriv}
  {req : WriteRequest} {l m done rest : List WriteRequest}

theorem rep_nil : Rep cs [] := ⟨List.Pairwise.nil, nofun⟩

theorem Rep.sublist (h : Rep cs l) (hm : m.Sublist l) : Rep cs m :=
  ⟨h.1.sublist hm, fun r hr => h.2 r (hm.subset hr)⟩

theorem Rep.filter (h : Rep cs l) (keep : WriteRequest → Bool) : Rep cs (l.filter keep) :=
  Rep.sublist h List.filter_sublist

/-- Only the offset and the number of bytes count. -/
theorem Rep.setState (h : Rep cs (l ++ req :: m)) (state : RequestState) :
    Rep cs (l ++ { req with state := state } :: m) := by
  obtain ⟨hl, hr, hlr⟩ := List.pairwise_append.1 h.1
  obtain ⟨hreq, hm⟩ := List.pairwise_cons.1 hr
  refine ⟨List.pairwise_append.2 ⟨hl, List.pairwise_cons.2 ⟨hreq, hm⟩, fun p hp => ?_⟩, ?_⟩
  · exact List.forall_mem_cons.2 (List.forall_mem_cons.1 (hlr p hp))
  · obtain ⟨hfl, hfr⟩ := List.forall_mem_append.1 h.2
    obtain ⟨hfreq, hfm⟩ := List.forall_mem_cons.1 hfr
    exact List.forall_mem_append.2 ⟨hfl, List.forall_mem_cons.2 ⟨hfreq, hfm⟩⟩

/-- The walk from the end keeps what lies before the new length, and cuts the last request. -/
theorem truncateRequests_rep (length : Nat) (h : Rep cs l) : Rep cs (truncateRequests length l.reverse) := by
  induction l using List.reverseRecOn with
  | nil => exact h
  | append_singleton l req ih =>
    have hl : Rep cs l := Rep.sublist h (List.sublist_append_left _ _)
    rw [List.reverse_append, List.reverse_singleton, List.singleton_append, truncateRequests]
    split_ifs with hgone hcut
    · exact ih hl
    · have hkept : truncateRequests length l.reverse = l := by
        rcases List.eq_nil_or_concat l with rfl | ⟨k, last, rfl⟩
        · rfl
        · rw [List.concat_eq_append] at h ⊢
          have hlast : last.fin ≤ req.offset :=
            (List.pairwise_append.1 h.1).2.2 last (by simp) req (List.mem_singleton_self _)
          have hoffset : last.offset ≤ last.fin := Nat.le_add_right _ _
          rw [List.reverse_append, List.reverse_singleton, List.singleton_append, truncateRequests, if_neg (by omega),
            if_neg (by omega), List.reverse_cons, List.reverse_reverse]
      rw [hkept]
      obtain ⟨hfl, hfreq⟩ := List.forall_mem_append.1 h.2
      refine ⟨(inOrder_concat fun p hp => ?_).2 hl.1, ?_⟩
      · exact (List.pairwise_append.1 h.1).2.2 p hp req (List.mem_singleton_self _)
      · exact List.forall_mem_append.2 ⟨hfl, List.forall_mem_singleton.2
          ((List.forall_mem_singleton.1 hfreq).upTo (Nat.not_le.1 hgone))⟩
    · rw [List.reverse_cons, List.reverse_reverse]
      exact h

theorem mergeLast_rep (h : Rep c.cacheSize (done ++ req :: rest)) : Rep c.cacheSize (mergeLast c done req ++ rest) := by
  rw [mergeLast]
  rcases List.eq_nil_or_concat done with rfl | ⟨k, last, rfl⟩
  · exact h
  · rw [List.concat_eq_append] at h ⊢
    rw [List.append_assoc, List.singleton_append] at h
    rw [List.getLast?_concat, List.dropLast_concat]
    dsimp only
    rw [List.append_assoc]
    exact merge_order h.1 h.2

theorem handleWriteError_rep {e : WriteError} {failed : RequestState} {d : Contents} {t : Tape}
    (h : Rep cs dpr.requests) : Rep cs (Unified.unifiedHandleWriteError c e failed d t dpr).requests :=
  Rep.filter h _

/-- What is sent to tape goes from the list, or joins the request before it. -/
theorem drain_rep {hold : Bool} {take : WriteRequest → Bool} (rest done held : List WriteRequest) (d : Contents) (t : Tape)
    (h : Rep c.cacheSize (done ++ rest)) : Rep c.cacheSize (drain c hold take dpr rest done held d t).1.requests := by
  induction rest generalizing done held d t with
  | nil =>
    rw [drain]
    rwa [List.append_nil] at h
  | cons req rest ih =>
    have hskip : Rep c.cacheSize (done ++ rest) := Rep.sublist h ((List.sublist_cons_self _ _).append_left _)
    rw [drain]
    by_cases hip : req.state = requestIp
    · rw [if_pos hip]
      exact ih _ held d t (mergeLast_rep h)
    · rw [if_neg hip]
      by_cases htake : take req = true
      · rw [if_pos htake]
        by_cases hsend : dpr.writeIp = true ∨ ¬hold = true
        · rw [if_pos hsend]
          cases ltfsFsrawWrite c.label c.drive .dp req.cache req.offset d t with
          | mk res t₁ =>
            cases res with
            | error e => exact handleWriteError_rep h
            | ok d₁ =>
              dsimp only
              split_ifs
              · exact ih _ held d₁ t₁ (mergeLast_rep (Rep.setState h requestIp))
              · exact ih done held d₁ t₁ hskip
        · rw [if_neg hsend]
          exact ih done _ d t hskip
      · rw [if_neg htake]
        exact ih _ held d t (by rwa [List.append_assoc, List.singleton_append])

theorem indexLoop_rep (rest done : List WriteRequest) (d : Contents) (dpr : DentryPriv) (t : Tape)
    (h : Rep cs (done ++ rest)) : Rep cs (indexLoop c d rest done dpr t).1.requests := by
  induction rest generalizing done dpr t with
  | nil =>
    rw [indexLoop]
    rwa [List.append_nil] at h
  | cons req rest ih =>
    rw [indexLoop]
    split_ifs with hip
    · cases ltfsFsrawWriteData c.label c.drive .ip req.cache t with
      | mk res t₁ =>
        cases res with
        | error e => exact handleWriteError_rep h
        | ok start => exact ih done _ t₁ (Rep.sublist h ((List.sublist_cons_self _ _).append_left _))
    · exact ih _ dpr t (by rwa [List.append_assoc, List.singleton_append])

/-- The request list of every file is sorted by offset, without overlaps, in cache blocks. -/
def Ordered (cs : Nat) (s : Scheduler ι) : Prop := ∀ i, Rep cs (s.requests i)

theorem ordered_unifiedInit : Ordered cs (unifiedInit : Scheduler ι) := fun _ => rep_nil

/-- An operation that keeps the request lists in order. -/
def KeepsOrder (cs : Nat) (f : Scheduler ι → Option (Scheduler ι)) : Prop :=
  ∀ s s', f s = some s' → Ordered cs s → Ordered cs s'

theorem requests_of_priv (hp : s.priv i = some p) : s.requests i = p.dpr.requests := by
  simp [Scheduler.requests, hp]

theorem ordered_priv (hs : Ordered cs s) (hp : s.priv i = some p) : Rep cs p.dpr.requests := by
  rw [← requests_of_priv hp]
  exact hs i

theorem keepsOrder_some : KeepsOrder cs (some : Scheduler ι → Option (Scheduler ι)) := by
  intro s s' h hs
  obtain rfl := Option.some.inj h
  exact hs

theorem KeepsOrder.bind {f g : Scheduler ι → Option (Scheduler ι)} (hf : KeepsOrder cs f) (hg : KeepsOrder cs g) :
    KeepsOrder cs (fun s => f s >>= g) := by
  intro s s' h hs
  obtain ⟨s₁, h₁, h₂⟩ := Option.bind_eq_some_iff.1 h
  exact hg s₁ s' h₂ (hf s s₁ h₁ hs)

theorem keepsOrder_withPriv {f : CountedPriv → Scheduler ι → Option (Scheduler ι)}
    (hf : ∀ s s' p, s.priv i = some p → f p s = some s' → Ordered cs s → Ordered cs s') :
    KeepsOrder cs (withPriv i f) := by
  intro s s' h hs
  rw [withPriv] at h
  split at h
  next => exact keepsOrder_some s s' h hs
  next p hp => exact hf s s' p hp h hs

variable [DecidableEq ι]

theorem requests_setPriv (x : Option CountedPriv) (j : ι) :
    (s.setPriv i x).requests j = if j = i then x.elim [] (fun p => p.dpr.requests) else s.requests j := by
  by_cases hj : j = i
  · subst hj
    simp [Scheduler.requests, setPriv]
  · simp [Scheduler.requests, setPriv, hj]

theorem requests_updateQueueMembership {cl : Call} (h : updateQueueMembership i s cl = some s') (j : ι) :
    s'.requests j = s.requests j := by
  have hcalled : ∀ {q : RequestState} {m : List ι × Nat} {total n : Nat} {p : CountedPriv}, s.priv i = some p →
      (s.called q m total i p n).requests j = s.requests j := by
    intro q m total n p hp
    rw [Scheduler.called, requests_setPriv]
    split_ifs with hj
    · rw [hj, requests_of_priv hp]
      rfl
    · rfl
  simp only [updateQueueMembership] at h
  split at h
  next => cases h
  next p hp =>
    split at h
    · simp only [addMember, Option.bind_eq_bind, Option.bind_eq_some_iff] at h
      obtain ⟨l, -, h⟩ := h
      obtain rfl := Option.some.inj h
      exact hcalled hp
    · simp only [removeMember, Option.bind_eq_bind, Option.bind_eq_some_iff] at h
      obtain ⟨l, -, total, -, h⟩ := h
      obtain rfl := Option.some.inj h
      exact hcalled hp

theorem requests_calls (calls : List Call) (h : Queues.calls i calls s = some s') (j : ι) :
    s'.requests j = s.requests j := by
  induction calls generalizing s with
  | nil =>
    obtain rfl := Option.some.inj h
    rfl
  | cons cl calls ih =>
    rw [Queues.calls, List.foldlM_cons] at h
    obtain ⟨s₁, h₁, h₂⟩ := Option.bind_eq_some_iff.1 h
    rw [ih h₂, requests_updateQueueMembership h₁]

/-- A file has new requests, and the other files keep theirs. -/
theorem setDpr_requests {calls : List Call} (h : setDpr i p dpr calls s = some s') (j : ι) :
    s'.requests j = if j = i then dpr.requests else s.requests j := by
  rw [requests_calls calls h, requests_setPriv]
  rfl

/-- With the lists of the other files in order, all depends on the new one. -/
theorem setDpr_ordered {calls : List Call} (h : setDpr i p dpr calls s = some s') (hs : Ordered cs s) :
    Ordered cs s' ↔ Rep cs dpr.requests := by
  constructor
  · intro hs'
    have hi := hs' i
    rwa [setDpr_requests h, if_pos rfl] at hi
  · intro hrep j
    rw [setDpr_requests h]
    split_ifs
    · exact hrep
    · exact hs j

theorem keepsOrder_getWriteError : KeepsOrder cs (SchedulerRun.unifiedGetWriteError i : Scheduler ι → _) := by
  apply keepsOrder_withPriv
  intro s s' p hp h hs
  exact (setDpr_ordered h hs).2 (ordered_priv hs hp)

theorem keepsOrder_flush (w : World) :
    KeepsOrder c.cacheSize (SchedulerRun.unifiedFlushUnlocked c w i : Scheduler ι → _) := by
  apply keepsOrder_withPriv
  intro s s' p hp h hs
  split_ifs at h with herr hreq
  · exact keepsOrder_getWriteError s s' h hs
  · exact keepsOrder_some s s' h hs
  · obtain ⟨s₁, h₁, h₂⟩ := Option.bind_eq_some_iff.1 h
    have hs₁ : Ordered c.cacheSize s₁ := (setDpr_ordered h₁ hs).2 (drain_rep _ _ _ _ _ (ordered_priv hs hp))
    exact keepsOrder_getWriteError s₁ s' h₂ hs₁

theorem keepsOrder_data (w : World) (full : Bool) :
    KeepsOrder c.cacheSize (SchedulerRun.unifiedProcessDataQueue c w full i : Scheduler ι → _) := by
  apply keepsOrder_withPriv
  intro s s' p hp h hs
  exact (setDpr_ordered h hs).2 (drain_rep _ _ _ _ _ (ordered_priv hs hp))

theorem keepsOrder_error (w : World) (e : WriteError) (failed : RequestState) :
    KeepsOrder cs (SchedulerRun.unifiedHandleWriteError c w e failed i : Scheduler ι → _) := by
  apply keepsOrder_withPriv
  intro s s' p hp h hs
  exact (setDpr_ordered h hs).2 (handleWriteError_rep (ordered_priv hs hp))

theorem ordered_setPriv {x : Option CountedPriv} (hs : Ordered cs s)
    (hx : Rep cs (x.elim [] (fun p => p.dpr.requests))) : Ordered cs (s.setPriv i x) := by
  intro j
  rw [requests_setPriv]
  split_ifs
  · exact hx
  · exact hs j

theorem keepsOrder_free (idle : Bool) :
    KeepsOrder cs (SchedulerRun.unifiedFreeDentryPrivConditional idle i : Scheduler ι → _) := by
  apply keepsOrder_withPriv
  intro s s' p hp h hs
  split_ifs at h with hfree
  · obtain rfl := Option.some.inj h
    exact ordered_setPriv hs rep_nil
  · exact keepsOrder_some s s' h hs

theorem keepsOrder_close (w : World) (flush idle : Bool) :
    KeepsOrder c.cacheSize (SchedulerRun.unifiedClose c w flush idle i : Scheduler ι → _) := by
  have hflush : KeepsOrder c.cacheSize
      ((if flush then SchedulerRun.unifiedFlushUnlocked c w i else some) : Scheduler ι → _) := by
    split_ifs
    · exact keepsOrder_flush w
    · exact keepsOrder_some
  exact hflush.bind (keepsOrder_getWriteError.bind (keepsOrder_free idle))

theorem keepsOrder_index (w : World) (idle : Bool) :
    KeepsOrder cs (SchedulerRun.unifiedProcessIndexQueue c w idle i : Scheduler ι → _) := by
  refine KeepsOrder.bind (keepsOrder_withPriv ?_) (keepsOrder_free idle)
  intro s s' p hp h hs
  obtain ⟨s₁, h₁, h₂⟩ := Option.bind_eq_some_iff.1 h
  obtain rfl := Option.some.inj h₂
  exact (setDpr_ordered h₁ hs).2 (indexLoop_rep _ _ _ _ _ (ordered_priv hs hp))

theorem requests_mode (n : RequestState → Nat) (b : Bool) (hp : s.priv i = some p) (j : ι) :
    ({ s with requestCount := n }.setPriv i (some { p with dpr := { p.dpr with writeIp := b } })).requests j =
      s.requests j := by
  rw [requests_setPriv]
  split_ifs with hj
  · rw [hj, requests_of_priv hp]
    rfl
  · rfl

theorem requests_unhide (s : Scheduler ι) (h : withPriv i (fun p s => some (unhide i p s)) s = some s') (j : ι) :
    s'.requests j = s.requests j := by
  rw [withPriv] at h
  split at h
  next =>
    obtain rfl := Option.some.inj h
    rfl
  next p hp =>
    obtain rfl := Option.some.inj h
    exact requests_mode _ false hp j

theorem requests_clearAlt (s : Scheduler ι)
    (h : withPriv i (fun p s => some (SchedulerRun.unifiedClearAltExtentlist i p s)) s = some s') (j : ι) :
    s'.requests j = s.requests j := by
  rw [withPriv] at h
  split at h
  next =>
    obtain rfl := Option.some.inj h
    rfl
  next p hp =>
    obtain rfl := Option.some.inj h
    rw [SchedulerRun.unifiedClearAltExtentlist]
    split_ifs with halt
    · rfl
    · rw [requests_setPriv]
      split_ifs with hj
      · rw [hj, requests_of_priv hp]
        rfl
      · rfl

/-- A file that is no longer written to the index partition loses the requests for it. -/
theorem requests_unset (h : SchedulerRun.unifiedUnsetWriteIp i p s = some s') (hp : s.priv i = some p) (j : ι) :
    s'.requests j = if j = i then
      if p.inQueue requestIp = 0 then p.dpr.requests else p.dpr.requests.filter (·.state ≠ requestIp)
    else s.requests j := by
  simp only [SchedulerRun.unifiedUnsetWriteIp, Option.bind_eq_bind, Option.bind_eq_some_iff] at h
  obtain ⟨s₁, h₁, s₂, h₂, h₃⟩ := h
  rw [requests_clearAlt s₂ h₃, requests_unhide s₁ h₂]
  rw [leaveIpQueue] at h₁
  split_ifs at h₁ with hnone
  · obtain rfl := Option.some.inj h₁
    rw [if_pos hnone]
    split_ifs with hj
    · rw [hj, requests_of_priv hp]
    · rfl
  · rw [if_neg hnone, setDpr_requests h₁]
    rfl

theorem keepsOrder_replace (start stop : CountedPriv → Bool) :
    KeepsOrder cs (replace start stop i : Scheduler ι → _) := by
  apply keepsOrder_withPriv
  intro s s' p hp h hs
  split_ifs at h with hstart hstop
  · simp only [SchedulerRun.unifiedSetWriteIp, Option.bind_eq_bind, Option.bind_eq_some_iff] at h
    obtain ⟨total, -, h⟩ := h
    obtain rfl := Option.some.inj h
    intro j
    rw [requests_mode _ true hp]
    exact hs j
  · intro j
    rw [requests_unset h hp]
    split_ifs
    · exact ordered_priv hs hp
    · exact Rep.filter (ordered_priv hs hp) _
    · exact hs j
  · exact keepsOrder_some s s' h hs

theorem keepsOrder_truncate (w : World) (length : Nat) :
    KeepsOrder cs (SchedulerRun.unifiedTruncate c w length i : Scheduler ι → _) := by
  refine KeepsOrder.bind (keepsOrder_withPriv ?_) (keepsOrder_replace _ _)
  intro s s' p hp h hs
  split_ifs at h with hcut
  · exact (setDpr_ordered h hs).2 (truncateRequests_rep length (ordered_priv hs hp))
  · exact (setDpr_ordered h hs).2 (ordered_priv hs hp)

/-- The requests that a write works on, in a file whose counters are right. -/
theorem requests_writeStart {ipFull : Bool} {offset : Nat} {buf : Bytes} (hp : s.priv i = some p)
    (hcount : p.inQueue = tally p.dpr.requests)
    (h : replace (fun _ => false) (fun _ => decide (c.maxFilesize < offset + buf.length ∨ ipFull = true)) i s = some s')
    (j : ι) : s'.requests j = if j = i then (writeStart c ipFull offset buf p.dpr).requests else s.requests j := by
  rw [replace, withPriv, hp] at h
  simp only [Bool.false_eq_true, and_false, if_false, decide_eq_true_eq] at h
  rw [writeStart]
  split_ifs at h with hstop
  · rw [if_pos hstop, requests_unset h hp]
    have hfilter : p.inQueue requestIp = 0 → p.dpr.requests.filter (·.state ≠ requestIp) = p.dpr.requests := by
      intro hnone
      rw [hcount] at hnone
      rw [List.filter_eq_self]
      intro r hr
      simpa using List.countP_eq_zero.1 hnone r hr
    split_ifs with hj hnone
    · exact (hfilter hnone).symm
    · rfl
    · rfl
  · obtain rfl := Option.some.inj h
    rw [if_neg hstop]
    split_ifs with hj
    · rw [hj, requests_of_priv hp]
    · rfl

/-- A write leaves the requests of its file without overlaps. -/
def WritesClear (c : UnifiedData) (s : Scheduler ι) (a : Step ι) : Prop :=
  match a.op with
  | .write ipFull room offset buf => ∀ p, s.priv a.file = some p → buf ≠ [] → p.dpr.writeError = none →
      clearWrite c.cacheSize (offset + buf.length) room offset (writeStart c ipFull offset buf p.dpr).requests = true
  | _ => True

theorem writeRequests_ordered {room : Option Nat} {offset : Nat} {buf : Bytes} (hs : Ordered c.cacheSize s)
    (h : writeRequests c room offset buf i s = some s') : Ordered c.cacheSize s' ↔
      clearWrite c.cacheSize (offset + buf.length) room offset (s.requests i) = true := by
  rw [writeRequests, withPriv] at h
  split at h
  next hp =>
    obtain rfl := Option.some.inj h
    have hnone : s.requests i = [] := by
      simp [Scheduler.requests, hp]
    rw [hnone]
    exact iff_of_true hs rfl
  next p hp =>
    rw [setDpr_ordered h hs, requests_of_priv hp]
    exact writePass_rep (p := ⟨p.dpr.requests, p.dpr.fileSize, offset, buf, room⟩) c.cacheSize_pos (ordered_priv hs hp)

theorem start_ordered {ipFull : Bool} {room : Option Nat} {offset : Nat} {buf : Bytes} (hp : s.priv i = some p)
    (hcount : p.inQueue = tally p.dpr.requests) (hs : Ordered c.cacheSize s)
    (h : (replace (fun _ => false) (fun _ => decide (c.maxFilesize < offset + buf.length ∨ ipFull = true)) i s >>=
      writeRequests c room offset buf i) = some s') : Ordered c.cacheSize s' ↔
      clearWrite c.cacheSize (offset + buf.length) room offset (writeStart c ipFull offset buf p.dpr).requests = true := by
  obtain ⟨s₁, h₁, h₂⟩ := Option.bind_eq_some_iff.1 h
  rw [writeRequests_ordered (keepsOrder_replace _ _ s s₁ h₁ hs) h₂, requests_writeStart hp hcount h₁, if_pos rfl]

theorem write_ordered (w : World) (ipFull : Bool) (room : Option Nat) (offset : Nat) (buf : Bytes) (hg : Good s)
    (hs : Ordered c.cacheSize s) (h : SchedulerRun.unifiedWrite c w ipFull room offset buf i s = some s') :
    Ordered c.cacheSize s' ↔ WritesClear c s ⟨i, w, .write ipFull room offset buf⟩ := by
  rw [SchedulerRun.unifiedWrite] at h
  split_ifs at h with hbuf
  · obtain rfl := Option.some.inj h
    exact iff_of_true hs fun p _ hne => absurd hbuf hne
  have hg₀ := good_getDentryPriv (c := c) (i := i) hg w
  cases hp : s.priv i with
  | some p =>
    have hsame : SchedulerRun.unifiedGetDentryPriv c w i s = s := by
      rw [SchedulerRun.unifiedGetDentryPriv, hp]
    rw [hsame, withPriv, hp] at h
    dsimp only at h
    split_ifs at h with herr
    · rw [start_ordered hp (hg.counts i p hp) hs h]
      refine ⟨fun hclear p' hp' _ _ => ?_, fun hclear => hclear p hp hbuf herr⟩
      obtain rfl : p = p' := Option.some.inj (hp.symm.trans hp')
      exact hclear
    · refine iff_of_true ((setDpr_ordered h hs).2 (ordered_priv hs hp)) fun p' hp' _ herr' => ?_
      obtain rfl : p = p' := Option.some.inj (hp.symm.trans hp')
      exact absurd herr' herr
  | none =>
    refine iff_of_true ?_ fun p hp' => absurd (hp.symm.trans hp') (Option.some_ne_none p).symm
    generalize hq : (⟨Unified.unifiedGetDentryPriv c ⟨w.contents, w.matchesNameCriteria, w.deleted, none, w.tape⟩,
      fun _ => 0⟩ : CountedPriv) = q at hg₀ h
    have hrequests : q.dpr.requests = [] := by
      rw [← hq]
      rfl
    have herr : q.dpr.writeError = none := by
      rw [← hq]
      rfl
    have hnew : SchedulerRun.unifiedGetDentryPriv c w i s = s.setPriv i (some q) := by
      rw [SchedulerRun.unifiedGetDentryPriv, hp, ← hq]
    have hpriv : (s.setPriv i (some q)).priv i = some q := by
      simp [setPriv]
    have hs₀ : Ordered c.cacheSize (s.setPriv i (some q)) := ordered_setPriv hs (by simp [hrequests, rep_nil])
    rw [hnew] at hg₀ h
    rw [withPriv, hpriv] at h
    dsimp only at h
    rw [if_pos herr] at h
    rw [start_ordered hpriv (hg₀.counts i q hpriv) hs₀ h]
    have hnone : (writeStart c ipFull offset buf q.dpr).requests = [] := by
      rw [writeStart]
      split_ifs
      · simp [Unified.unifiedUnsetWriteIp, hrequests]
      · exact hrequests
    rw [hnone]
    rfl

theorem step_ordered (a : Step ι) (hg : Good s) (hs : Ordered c.cacheSize s) (h : step c s a = some s') :
    Ordered c.cacheSize s' ↔ WritesClear c s a := by
  obtain ⟨i, w, op⟩ := a
  cases op with
  | write ipFull room offset buf => exact write_ordered w ipFull room offset buf hg hs h
  | truncate length => exact iff_of_true (keepsOrder_truncate w length s s' h hs) trivial
  | flush => exact iff_of_true (keepsOrder_flush w s s' h hs) trivial
  | close flush idle => exact iff_of_true (keepsOrder_close w flush idle s s' h hs) trivial
  | place => exact iff_of_true (keepsOrder_replace _ _ s s' h hs) trivial
  | data full => exact iff_of_true (keepsOrder_data w full s s' h hs) trivial
  | index idle => exact iff_of_true (keepsOrder_index w idle s s' h hs) trivial
  | error e failed => exact iff_of_true (keepsOrder_error w e failed s s' h hs) trivial

/-- The request lists are in order all along a run just if every write is clear of the requests behind it. -/
theorem run_ordered_iff (c : UnifiedData) (as : List (Step ι)) :
    Lib.Run.Admits (step c) (WritesClear c) unifiedInit as ↔
      ∀ bs, bs <+: as → ∃ s, run c bs = some s ∧ Ordered c.cacheSize s :=
  Lib.Run.admits_iff (fun _ a hs => step_good hs a) (fun _ a _ hg hs h => step_ordered a hg hs h)
    SchedulerCounts.good_unifiedInit ordered_unifiedInit

section Overwrite

/-- A scheduler with cache blocks of ten bytes, over a drive without errors. -/
def tenBytes : UnifiedData where
  cacheSize := 10
  cacheSize_pos := Label.pos_ten
  maxFilesize := 0
  label := ⟨'a', 'b', 16, Label.a_ne_b, Label.a_ne_nul, Label.b_ne_nul, Label.pos_sixteen⟩
  drive := ⟨fun _ s => s, RawFile.keeps_same, fun _ _ => none, fun _ _ => false⟩

def newFile : World where
  contents := ⟨[], 0⟩
  matchesNameCriteria := false
  deleted := false
  tape := ⟨⟨⟨[], []⟩, ⟨0, 0⟩, RawFile.blank_le⟩, 0⟩

/-- Two bytes at the start of a file, one further on, and then a write over the second request that begins in
the first one. -/
def overwrite : List (Step Unit) :=
  [.write false none 0 [1, 1], .write false none 4 [2], .write false none 1 [3, 3, 3, 3, 3, 3, 3, 3]].map
    (Step.mk () newFile)

/-- The last write grows the first request over the second one, which stays. -/
theorem overwrite_overlaps : ∃ s, run tenBytes overwrite = some s ∧ ¬Ordered tenBytes.cacheSize s := by
  have h : (run tenBytes overwrite).map (fun s => s.requests ()) =
      some [⟨0, [1, 3, 3, 3, 3, 3, 3, 3, 3], requestPartial⟩, ⟨4, [2], requestPartial⟩] := by decide
  obtain ⟨s, hs, hrequests⟩ := Option.map_eq_some_iff.1 h
  refine ⟨s, hs, fun hord => ?_⟩
  have hfirst := (hord ()).1
  rw [hrequests] at hfirst
  exact absurd ((List.pairwise_cons.1 hfirst).1 _ (List.mem_singleton_self _)) (by decide)

end Overwrite

end Ltfs.RequestOrder
