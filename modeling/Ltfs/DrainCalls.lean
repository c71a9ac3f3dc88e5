import Ltfs.WriteCalls

namespace Ltfs.DrainCalls

open Format Requests RequestState Unified RawFile Queues RequestCalls RequestSpec CallSpec WriteCalls

variable {c : UnifiedData} {cacheSize : Nat} {req dest src : WriteRequest} {l done rest : List WriteRequest}

theorem updateRequest_ip (h : dest.state = requestIp) (offset : Nat) (buf : Bytes) :
    (updateRequest cacheSize dest offset buf).2.2 = none := by
  simp [updateRequest, h]

theorem dest_ip (h : src.state = requestIp)
    (hstate : ¬ (dest.state ≠ src.state ∧ (dest.state = requestIp ∨ src.state = requestIp))) :
    dest.state = requestIp := by
  by_contra hne
  exact hstate ⟨fun e => hne (e.trans h), .inr h⟩

/-- A request for the index partition is merged without making others ready. -/
theorem mergeRequests_ip (h : src.state = requestIp) : (mergeRequests cacheSize dest src).full = none := by
  rw [mergeRequests]
  split_ifs with hgap hstate
  · rfl
  · exact (trimSource_dest ..).2
  · dsimp only
    split_ifs
    · rw [(trimSource_dest ..).2, updateRequest_ip (dest_ip h hstate)]
    · exact (trimSource_dest ..).2

theorem mergeCalls_ip (h : src.state = requestIp) (l m : List WriteRequest) :
    mergeCalls cacheSize l dest src = mergeCalls cacheSize m dest src := by
  rw [mergeCalls, mergeCalls]
  split_ifs with hgap hstate
  · rfl
  · rfl
  · simp only [updateCalls, updateRequest_ip (dest_ip h hstate), promoteCalls]

theorem shifts_mergeLast (h : req.state = requestIp) (done rest : List WriteRequest) :
    Shifts (mergeLastCalls c done req rest) (tally (done ++ [req])) (tally (mergeLast c done req)) := by
  rw [mergeLastCalls, mergeLast]
  cases hlast : done.getLast? with
  | none => exact shifts_nil _
  | some prev =>
    have hlist : done ++ [req] = done.dropLast ++ prev :: ([] ++ req :: []) := by
      rw [← List.dropLast_append_getLast? prev hlast]
      simp
    dsimp only
    rw [mergeCalls_ip h _ (done ++ [req]), hlist]
    convert shifts_merge using 1
    rw [mergedTally, mergeRequests_ip h, tally_append, tally_cons]
    simp only [promote_none, tally_nil]
    abel

/-- The requests that a walk leaves in the queues. -/
def waiting (take : WriteRequest → Bool) (l : List WriteRequest) : List WriteRequest :=
  l.filter (fun r => r.state = requestIp ∨ ¬ take r)

variable {a : RequestState → Nat}

theorem bump_removeAll (a : RequestState → Nat) (q : RequestState) :
    bump [removeAll q] a = Function.update a q 0 := by
  simp [bump, bumpOne, removeAll, leaving]

theorem bump_cons (k : Call) (cs : List Call) (a : RequestState → Nat) : bump (k :: cs) a = bump cs (bump [k] a) := rfl

/-- The requests that `_unified_handle_write_error` leaves. -/
def kept (c : UnifiedData) (e : WriteError) (failed : RequestState) (t : Tape) (l : List WriteRequest) :
    List WriteRequest :=
  l.filter fun r =>
    ¬ (r.state = requestIp ∧ clearsIp c e failed t ∨ r.state ≠ requestIp ∧ clearsDp c e failed t)

theorem handleWriteError_requests (e : WriteError) (failed : RequestState) (d : Contents) (t : Tape)
    (dpr : DentryPriv) :
    (unifiedHandleWriteError c e failed d t dpr).requests = kept c e failed t dpr.requests := rfl

theorem tally_kept (e : WriteError) (failed : RequestState) (t : Tape) (l : List WriteRequest) (q : RequestState) :
    tally (kept c e failed t l) q =
      if q = requestIp ∧ clearsIp c e failed t ∨ q ≠ requestIp ∧ clearsDp c e failed t then 0 else tally l q := by
  rw [tally, kept, List.countP_filter]
  split_ifs with hq
  · apply List.countP_eq_zero.2
    intro r _ hr
    simp only [Bool.and_eq_true, decide_eq_true_eq] at hr
    obtain ⟨rfl, hr⟩ := hr
    exact hr hq
  · apply List.countP_congr
    intro r _
    simp only [Bool.and_eq_true, decide_eq_true_eq]
    constructor
    · exact And.left
    · rintro rfl
      exact ⟨rfl, hq⟩

/-- After an error the counters agree with the requests that are left. The counters of a partition whose
requests are dropped need not have been right before. -/
theorem bump_handleWriteError {e : WriteError} {failed : RequestState} {t : Tape} (hl : l ≠ [])
    (hip : ¬ clearsIp c e failed t → a requestIp = tally l requestIp)
    (hdp : ¬ clearsDp c e failed t → ∀ q ≠ requestIp, a q = tally l q) :
    bump (handleWriteErrorCalls c e failed t l) a = tally (kept c e failed t l) := by
  funext q
  rw [tally_kept, handleWriteErrorCalls, if_neg hl, bump_append]
  by_cases hd : clearsDp c e failed t <;> by_cases hi : clearsIp c e failed t <;> cases q <;>
    simp [hd, hi, bump, bumpOne, removeAll, leaving] <;> grind

variable {hold : Bool} {take : WriteRequest → Bool} {dpr : DentryPriv}

theorem waiting_cons (take : WriteRequest → Bool) (r : WriteRequest) (l : List WriteRequest) :
    waiting take (r :: l) = if r.state = requestIp ∨ ¬ take r then r :: waiting take l else waiting take l := by
  rw [waiting, List.filter_cons]
  simp [waiting]

theorem tally_waiting_ip (take : WriteRequest → Bool) (l : List WriteRequest) :
    tally (waiting take l) requestIp = tally l requestIp := by
  rw [tally, waiting, List.countP_filter]
  apply List.countP_congr
  intro r _
  simp only [Bool.and_eq_true, decide_eq_true_eq]
  exact ⟨And.left, fun h => ⟨h, .inl h⟩⟩

theorem tally_filter_ne {q : RequestState} (hq : q ≠ requestIp) (l : List WriteRequest) :
    tally (l.filter (·.state ≠ requestIp)) q = tally l q := by
  rw [tally, List.countP_filter]
  apply List.countP_congr
  intro r _
  simp only [Bool.and_eq_true, decide_eq_true_eq]
  constructor
  · exact And.left
  · rintro rfl
    exact ⟨rfl, hq⟩

theorem tally_singleton_ne {q : RequestState} (h : req.state ≠ q) : tally [req] q = 0 := by
  simp [tally, h]

/-- The walk over the requests of a file keeps the counters in step with the requests that are behind it and
those that it will leave. -/
theorem bump_drain (rest done held : List WriteRequest) (d : Contents) (t : Tape) :
    bump (drainCalls c hold take dpr.writeIp rest done d t) (tally (done ++ waiting take rest)) =
      tally (drain c hold take dpr rest done held d t).1.requests := by
  induction rest generalizing done held d t with
  | nil => simp [drainCalls, drain, waiting, bump]
  | cons req rest ih =>
    rw [drainCalls, drain]
    by_cases hip : req.state = requestIp
    · have hmerge : Shifts (mergeLastCalls c done req rest) (tally (done ++ waiting take (req :: rest)))
          (tally (mergeLast c done req ++ waiting take rest)) := by
        rw [waiting_cons, if_pos (.inl hip)]
        refine (shifts_mergeLast hip done rest).frame (v := tally (waiting take rest)) ?_ (tally_append ..)
        rw [← tally_append, List.append_assoc, List.singleton_append]
      rw [if_pos hip, if_pos hip, bump_append, hmerge.bump, ih]
    rw [if_neg hip, if_neg hip]
    by_cases htake : take req = true
    · have hwait : waiting take (req :: rest) = waiting take rest := by
        rw [waiting_cons, if_neg (by simp [hip, htake])]
      rw [if_pos htake, if_pos htake, hwait]
      by_cases hwrite : dpr.writeIp = true ∨ ¬ hold = true
      · rw [if_pos hwrite, if_pos hwrite]
        cases hres : ltfsFsrawWrite c.label c.drive .dp req.cache req.offset d t with
        | mk res t' =>
          cases res with
          | error e =>
            dsimp only
            rw [handleWriteError_requests]
            apply bump_handleWriteError (by simp)
            · intro _
              rw [tally_append, tally_append, tally_cons, Pi.add_apply, Pi.add_apply, Pi.add_apply, tally_waiting_ip,
                tally_singleton_ne hip, Nat.zero_add]
            · intro hdp
              exact absurd (.inl hip) hdp
          | ok d' =>
            dsimp only
            by_cases hmode : dpr.writeIp = true
            · have hmerge : Shifts (addTo requestIp :: mergeLastCalls c done { req with state := requestIp } rest)
                  (tally (done ++ waiting take rest))
                  (tally (mergeLast c done { req with state := requestIp } ++ waiting take rest)) := by
                refine Shifts.frame (v := tally (waiting take rest)) ?_ (tally_append ..) (tally_append ..)
                exact shifts_new { req with state := requestIp } (shifts_mergeLast rfl done rest)
              rw [if_pos hmode, if_pos hmode, bump_append, hmerge.bump, ih]
            · rw [if_neg hmode, if_neg hmode]
              exact ih ..
      · rw [if_neg hwrite, if_neg hwrite]
        exact ih ..
    · have hwait : waiting take (req :: rest) = req :: waiting take rest := by
        rw [waiting_cons, if_pos (.inr htake)]
      rw [if_neg htake, if_neg htake, hwait, ← ih (done ++ [req]) held d t, List.append_assoc, List.singleton_append]

/-- A walk over the requests leaves the mode of the file and its extents on the index partition. -/
theorem drain_frame (rest done held : List WriteRequest) (d : Contents) (t : Tape) :
    (drain c hold take dpr rest done held d t).1.writeIp = dpr.writeIp ∧
      (drain c hold take dpr rest done held d t).1.altExtentlist = dpr.altExtentlist := by
  induction rest generalizing done held d t with
  | nil => exact ⟨rfl, rfl⟩
  | cons req rest ih =>
    rw [drain]
    by_cases hip : req.state = requestIp
    · rw [if_pos hip]
      exact ih ..
    rw [if_neg hip]
    by_cases htake : take req = true
    · rw [if_pos htake]
      by_cases hwrite : dpr.writeIp = true ∨ ¬ hold = true
      · rw [if_pos hwrite]
        cases ltfsFsrawWrite c.label c.drive .dp req.cache req.offset d t with
        | mk res t' =>
          cases res with
          | error e => exact ⟨rfl, rfl⟩
          | ok d' =>
            dsimp only
            by_cases hmode : dpr.writeIp = true
            · rw [if_pos hmode]
              exact ih ..
            · rw [if_neg hmode]
              exact ih ..
      · rw [if_neg hwrite]
        exact ih ..
    · rw [if_neg htake]
      exact ih ..

theorem drain_writeIp (rest done held : List WriteRequest) (d : Contents) (t : Tape) :
    (drain c hold take dpr rest done held d t).1.writeIp = dpr.writeIp :=
  (drain_frame rest done held d t).1

/-- The walk over the index partition's requests, whose counter is zero from the start. -/
theorem bump_index (rest done : List WriteRequest) (d : Contents) (dpr : DentryPriv) (t : Tape) :
    bump (indexCalls c rest done t) (tally (done ++ rest.filter (·.state ≠ requestIp))) =
      tally (indexLoop c d rest done dpr t).1.requests := by
  induction rest generalizing done dpr t with
  | nil => simp [indexCalls, indexLoop, bump]
  | cons req rest ih =>
    rw [indexCalls, indexLoop]
    by_cases hip : req.state = requestIp
    · rw [if_pos hip, if_pos hip, List.filter_cons_of_neg (by simp [hip])]
      cases hres : ltfsFsrawWriteData c.label c.drive .ip req.cache t with
      | mk res t' =>
        cases res with
        | error e =>
          dsimp only
          rw [handleWriteError_requests]
          apply bump_handleWriteError (by simp)
          · intro hno
            exact absurd (.inl rfl) hno
          · intro _ q hq
            have hreq : req.state ≠ q := fun h => hq (h.symm.trans hip)
            rw [tally_append, tally_append, tally_cons, Pi.add_apply, Pi.add_apply, Pi.add_apply, tally_filter_ne hq,
              tally_singleton_ne hreq, Nat.zero_add]
        | ok start => exact ih ..
    · rw [if_neg hip, if_neg hip, List.filter_cons_of_pos (by simp [hip]), ← ih (done ++ [req]), List.append_assoc,
        List.singleton_append]

theorem indexLoop_writeIp (rest done : List WriteRequest) (d : Contents) (dpr : DentryPriv) (t : Tape) :
    (indexLoop c d rest done dpr t).1.writeIp = dpr.writeIp := by
  induction rest generalizing done dpr t with
  | nil => rfl
  | cons req rest ih =>
    rw [indexLoop]
    split_ifs with hip
    · cases ltfsFsrawWriteData c.label c.drive .ip req.cache t with
      | mk res t' =>
        cases res with
        | error e => rfl
        | ok start => exact ih ..
    · exact ih ..

end Ltfs.DrainCalls
