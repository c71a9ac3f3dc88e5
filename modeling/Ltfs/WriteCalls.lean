import Ltfs.CallSpec

namespace Ltfs.WriteCalls

open Format Requests RequestState Unified RawFile Queues RequestCalls RequestSpec CallSpec

variable {cacheSize : Nat} {w : Walk} {req : WriteRequest} {rest : List WriteRequest}

@[simp] theorem passed_skip (w : Walk) (r : WriteRequest) : (w.skip r).passed = w.passed ++ [r] := by
  simp [Walk.passed, Walk.skip]

@[simp] theorem passed_moveTo (w : Walk) (r : WriteRequest) : (w.moveTo r).passed = w.passed ++ [r] := by
  simp [Walk.passed, Walk.moveTo]

@[simp] theorem passed_advance (w : Walk) (n : Nat) : (w.advance n).passed = w.passed := rfl

@[simp] theorem passed_grow (w : Walk) (n : Nat) : (w.grow n).passed = w.passed := rfl

@[simp] theorem passed_room (w : Walk) (room : Option Nat) : { w with room := room }.passed = w.passed := rfl

@[simp] theorem passed_promoted (w : Walk) (full : Option Nat) : (w.promoted full).passed = promote full w.passed := by
  cases hp : w.prev <;> simp [Walk.passed, Walk.promoted, promote, hp]

/-- A new request counts. -/
theorem shifts_new {cs : List Call} {l : List WriteRequest} {b : RequestState → Nat} (r : WriteRequest)
    (h : Shifts cs (tally (l ++ [r])) b) : Shifts (addTo r.state :: cs) (tally l) b := by
  have hr : Shifts [addTo r.state] (tally l) (tally (l ++ [r])) := by
    refine (shifts_addTo r).frame (v := tally l) ?_ ?_
    · rw [zero_add]
    · rw [tally_append, add_comm]
  exact hr.append h

theorem shifts_insertBefore (limit fuel : Nat) (w : Walk) :
    Shifts (insertBeforeCalls cacheSize limit fuel w) (tally w.passed)
      (tally (insertBefore cacheSize limit fuel w).1.passed) := by
  induction fuel generalizing w with
  | zero => exact shifts_nil _
  | succ fuel ih =>
    rw [insertBeforeCalls, insertBefore]
    split_ifs with hdone
    · exact shifts_nil _
    · cases hroom : takeRoom w.room with
      | none => exact shifts_nil _
      | some room =>
        apply shifts_new
        have h := ih ((({ w with room := room }.moveTo (newRequest cacheSize w.offset w.buf false)).advance
          (newRequest cacheSize w.offset w.buf false).count).grow (newRequest cacheSize w.offset w.buf false).fin)
        rwa [passed_grow, passed_advance, passed_moveTo, passed_room] at h

theorem shifts_mergePrev (w : Walk) (req : WriteRequest) (rest : List WriteRequest) :
    Shifts (mergePrevCalls cacheSize w req rest) (tally (w.passed ++ req :: rest))
      (tally ((mergePrev cacheSize w req rest).1.passed ++
        ((mergePrev cacheSize w req rest).2.1.toList ++ (mergePrev cacheSize w req rest).2.2.1))) := by
  rw [mergePrevCalls, mergePrev]
  cases hprev : w.prev with
  | none => exact shifts_nil _
  | some prev =>
    have hlist : w.passed ++ req :: rest = w.front ++ prev :: (w.between ++ req :: rest) := by
      simp [Walk.passed, hprev]
    rw [hlist]
    convert shifts_merge using 1
    rw [mergedTally]
    simp only [Walk.passed, Option.toList_some, tally_append]
    abel

/-- Bytes written into a request of the list may make it and others ready. -/
theorem shifts_update {x z : List WriteRequest} {offset : Nat} (buf : Bytes) (h : req.offset ≤ offset) :
    Shifts (updateCalls cacheSize (x ++ req :: z) req offset buf) (tally (x ++ req :: z))
      (tally (promote (updateRequest cacheSize req offset buf).2.2 x ++
        (updateRequest cacheSize req offset buf).1 ::
          promote (updateRequest cacheSize req offset buf).2.2 z)) := by
  have hreq : tally [(updateRequest cacheSize req offset buf).1] =
      tally [promoteOne (updateRequest cacheSize req offset buf).2.2 req] := tally_state (updateRequest_state buf h)
  rw [updateCalls]
  convert shifts_promote _ _ using 1
  generalize (updateRequest cacheSize req offset buf).2.2 = full at hreq ⊢
  have hlist : promote full (x ++ req :: z) = promote full x ++ promoteOne full req :: promote full z := by
    simp [promote]
  rw [hlist, tally_append, tally_append, tally_cons _ (promote full z), hreq, ← tally_cons]

theorem settle_list (w : Walk) (req : WriteRequest) (rest : List WriteRequest) (didMerge : Bool) :
    (settle w req rest didMerge).2.1.passed ++ (settle w req rest didMerge).2.2 = w.passed ++ req :: rest := by
  simp [settle]

theorem tally_swap (l : List WriteRequest) (r r' : WriteRequest) (rest : List WriteRequest)
    (h : r.state = r'.state) : tally (l ++ r :: rest) = tally (l ++ r' :: rest) := by
  rw [tally_append, tally_append, tally_cons r, tally_cons r', tally_state h]

theorem shifts_gone {cs : List Call} {l m : List WriteRequest} {b : RequestState → Nat} {r : WriteRequest}
    {q : RequestState} (hq : r.state = q) (h : Shifts cs (tally (l ++ m)) b) :
    Shifts (removeFrom q :: cs) (tally (l ++ r :: m)) b := by
  subst hq
  have hr : Shifts [removeFrom r.state] (tally (l ++ r :: m)) (tally (l ++ m)) := by
    refine (shifts_removeFrom r).frame (v := tally (l ++ m)) ?_ ?_
    · rw [tally_append, tally_cons, tally_append]
      abel
    · rw [zero_add]
  exact hr.append h

/-- A request is split: what is left of it keeps its state, and the new part counts. -/
theorem shifts_insert {l m : List WriteRequest} (r r' tail : WriteRequest) (h : r.state = r'.state) :
    Shifts [addTo tail.state] (tally (l ++ r :: m)) (tally (l ++ r' :: tail :: m)) := by
  refine (shifts_addTo tail).frame (v := tally (l ++ r :: m)) ?_ ?_
  · rw [zero_add]
  · rw [tally_swap l r r' m h, tally_append, tally_append, tally_cons r' (tail :: m), tally_cons r' m,
      tally_cons tail m]
    abel

theorem shifts_visit (fuel : Nat) (w : Walk) (req : WriteRequest) (rest : List WriteRequest) :
    Shifts (visitCalls cacheSize fuel w req rest) (tally (w.passed ++ req :: rest))
      (tally ((visit cacheSize fuel w req rest).2.1.passed ++ (visit cacheSize fuel w req rest).2.2)) := by
  induction fuel generalizing w req rest with
  | zero =>
    rw [visitCalls, visit]
    simpa using shifts_nil (tally (w.passed ++ req :: rest))
  | succ fuel ih =>
    rw [visitCalls, visit]
    have hins : Shifts (insertBeforeCalls cacheSize req.offset w.buf.length w) (tally (w.passed ++ req :: rest))
        (tally ((insertBefore cacheSize req.offset w.buf.length w).1.passed ++ req :: rest)) :=
      (shifts_insertBefore req.offset w.buf.length w).frame (tally_append ..) (tally_append ..)
    apply hins.append
    generalize insertBefore cacheSize req.offset w.buf.length w = ins
    obtain ⟨w, stop⟩ := ins
    cases stop with
    | true => simpa using shifts_nil (tally (w.passed ++ req :: rest))
    | false =>
      dsimp only
      apply (shifts_mergePrev w req rest).append
      generalize mergePrev cacheSize w req rest = m
      obtain ⟨w, src, rest, didMerge⟩ := m
      cases src with
      | none => exact shifts_nil _
      | some req =>
        dsimp only [Option.toList_some, List.singleton_append]
        split_ifs with hbuf hbefore hupd hip hall hfront hend
        · rw [settle_list]
          exact shifts_nil _
        · exact ih w req rest
        · rw [settle_list, passed_grow, passed_advance, passed_promoted]
          exact shifts_update w.buf (Nat.not_lt.1 hbefore)
        · exact shifts_gone hip.1 (shifts_nil _)
        · rw [tally_swap w.passed req (req.behind w.buf.length) rest rfl]
          exact ih w (req.behind w.buf.length) rest
        · rw [settle_list, tally_swap w.passed req (req.upTo w.offset) rest rfl]
          exact shifts_nil _
        · cases takeRoom w.room with
          | none => simpa using shifts_nil (tally (w.passed ++ req :: rest))
          | some room =>
            dsimp only
            generalize newRequest cacheSize _ _ true = tail
            refine Shifts.append (shifts_insert req (req.upTo w.offset) tail rfl) ?_
            have h := ih (({ w with room := room }.skip (req.upTo w.offset)).grow tail.fin) tail rest
            rwa [passed_grow, passed_skip, passed_room, List.append_assoc, List.singleton_append] at h
        · rw [settle_list]
          exact shifts_nil _

theorem shifts_traverse (fuel : Nat) (w : Walk) (rest : List WriteRequest) :
    Shifts (traverseCalls cacheSize fuel w rest) (tally (w.passed ++ rest))
      (tally ((traverse cacheSize fuel w rest).2.1.passed ++ (traverse cacheSize fuel w rest).2.2)) := by
  induction fuel generalizing w rest with
  | zero => exact shifts_nil _
  | succ fuel ih =>
    cases rest with
    | nil => exact shifts_nil _
    | cons req rest =>
      rw [traverseCalls, Requests.traverse]
      split_ifs with hskip
      · have h := ih (w.skip req) rest
        rwa [passed_skip, List.append_assoc, List.singleton_append] at h
      · apply (shifts_visit (w.buf.length + 1) w req rest).append
        generalize visit cacheSize (w.buf.length + 1) w req rest = v
        obtain ⟨flow, w, rest⟩ := v
        cases flow with
        | next => exact ih w rest
        | out => exact shifts_nil _
        | restart => exact shifts_nil _

theorem shifts_appendNew (fuel : Nat) (p : Pass) :
    Shifts (appendNewCalls cacheSize fuel p) (tally p.requests) (tally (appendNew cacheSize fuel p).requests) := by
  induction fuel generalizing p with
  | zero => exact shifts_nil _
  | succ fuel ih =>
    rw [appendNewCalls, appendNew]
    split_ifs with hbuf
    · exact shifts_nil _
    · cases takeRoom p.room with
      | none => exact shifts_nil _
      | some room => exact shifts_new _ (ih _)

theorem shifts_appendLast (p : Pass) :
    Shifts (appendLastCalls cacheSize p) (tally p.requests) (tally (appendLast cacheSize p).requests) := by
  rw [appendLastCalls, appendLast]
  cases hlast : p.requests.getLast? with
  | none => exact shifts_nil _
  | some req =>
    dsimp only
    split_ifs with hroom
    · have hoffset : req.offset ≤ p.offset := by
        rw [hroom.2.1]
        exact Nat.le_add_right ..
      have hlist : p.requests.dropLast ++ [req] = p.requests := List.dropLast_append_getLast? req hlast
      have h : Shifts (updateCalls cacheSize (p.requests.dropLast ++ [req]) req p.offset p.buf) _ _ :=
        shifts_update p.buf hoffset
      rwa [hlist] at h
    · exact shifts_nil _

theorem shifts_doAppend (fuel : Nat) (p : Pass) :
    Shifts (doAppendCalls cacheSize fuel p) (tally p.requests) (tally (doAppend cacheSize fuel p).requests) := by
  induction fuel generalizing p with
  | zero => exact shifts_nil _
  | succ fuel ih =>
    rw [doAppendCalls, doAppend]
    split_ifs with hlast
    · exact (shifts_appendLast p).append (shifts_appendNew _ _)
    · dsimp only
      apply (shifts_traverse p.requests.length ⟨[], none, [], p.fileSize, p.offset, p.buf, p.room⟩ p.requests).append
      generalize traverse cacheSize p.requests.length ⟨[], none, [], p.fileSize, p.offset, p.buf, p.room⟩ p.requests =
        v
      obtain ⟨flow, w, rest⟩ := v
      dsimp only
      split_ifs with hmore
      · exact ih ⟨w.passed ++ rest, w.fileSize, w.offset, w.buf, w.room⟩
      · exact shifts_nil _

theorem shifts_writePass (p : Pass) :
    Shifts (writePassCalls cacheSize p) (tally p.requests) (tally (writePass cacheSize p).requests) :=
  shifts_doAppend _ p

theorem tally_reverse (l : List WriteRequest) : tally l.reverse = tally l := by
  funext q
  exact List.countP_reverse

theorem shifts_truncate (length : Nat) (l : List WriteRequest) :
    Shifts (truncateCalls length l) (tally l) (tally (truncateRequests length l)) := by
  induction l with
  | nil => exact shifts_nil _
  | cons req before ih =>
    rw [truncateCalls, truncateRequests]
    split_ifs with hgone hcut
    · exact shifts_gone (l := []) rfl ih
    · have hreq : tally [req.upTo length] = tally [req] := tally_state rfl
      refine ih.frame (tally_cons req before |>.trans (add_comm ..)) ?_
      rw [tally_append, hreq]
    · rw [tally_reverse]
      exact shifts_nil _

end Ltfs.WriteCalls
