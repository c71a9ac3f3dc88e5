import Ltfs.ReadSpec
import Ltfs.DrainCalls

namespace Ltfs.FlushSpec

open Format Lib.Cells RawFile RawSpec RawWrite Requests RequestState RequestSpec Unified ReadSpec

variable {c : UnifiedData} {cs x : Nat} {dest src req : WriteRequest} {l m done rest : List WriteRequest}

@[simp] theorem reach_append : reach (l ++ m) = max (reach l) (reach m) := by
  induction l with
  | nil => exact (Nat.zero_max _).symm
  | cons r l ih => rw [List.cons_append, reach_cons, ih, reach_cons, Nat.max_assoc]

theorem reach_le {n : Nat} (h : ∀ r ∈ l, r.fin ≤ n) : reach l ≤ n := by
  induction l with
  | nil => exact Nat.zero_le n
  | cons r l ih =>
    obtain ⟨hr, hl⟩ := List.forall_mem_cons.1 h
    exact Nat.max_le.2 ⟨hr, ih hl⟩

/-- Two ways to hold the same bytes in requests. -/
structure Same (l m : List WriteRequest) : Prop where
  bytes : ∀ x, overlay WriteRequest.byte m x = overlay WriteRequest.byte l x
  reach_eq : reach m = reach l

theorem Same.refl (l : List WriteRequest) : Same l l :=
  ⟨fun _ => rfl, rfl⟩

theorem Same.append {l' m' : List WriteRequest} (h : Same l m) (h' : Same l' m') : Same (l ++ l') (m ++ m') := by
  refine ⟨fun x => ?_, by rw [reach_append, reach_append, h.reach_eq, h'.reach_eq]⟩
  rw [overlay_append, overlay_append, h.bytes, h'.bytes]

/-- What `_unified_merge_requests` makes of two requests for the index partition of which one ends before the
other starts. -/
structure Joined (dest src : WriteRequest) (l : List WriteRequest) : Prop where
  same : Same [dest, src] l
  order : InOrder l
  start : ∀ r ∈ l, dest.offset ≤ r.offset

theorem joined_both (hle : dest.fin ≤ src.offset) : Joined dest src [dest, src] := by
  have hstart : dest.offset ≤ dest.fin := Nat.le_add_right _ _
  refine ⟨Same.refl _, List.pairwise_cons.2 ⟨by simpa using hle, List.pairwise_singleton _ _⟩, ?_⟩
  · simp only [List.mem_cons, List.not_mem_nil, or_false, forall_eq_or_imp, forall_eq]
    exact ⟨Nat.le_refl _, Nat.le_trans hstart hle⟩

/-- Two requests without a gap, of which the first takes in `k` bytes of the second. -/
theorem joined_taken {dest' : WriteRequest} {k : Nat} (htouch : dest.fin = src.offset) (hu : Updated cs dest src.offset src.cache dest' k none) :
    Joined dest src ((trimSource dest' src none dest'.fin k).dest ::
      (trimSource dest' src none dest'.fin k).src.toList) := by
  have hsfin : src.fin = src.offset + src.count := rfl
  have hlen : src.cache.length = src.count := rfl
  have hk := hu.taken
  have hfin := hu.fin_eq
  have hbytes : ∀ x, dest'.byte x = (dest.byte x).or (if x < src.offset + k then src.byte x else none) := by
    intro x
    rw [hu.bytes, cell_take, ← WriteRequest.byte]
    by_cases hx : x < src.offset
    · rw [byte_of_lt hx, ite_self, Option.or_none, Option.none_or]
    · rw [byte_of_ge (r := dest) (by omega), Option.or_none, Option.none_or]
  -- `tl` is what is left of the second request
  have hjoined : ∀ tl : Option WriteRequest,
      (∀ x, overlay WriteRequest.byte tl.toList x = if x < src.offset + k then none else src.byte x) →
      (∀ r ∈ tl.toList, dest'.fin ≤ r.offset) → max dest'.fin (reach tl.toList) = src.fin →
      Joined dest src (dest' :: tl.toList) := by
    intro tl htl hstart hreach
    refine ⟨⟨fun x => ?_, ?_⟩, List.pairwise_cons.2 ⟨hstart, ?_⟩, ?_⟩
    · rw [overlay_cons, hbytes, htl, overlay_cons, overlay_cons, overlay_nil, Option.or_none, Option.or_assoc]
      congr 1
      split_ifs
      · exact Option.or_none
      · exact Option.none_or
    · rw [reach_cons, reach_cons, reach_cons, reach_nil]
      omega
    · cases tl with
      | none => exact List.Pairwise.nil
      | some r => exact List.pairwise_singleton _ r
    · refine List.forall_mem_cons.2 ⟨Nat.le_of_eq hu.offset_eq.symm, fun r hr => ?_⟩
      have hle := hstart r hr
      have : dest.offset ≤ dest.fin := Nat.le_add_right _ _
      omega
  rw [trimSource]
  split_ifs with hzero hpart
  · refine hjoined (some src) (fun x => ?_) (by simp; omega) (by simp; omega)
    rw [Option.toList_some, overlay_cons, overlay_nil, Option.or_none, hzero, Nat.add_zero]
    split_ifs with hx
    · exact byte_of_lt hx
    · rfl
  · have hstart : (cutFront src k).offset = src.offset + k := rfl
    have hend : (cutFront src k).fin = src.fin := fin_behind (Nat.le_of_lt hpart)
    refine hjoined (some (cutFront src k)) (fun x => ?_) (by simp; omega) (by simp; omega)
    rw [Option.toList_some, overlay_cons, overlay_nil, Option.or_none]
    exact byte_behind src k x
  · refine hjoined none (fun x => ?_) (by simp) (by simp; omega)
    rw [Option.toList_none, overlay_nil]
    split_ifs with hx
    · rfl
    · rw [byte_of_ge (by omega)]

theorem mergeRequests_joined (hd : dest.state = requestIp) (hs : src.state = requestIp) (hle : dest.fin ≤ src.offset) :
    Joined dest src ((mergeRequests cs dest src).dest :: (mergeRequests cs dest src).src.toList) := by
  have hfin : src.fin = src.offset + src.count := rfl
  have hboth := joined_both hle
  simp only [mergeRequests]
  split_ifs with hgap hstate hroom
  · exact hboth
  · exact absurd (hd.trans hs.symm) hstate.1
  · -- the requests touch
    have htouch : dest.fin = src.offset := by omega
    rw [htouch, Nat.sub_self, Nat.add_zero, List.drop_zero]
    have hu := @updateRequest_updated cs dest src.offset src.cache (by rw [← htouch]; exact Nat.le_add_right _ _)
      (Nat.le_of_eq htouch.symm)
    generalize updateRequest cs dest src.offset src.cache = y at hu ⊢
    obtain ⟨dest', k, full⟩ := y
    obtain rfl : full = none := hu.quiet hd
    rw [Nat.zero_add, promoteOne_none]
    exact joined_taken htouch hu
  · rw [show dest.fin - src.offset = 0 by omega]
    exact hboth

/-- The last request joins those before it. -/
theorem mergeLast_same (hdone : ∀ r ∈ done, r.state = requestIp) (hreq : req.state = requestIp)
    (hord : InOrder (done ++ [req])) :
    Same (done ++ [req]) (mergeLast c done req) ∧ InOrder (mergeLast c done req) := by
  obtain ⟨hod, -, hend⟩ := List.pairwise_append.1 hord
  rw [mergeLast]
  cases hlast : done.getLast? with
  | none => exact ⟨Same.refl _, hord⟩
  | some prev =>
    have hlist : done = done.dropLast ++ [prev] := (List.dropLast_append_getLast? prev hlast).symm
    have hmem : prev ∈ done := List.mem_of_getLast? hlast
    have hj : Joined prev req ((mergeRequests c.cacheSize prev req).dest ::
        (mergeRequests c.cacheSize prev req).src.toList) :=
      mergeRequests_joined (hdone prev hmem) hreq (hend prev hmem req (by simp))
    rw [hlist] at hod
    obtain ⟨hfront, -, hprev⟩ := List.pairwise_append.1 hod
    refine ⟨?_, List.pairwise_append.2 ⟨hfront, hj.order, fun a ha b hb => ?_⟩⟩
    · have hsplit : done ++ [req] = done.dropLast ++ [prev, req] := by
        conv => lhs; rw [hlist]
        rw [List.append_assoc, List.singleton_append]
      rw [hsplit]
      exact (Same.refl _).append hj.same
    · exact Nat.le_trans (hprev a ha prev (by simp)) (hj.start b hb)

section States

theorem trimSource_ip {full : Option Nat} {n k : Nat} (hd : dest.state = requestIp) (hs : src.state = requestIp) :
    ∀ r ∈ (trimSource dest src full n k).dest :: (trimSource dest src full n k).src.toList, r.state = requestIp := by
  have hcut : (cutFront src k).state = requestIp := by simp [cutFront, hs]
  rw [trimSource]
  split_ifs
  · simp [hd, hs]
  · simp [hd, hcut]
  · simp [hd]

/-- Two requests for the index partition are merged into such requests. -/
theorem mergeRequests_states (hd : dest.state = requestIp) (hs : src.state = requestIp) :
    ∀ r ∈ (mergeRequests cs dest src).dest :: (mergeRequests cs dest src).src.toList, r.state = requestIp := by
  have hupd : ∀ offset buf, (updateRequest cs dest offset buf).1.state = requestIp := by
    intro offset buf
    simp [updateRequest, hd]
  have hpromote : ∀ full, (promoteOne full src).state = requestIp := fun full => promoteOne_ip.2 hs
  simp only [mergeRequests]
  split_ifs
  · simp [hd, hs]
  · exact trimSource_ip hd hs
  · exact trimSource_ip (hupd _ _) (hpromote _)
  · exact trimSource_ip hd hs

theorem mergeLast_states (hdone : ∀ r ∈ done, r.state = requestIp) (hreq : req.state = requestIp) :
    ∀ r ∈ mergeLast c done req, r.state = requestIp := by
  rw [mergeLast]
  cases hlast : done.getLast? with
  | none => exact List.forall_mem_append.2 ⟨hdone, by simpa using hreq⟩
  | some prev =>
    refine List.forall_mem_append.2 ⟨fun r hr => hdone r (List.mem_of_mem_dropLast hr), ?_⟩
    exact mergeRequests_states (hdone prev (List.mem_of_getLast? hlast)) hreq

/-- A flush that meets no error leaves requests for the index partition only. -/
theorem drain_states {dpr : DentryPriv} (rest done held : List WriteRequest) (d : Contents) (t : Tape)
    (herr : dpr.writeError = none) (hdone : ∀ r ∈ done, r.state = requestIp)
    (hok : (drain c false (fun _ => true) dpr rest done held d t).1.writeError = none) :
    ∀ r ∈ (drain c false (fun _ => true) dpr rest done held d t).1.requests, r.state = requestIp := by
  induction rest generalizing done d t with
  | nil => exact hdone
  | cons req rest ih =>
    rw [drain] at hok ⊢
    by_cases hip : req.state = requestIp
    · rw [if_pos hip] at hok ⊢
      exact ih _ d t (mergeLast_states hdone hip) hok
    rw [if_neg hip] at hok ⊢
    simp only [if_true, Bool.false_eq_true, not_false_eq_true, or_true] at hok ⊢
    cases hw : ltfsFsrawWrite c.label c.drive .dp req.cache req.offset d t with
    | mk res t₁ =>
      cases res with
      | error e =>
        -- the error is remembered
        simp [hw, unifiedHandleWriteError, herr, hip] at hok
      | ok d₁ =>
        simp only [hw] at hok ⊢
        split_ifs at hok ⊢
        · exact ih _ d₁ t₁ (mergeLast_states hdone rfl) hok
        · exact ih done d₁ t₁ hdone hok

end States

/-- The rest of the list stays behind. -/
theorem inOrder_same (h : Same l m) (hm : InOrder m) (hord : InOrder (l ++ rest)) : InOrder (m ++ rest) := by
  obtain ⟨-, hrest, hacross⟩ := List.pairwise_append.1 hord
  refine List.pairwise_append.2 ⟨hm, hrest, fun a ha b hb => ?_⟩
  calc a.fin ≤ reach m := fin_le_reach ha
    _ = reach l := h.reach_eq
    _ ≤ b.offset := reach_le fun r hr => hacross r hr b hb

section Written

variable {raw raw' : Nat → UInt8} (hraw : raw' x = (req.byte x).getD (raw x))

include hraw

/-- A request that is on tape and stays in the list. -/
theorem view_kept {req' : WriteRequest} (hbyte : req'.byte x = req.byte x) :
    view raw' (done ++ req' :: rest) x = view raw (done ++ req :: rest) x := by
  rw [view, view, overlay_append, overlay_append, overlay_cons, overlay_cons, hbyte, hraw]
  cases overlay WriteRequest.byte done x with
  | some b => rfl
  | none =>
    cases req.byte x with
    | some b => rfl
    | none => rfl

/-- A request that is on tape and leaves the list. -/
theorem view_gone (hord : InOrder (done ++ req :: rest)) :
    view raw' (done ++ rest) x = view raw (done ++ req :: rest) x := by
  rw [view, view, overlay_append, overlay_append, overlay_cons, hraw]
  cases overlay WriteRequest.byte done x with
  | some b => rfl
  | none =>
    cases hb : req.byte x with
    | none => rfl
    | some b =>
      have hlt := (byte_bounds hb).2
      have hrest := (List.pairwise_cons.1 (List.pairwise_append.1 hord).2.1).1
      have hnone : overlay WriteRequest.byte rest x = none :=
        overlay_eq_none fun r hr => byte_of_lt (Nat.lt_of_lt_of_le hlt (hrest r hr))
      rw [hnone]
      rfl

end Written

theorem inOrder_state {state : RequestState} (h : InOrder (done ++ req :: rest)) :
    InOrder (done ++ { req with state := state } :: rest) := by
  obtain ⟨hdone, htail, hacross⟩ := List.pairwise_append.1 h
  obtain ⟨hreq, hrest⟩ := List.pairwise_cons.1 htail
  refine List.pairwise_append.2 ⟨hdone, List.pairwise_cons.2 ⟨hreq, hrest⟩, fun a ha => ?_⟩
  exact List.forall_mem_cons.2 ⟨hacross a ha req (by simp), fun b hb => hacross a ha b (by simp [hb])⟩

/-- The file after a flush, as it was before with the requests `l`. -/
structure Flushed (c : UnifiedData) (d : Contents) (t : Tape) (l : List WriteRequest) (m : List WriteRequest)
    (d' : Contents) (t' : Tape) : Prop where
  order : InOrder m
  sound : Sound c.label t'.store d'
  bytes : ∀ x, view (rawByte c.label t'.store d') m x = view (rawByte c.label t.store d) l x
  size : max d'.size (reach m) = max d.size (reach l)

theorem Flushed.congr {d d₁ d' : Contents} {t t₁ t' : Tape} {l₁ : List WriteRequest}
    (h : Flushed c d₁ t₁ l₁ m d' t')
    (hbytes : ∀ x, view (rawByte c.label t₁.store d₁) l₁ x = view (rawByte c.label t.store d) l x)
    (hsize : max d₁.size (reach l₁) = max d.size (reach l)) : Flushed c d t l m d' t' :=
  { h with
    bytes := fun x => (h.bytes x).trans (hbytes x)
    size := h.size.trans hsize }

theorem Same.view {raw : Nat → UInt8} (h : Same l m) (x : Nat) : view raw m x = view raw l x := by
  rw [ReadSpec.view, ReadSpec.view, h.bytes]

theorem drain_flushed {dpr : DentryPriv} (rest done held : List WriteRequest) (d : Contents) (t : Tape)
    (herr : dpr.writeError = none) (hs : Sound c.label t.store d) (hdone : ∀ r ∈ done, r.state = requestIp)
    (hord : InOrder (done ++ rest))
    (hok : (drain c false (fun _ => true) dpr rest done held d t).1.writeError = none) :
    Flushed c d t (done ++ rest) (drain c false (fun _ => true) dpr rest done held d t).1.requests
      (drain c false (fun _ => true) dpr rest done held d t).2.2.1
      (drain c false (fun _ => true) dpr rest done held d t).2.2.2 := by
  induction rest generalizing done d t with
  | nil =>
    rw [List.append_nil] at hord ⊢
    exact ⟨hord, hs, fun x => rfl, rfl⟩
  | cons req rest ih =>
    -- a request for the index partition joins those that are done
    have hjoin : ∀ (req' : WriteRequest) (d : Contents) (t : Tape), req'.state = requestIp →
        InOrder (done ++ req' :: rest) → Sound c.label t.store d →
        (drain c false (fun _ => true) dpr rest (mergeLast c done req') held d t).1.writeError = none →
        Flushed c d t (done ++ req' :: rest)
          (drain c false (fun _ => true) dpr rest (mergeLast c done req') held d t).1.requests
          (drain c false (fun _ => true) dpr rest (mergeLast c done req') held d t).2.2.1
          (drain c false (fun _ => true) dpr rest (mergeLast c done req') held d t).2.2.2 := by
      intro req' d t hip hord hs hok
      have hfront : InOrder (done ++ [req']) :=
        List.Pairwise.sublist (List.Sublist.append_left (by simp) done) hord
      rw [← List.singleton_append, ← List.append_assoc] at hord ⊢
      obtain ⟨hsame, hmo⟩ := mergeLast_same (c := c) hdone hip hfront
      have hboth := hsame.append (Same.refl rest)
      refine (ih _ d t hs (mergeLast_states hdone hip) (inOrder_same hsame hmo hord) hok).congr (fun x => hboth.view x) ?_
      rw [hboth.reach_eq]
    rw [drain] at hok ⊢
    by_cases hip : req.state = requestIp
    · rw [if_pos hip] at hok ⊢
      exact hjoin req d t hip hord hs hok
    rw [if_neg hip] at hok ⊢
    simp only [if_true, Bool.false_eq_true, not_false_eq_true, or_true] at hok ⊢
    cases hw : ltfsFsrawWrite c.label c.drive .dp req.cache req.offset d t with
    | mk res t₁ =>
      cases res with
      | error e =>
        -- the error is remembered
        simp [hw, unifiedHandleWriteError, herr, hip] at hok
      | ok d₁ =>
        simp only [hw] at hok ⊢
        obtain ⟨-, hs₁, hsize, hraw⟩ := ltfsFsrawWrite_ok hs hw
        have hfin : req.fin = req.offset + req.cache.length := rfl
        by_cases hwip : dpr.writeIp = true
        · rw [if_pos hwip] at hok ⊢
          refine (hjoin { req with state := requestIp } d₁ t₁ rfl (inOrder_state hord) hs₁ hok).congr
            (fun x => view_kept (hraw x) rfl) ?_
          have hfin' : WriteRequest.fin { req with state := requestIp } = req.fin := rfl
          rw [reach_append, reach_cons, reach_append, reach_cons, hfin', hsize]
          omega
        · rw [if_neg hwip] at hok ⊢
          have hrest : InOrder (done ++ rest) :=
            List.Pairwise.sublist (List.Sublist.append_left (List.sublist_cons_self req rest) done) hord
          refine (ih done d₁ t₁ hs₁ hdone hrest hok).congr (fun x => view_gone (hraw x) hord) ?_
          rw [reach_append, reach_append, reach_cons, hsize]
          omega

/-- What a flush without error did: there was nothing to write, or the walk over the requests met no error. -/
theorem unifiedFlushUnlocked_cases {file : File} (hok : (unifiedFlushUnlocked c file).1 = none) :
    (pending c file = [] ∧ pending c (unifiedFlushUnlocked c file).2 = [] ∧
      (unifiedFlushUnlocked c file).2.contents = file.contents ∧ (unifiedFlushUnlocked c file).2.tape = file.tape) ∨
    ∃ dpr, dpr.writeError = none ∧ dpr.requests = pending c file ∧
      (drain c false (fun _ => true) dpr dpr.requests [] [] file.contents file.tape).1.writeError = none ∧
      pending c (unifiedFlushUnlocked c file).2 =
        (drain c false (fun _ => true) dpr dpr.requests [] [] file.contents file.tape).1.requests ∧
      (unifiedFlushUnlocked c file).2.contents =
        (drain c false (fun _ => true) dpr dpr.requests [] [] file.contents file.tape).2.2.1 ∧
      (unifiedFlushUnlocked c file).2.tape =
        (drain c false (fun _ => true) dpr dpr.requests [] [] file.contents file.tape).2.2.2 := by
  cases hd : file.dpr with
  | none =>
    simp [unifiedFlushUnlocked, unifiedGetWriteError, hd, pending, unifiedGetDentryPriv]
  | some dpr =>
    cases herr : dpr.writeError with
    | some e => simp [unifiedFlushUnlocked, unifiedGetWriteError, hd, herr] at hok
    | none =>
      have hsame : { dpr with writeError := none } = dpr := by
        rw [← herr]
      by_cases hreq : dpr.requests = []
      · left
        simp [unifiedFlushUnlocked, unifiedGetWriteError, hd, herr, pending, unifiedGetDentryPriv, hreq]
      · right
        simp only [unifiedFlushUnlocked, unifiedGetWriteError, hd, herr, hreq, if_false, hsame] at hok ⊢
        exact ⟨dpr, herr, by simp [pending, unifiedGetDentryPriv, hd], hok, rfl, rfl, rfl⟩

theorem unifiedFlushUnlocked_states {file : File} (hok : (unifiedFlushUnlocked c file).1 = none) :
    ∀ r ∈ pending c (unifiedFlushUnlocked c file).2, r.state = requestIp := by
  obtain ⟨-, hnil, -, -⟩ | ⟨dpr, herr, -, hdrain, hpending, -, -⟩ := unifiedFlushUnlocked_cases hok
  · rw [hnil]
    exact fun r hr => nomatch hr
  · rw [hpending]
    exact drain_states _ _ _ _ _ herr (fun r hr => nomatch hr) hdrain

theorem unifiedFlushUnlocked_flushed {file : File} (hs : Sound c.label file.tape.store file.contents)
    (hord : InOrder (pending c file)) (hok : (unifiedFlushUnlocked c file).1 = none) :
    Flushed c file.contents file.tape (pending c file) (pending c (unifiedFlushUnlocked c file).2)
      (unifiedFlushUnlocked c file).2.contents (unifiedFlushUnlocked c file).2.tape := by
  obtain ⟨hbefore, hnil, hcontents, htape⟩ | ⟨dpr, herr, hreq, hdrain, hpending, hcontents, htape⟩ :=
    unifiedFlushUnlocked_cases hok
  · rw [hbefore, hnil, hcontents, htape]
    exact ⟨List.Pairwise.nil, hs, fun x => rfl, rfl⟩
  · rw [hpending, hcontents, htape, ← hreq]
    rw [← hreq] at hord
    exact drain_flushed dpr.requests [] [] _ _ herr hs (fun r hr => nomatch hr) hord hdrain

end Ltfs.FlushSpec
