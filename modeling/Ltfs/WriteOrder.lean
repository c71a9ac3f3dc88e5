import Ltfs.WriteRefill

namespace Ltfs.WriteOrder

open Format Requests RequestState RequestSpec WriteCalls WriteClear WriteVisit WriteStart WriteRefill

variable {cs stop : Nat} {room : Option Nat} {offset : Nat} {w : Walk} {req req' r : WriteRequest}
  {k l rest : List WriteRequest} {p : Pass}

/-- The invariant of a request list. -/
def Rep (cs : Nat) (l : List WriteRequest) : Prop :=
  InOrder l ∧ ∀ r ∈ l, Fits cs r

theorem clearWrite_skip (h : ∀ p ∈ k, p.fin < offset) :
    clearWrite cs stop room offset (k ++ l) = clearWrite cs stop room offset l := by
  induction k with
  | nil => rfl
  | cons p k ih =>
    obtain ⟨hp, hk⟩ := List.forall_mem_cons.1 h
    rw [List.cons_append, clearWrite, if_pos hp, ih hk]

theorem traverse_skip {fuel : Nat} (h : ∀ p ∈ k, p.fin < w.offset) :
    Requests.traverse cs (k.length + fuel) w (k ++ l) =
      Requests.traverse cs fuel { w with between := w.between ++ k } l := by
  induction k generalizing w with
  | nil => simp
  | cons p k ih =>
    obtain ⟨hp, hk⟩ := List.forall_mem_cons.1 h
    have hfuel : (p :: k).length + fuel = k.length + fuel + 1 := by
      rw [List.length_cons]
      omega
    have hrest := ih (w := w.skip p) hk
    rw [hfuel, List.cons_append, Requests.traverse, if_pos hp, hrest]
    simp [Walk.skip]

/-- The first request that does not end before `offset`. -/
theorem exists_reached (offset : Nat) (l : List WriteRequest) :
    (∀ r ∈ l, r.fin < offset) ∨
    ∃ k req rest, l = k ++ req :: rest ∧ (∀ p ∈ k, p.fin < offset) ∧ offset ≤ req.fin := by
  induction l with
  | nil => exact .inl nofun
  | cons r l ih =>
    by_cases hr : r.fin < offset
    · obtain hall | ⟨k, req, rest, rfl, hk, hreq⟩ := ih
      · exact .inl (List.forall_mem_cons.2 ⟨hr, hall⟩)
      · exact .inr ⟨r :: k, req, rest, rfl, List.forall_mem_cons.2 ⟨hr, hk⟩, hreq⟩
    · exact .inr ⟨[], r, l, rfl, nofun, Nat.not_lt.1 hr⟩

theorem lastOffset_le (h : InOrder l) (hr : r ∈ l) : r.fin ≤ lastOffset l := by
  rcases List.eq_nil_or_concat l with rfl | ⟨k, last, rfl⟩
  · exact absurd hr List.not_mem_nil
  · rw [List.concat_eq_append] at h hr ⊢
    rw [lastOffset_concat]
    obtain hr | hr := List.mem_append.1 hr
    · have := (List.pairwise_append.1 h).2.2 r hr last (List.mem_singleton_self _)
      have hfin : last.offset ≤ last.fin := Nat.le_add_right _ _
      omega
    · rw [List.mem_singleton.1 hr]

/-- The list after a pass, or a part of it, is in order if all went well. -/
structure Result (cs : Nat) (good : Prop) (p : Pass) : Prop where
  fits : ∀ r ∈ p.requests, Fits cs r
  order : InOrder p.requests ↔ good

theorem appendNew_result (hcs : 0 < cs) (fuel : Nat) (hfits : ∀ r ∈ p.requests, Fits cs r)
    (hlast : InOrder p.requests → ∀ r ∈ p.requests, r.fin ≤ p.offset) :
    Result cs (InOrder p.requests) (appendNew cs fuel p) := by
  induction fuel generalizing p with
  | zero => exact ⟨hfits, Iff.rfl⟩
  | succ fuel ih =>
    rw [appendNew]
    split_ifs with hbuf
    · exact ⟨hfits, Iff.rfl⟩
    · cases takeRoom p.room with
      | none => exact ⟨hfits, Iff.rfl⟩
      | some room =>
        have hlen : 0 < p.buf.length := List.length_pos_iff.2 hbuf
        have hcount : (newRequest cs p.offset p.buf false).count = min cs p.buf.length := by
          simp [newRequest, WriteRequest.count]
        have hsame : InOrder (p.requests ++ [newRequest cs p.offset p.buf false]) ↔ InOrder p.requests :=
          inOrder_concat_iff hlast
        have hnew : (newRequest cs p.offset p.buf false).fin = p.offset + min cs p.buf.length := by
          rw [WriteRequest.fin, hcount]
          rfl
        have hresult := ih (p := ⟨p.requests ++ [newRequest cs p.offset p.buf false],
          max p.fileSize (newRequest cs p.offset p.buf false).fin,
          p.offset + (newRequest cs p.offset p.buf false).count,
          p.buf.drop (newRequest cs p.offset p.buf false).count, room⟩) ?_ ?_
        · exact ⟨hresult.fits, hresult.order.trans hsame⟩
        · refine List.forall_mem_append.2 ⟨hfits, List.forall_mem_singleton.2 ?_⟩
          rw [Fits, hcount]
          omega
        · intro hord r hr
          show r.fin ≤ p.offset + (newRequest cs p.offset p.buf false).count
          rw [hcount]
          obtain hr | hr := List.mem_append.1 hr
          · exact Nat.le_trans (hlast (hsame.1 hord) r hr) (Nat.le_add_right _ _)
          · rw [List.mem_singleton.1 hr, hnew]

theorem appendLast_result (hfits : ∀ r ∈ p.requests, Fits cs r) (hlast : lastOffset p.requests ≤ p.offset) :
    Result cs (InOrder p.requests) (appendLast cs p) ∧
    (InOrder p.requests → ∀ r ∈ (appendLast cs p).requests, r.fin ≤ (appendLast cs p).offset) := by
  rw [appendLast]
  cases hreq : p.requests.getLast? with
  | none =>
    refine ⟨⟨hfits, Iff.rfl⟩, fun hord r hr => Nat.le_trans (lastOffset_le hord hr) hlast⟩
  | some req =>
    dsimp only
    split_ifs with hroom
    · have hlist : p.requests.dropLast ++ [req] = p.requests := List.dropLast_append_getLast? req hreq
      have hfin : req.offset ≤ req.fin := Nat.le_add_right _ _
      have hu := @updateRequest_updated cs req p.offset p.buf (by omega) (by omega)
      generalize updateRequest cs req p.offset p.buf = u at hu ⊢
      obtain ⟨s, n, full⟩ := u
      dsimp only at hu ⊢
      generalize p.requests.dropLast = k at hlist ⊢
      rw [← hlist, List.forall_mem_append, List.forall_mem_singleton] at hfits
      have hsfin := hu.fin_eq
      have hsame : InOrder (promote full k ++ [s]) ↔ InOrder p.requests := by
        rw [← hlist, InOrder, InOrder, List.pairwise_append, List.pairwise_append]
        refine and_congr inOrder_promote (and_congr (by simp) ?_)
        rw [forall_mem_promote]
        simp [hu.offset_eq]
      refine ⟨⟨?_, hsame⟩, fun hord => ?_⟩
      · rw [List.forall_mem_append, forall_mem_promote, List.forall_mem_singleton]
        exact ⟨fun r hr => fits_promoteOne.2 (hfits.1 r hr), hu.fits hfits.2 (by omega)⟩
      · intro r hr
        have hle := lastOffset_le (hsame.2 hord) hr
        rw [lastOffset_concat] at hle
        omega
    · exact ⟨⟨hfits, Iff.rfl⟩, fun hord r hr => Nat.le_trans (lastOffset_le hord hr) hlast⟩

/-- What is left of the write goes behind the last request. -/
theorem append_result (hcs : 0 < cs) {fuel : Nat} (hfits : ∀ r ∈ p.requests, Fits cs r)
    (hlast : lastOffset p.requests ≤ p.offset) : Result cs (InOrder p.requests) (doAppend cs (fuel + 1) p) := by
  obtain ⟨⟨hfits', hsame⟩, hbehind⟩ := appendLast_result hfits hlast
  rw [doAppend, if_pos hlast]
  have hresult := appendNew_result hcs (appendLast cs p).buf.length hfits' (fun hord => hbehind (hsame.1 hord))
  exact ⟨hresult.fits, hresult.order.trans hsame⟩

/-- What a pass works on after its loop over the requests. -/
def passOf (v : Flow × Walk × List WriteRequest) : Pass :=
  ⟨v.2.1.passed ++ v.2.2, v.2.1.fileSize, v.2.1.offset, v.2.1.buf, v.2.1.room⟩

theorem doAppend_traverse {fuel : Nat} (hlast : ¬lastOffset p.requests ≤ p.offset) :
    doAppend cs (fuel + 1) p =
      let v := Requests.traverse cs p.requests.length ⟨[], none, [], p.fileSize, p.offset, p.buf, p.room⟩ p.requests
      if v.1 = .next ∧ v.2.1.buf ≠ [] then doAppend cs fuel (passOf v) else passOf v := by
  rw [doAppend, if_neg hlast]
  rfl

theorem done_result (hcs : 0 < cs) {fuel : Nat} {good : Prop} {v : Flow × Walk × List WriteRequest}
    (h : Done cs good v) :
    Result cs good (if v.1 = .next ∧ v.2.1.buf ≠ [] then doAppend cs (fuel + 1) (passOf v) else passOf v) := by
  split_ifs with hmore
  · obtain ⟨hnil, hlast⟩ := h.next hmore.1
    have hbehind : lastOffset (passOf v).requests ≤ (passOf v).offset := by
      rw [passOf, hnil, List.append_nil]
      exact hlast hmore.2
    have hresult : Result cs _ (doAppend cs (fuel + 1) (passOf v)) := append_result hcs h.fits hbehind
    exact ⟨hresult.fits, hresult.order.trans h.order⟩
  · exact ⟨h.fits, h.order⟩

theorem Rep.append_left (h : Rep cs (k ++ l)) : Rep cs k :=
  ⟨(List.pairwise_append.1 h.1).1, fun r hr => h.2 r (List.mem_append_left _ hr)⟩

/-- The walk at the first request that a write reaches. -/
def startAt (p : Pass) (k : List WriteRequest) : Walk :=
  ⟨[], none, k, p.fileSize, p.offset, p.buf, p.room⟩

theorem startAt_start (h : Rep cs (k ++ req :: rest)) (hk : ∀ r ∈ k, r.fin < p.offset) (hreq : p.offset ≤ req.fin) :
    Start cs (startAt p k) req rest :=
  ⟨rfl, rfl, h.1, h.2, fun r hr => Nat.le_of_lt (hk r hr), hreq⟩

theorem traverse_startAt (hk : ∀ r ∈ k, r.fin < p.offset) :
    Requests.traverse cs (k ++ req :: rest).length ⟨[], none, [], p.fileSize, p.offset, p.buf, p.room⟩
      (k ++ req :: rest) = Requests.traverse cs (rest.length + 1) (startAt p k) (req :: rest) := by
  rw [List.length_append, List.length_cons]
  exact traverse_skip hk

theorem not_append (hreq : p.offset < req.fin) (h : Rep cs (k ++ req :: rest)) :
    ¬lastOffset (k ++ req :: rest) ≤ p.offset := by
  have := lastOffset_le h.1 (show req ∈ k ++ req :: rest by simp)
  omega

/-- A pass in which no request takes bytes of another one. -/
theorem plain_result (hcs : 0 < cs) {fuel : Nat} (hl : p.requests = k ++ req :: rest) (h : Rep cs p.requests)
    (hk : ∀ r ∈ k, r.fin < p.offset) (hreq : p.offset ≤ req.fin) (hbuf : p.buf ≠ [])
    (hlast : ¬lastOffset p.requests ≤ p.offset)
    (hno : req.state = requestIp → req.fin = p.offset → ¬Adjoins cs req rest) :
    Result cs (clearWrite cs (p.offset + p.buf.length) p.room p.offset p.requests = true)
      (doAppend cs (fuel + 2) p) := by
  rw [hl] at h
  have hstart : Start cs (startAt p k) req rest := startAt_start h hk hreq
  have hturn := visit_start hcs hstart hbuf hno
  have hdone := turn_done (Nat.le_refl _) (fun hloop => traverse_loop hcs hloop) hturn
  rw [doAppend_traverse hlast, hl, traverse_startAt hk, clearWrite_skip hk, traverse_cons hstart.reached]
  rw [true_and] at hdone
  exact done_result hcs hdone

/-- Nothing is written. -/
theorem traverse_nothing (h : Start cs w req rest) (hbuf : w.buf = []) {fuel : Nat} :
    Requests.traverse cs (fuel + 1) w (req :: rest) = (.out, w.moveTo req, rest) := by
  have hm : mergePrev cs w req rest = (w, some req, rest, false) := by
    rw [mergePrev, h.prev]
  have hins : insertBefore cs req.offset w.buf.length w = (w, false) := by
    rw [hbuf]
    rfl
  rw [traverse_cons h.reached, visit, hins]
  dsimp only
  rw [hm]
  dsimp only
  rw [if_pos hbuf, settle, if_pos ⟨hbuf, rfl⟩]
  rfl

theorem clearWrite_nothing (h : Rep cs (req :: rest)) (hreq : offset ≤ req.fin) (hstop : stop ≤ offset) :
    clearWrite cs stop room offset (req :: rest) = true := by
  have hnext := fin_le h.1 hreq
  have hfits := h.2 req List.mem_cons_self
  have hfin : req.fin = req.offset + req.count := rfl
  have hdone : clearFrom cs stop room offset rest = true := clearFrom_done hstop hnext
  rw [clearWrite, if_neg (Nat.not_lt.2 hreq)]
  split_ifs
  · exact clearFrom_done hstop (List.forall_mem_cons.2 ⟨hreq, hnext⟩)
  · have hcount := hfits.2
    rw [Nat.min_eq_left (by omega)]
    exact clearFrom_done (Nat.le_refl _) fun r hr => Nat.le_trans hstop (hnext r hr)
  · exact hdone
  · rw [decide_eq_true hstop, Bool.true_or, hdone]
    rfl
  · rw [hdone, Bool.or_true]

theorem clearWrite_append (h : Rep cs l) (hlast : lastOffset l ≤ offset) :
    clearWrite cs stop room offset l = true := by
  obtain hall | ⟨k, req, rest, rfl, hk, hreq⟩ := exists_reached offset l
  · have hskip := @clearWrite_skip cs stop room offset l [] hall
    rw [List.append_nil] at hskip
    rw [hskip]
    rfl
  · have hrest : rest = [] := by
      cases rest with
      | nil => rfl
      | cons r rest =>
        have hr := lastOffset_le h.1 (show r ∈ k ++ req :: r :: rest by simp)
        have hle : req.fin ≤ r.offset :=
          (List.pairwise_cons.1 (List.pairwise_append.1 h.1).2.1).1 r List.mem_cons_self
        have hpos : 0 < r.count := (h.2 r (by simp)).1
        have hfin : r.fin = r.offset + r.count := rfl
        omega
    subst hrest
    have hend : req.fin = offset := by
      have := lastOffset_le h.1 (show req ∈ k ++ [req] by simp)
      omega
    have hpos : 0 < req.count := (h.2 req (by simp)).1
    have hfin : req.fin = req.offset + req.count := rfl
    rw [clearWrite_skip hk, clearWrite, if_neg (Nat.not_lt.2 hreq), if_neg (by omega), if_pos hend]
    split_ifs <;> simp [clearFrom, refills]

/-- A request for the index partition that the write starts in or behind, and nothing after it. -/
theorem clearFrom_full (hstop : ¬stop ≤ offset) (h : ∀ r ∈ l, offset < r.offset) :
    clearFrom cs stop (some 0) offset l = true := by
  cases l with
  | nil => rfl
  | cons r l =>
    have hr := h r List.mem_cons_self
    have hfin : r.offset ≤ r.fin := Nat.le_add_right _ _
    obtain ⟨n, hn⟩ : ∃ n, stop - offset = n + 1 := ⟨stop - offset - 1, by omega⟩
    have hmore : ¬(stop ≤ offset ∨ r.offset ≤ offset) := by omega
    rw [clearFrom, decide_eq_true (by omega), hn, landing, if_neg hmore]
    rfl

/-- Where two requests for the index partition adjoin, the condition is that no new request is put in. -/
theorem clearWrite_refill (h : Refill cs w req req' rest) :
    clearWrite cs (w.offset + w.buf.length) w.room w.offset (req :: req' :: rest) = true ↔
      w.room = some 0 ∨ req.count + req'.count ≤ cs ∧ rest = [] := by
  have hlen : 0 < w.buf.length := List.length_pos_iff.2 h.buf
  have hlt := h.lt
  have hfin := h.fin
  have hadj := h.offset
  have hpos := h.fits'.1
  have hfin' : req'.fin = req'.offset + req'.count := rfl
  obtain ⟨-, hnext⟩ := List.pairwise_cons.1 h.start.rest_order
  have hnext := (List.pairwise_cons.1 hnext).1
  have hstop : ¬w.offset + w.buf.length ≤ w.offset := by omega
  rw [clearWrite, if_neg (by omega), if_neg (by omega), if_neg (not_not.2 h.ip), if_pos hfin, decide_eq_false hstop,
    Bool.false_or, refills]
  have hroom := h.room
  have hgoes : w.room = some 0 ∨ rest = [] →
      clearFrom cs (w.offset + w.buf.length) w.room w.offset (req' :: rest) = true := by
    intro hcase
    have hreach : w.offset ≤ req'.fin := by omega
    have hmore : ¬(w.offset + w.buf.length ≤ w.offset ∨ req'.fin ≤ w.offset) := by omega
    have hrest : clearFrom cs (w.offset + w.buf.length) w.room w.offset rest = true := by
      obtain hfull | hnil := hcase
      · rw [hfull]
        apply clearFrom_full hstop
        intro r hr
        have := hnext r hr
        omega
      · rw [hnil]
        rfl
    rw [clearFrom, decide_eq_true hreach, landing_here (by omega)]
    dsimp only
    rw [if_neg hmore, if_pos h.ip', hrest, Bool.or_true]
    rfl
  simp only [h.ip', hadj, hroom, true_and, Bool.and_eq_true, Bool.not_eq_true', decide_eq_false_iff_not]
  constructor
  · rintro ⟨hno, -⟩
    by_cases hfull : w.room = some 0
    · exact .inl hfull
    · refine .inr ⟨?_, ?_⟩
      · by_contra hcount
        exact hno ⟨hfull, .inl (by omega)⟩
      · by_contra hrest
        exact hno ⟨hfull, .inr hrest⟩
  · rintro (hfull | ⟨hcount, hrest⟩)
    · exact ⟨fun hno => hno.1 hfull, hgoes (.inl hfull)⟩
    · refine ⟨fun hno => ?_, hgoes (.inr hrest)⟩
      obtain hlt | hne := hno.2
      · omega
      · exact hne hrest

/-- A pass that starts where two requests for the index partition adjoin. -/
theorem refill_result (hcs : 0 < cs) {fuel : Nat} (hl : p.requests = k ++ req :: req' :: rest)
    (h : Refill cs (startAt p k) req req' rest) (hk : ∀ r ∈ k, r.fin < p.offset)
    (hlast : ¬lastOffset p.requests ≤ p.offset) :
    Result cs (clearWrite cs (p.offset + p.buf.length) p.room p.offset p.requests = true)
      (doAppend cs (fuel + 3) p) := by
  have hclear : clearWrite cs (p.offset + p.buf.length) p.room p.offset p.requests = true ↔
      p.room = some 0 ∨ req.count + req'.count ≤ cs ∧ rest = [] := by
    rw [hl, clearWrite_skip hk]
    exact clearWrite_refill h
  have hgo := refill_traverse hcs h (Nat.le_refl _)
  rw [doAppend_traverse hlast, hclear, hl, traverse_startAt hk, List.length_cons]
  split_ifs at hgo with hgone
  · obtain ⟨n, hgo⟩ := hgo
    obtain ⟨hord, hfits, hover⟩ := h.joint_order
    have hswallow := h.swallowed.2 hgone.1
    rw [hswallow, hgone.2, Option.toList_none, List.nil_append] at hord hfits
    have hpassed : (startAt p k).passed = k := h.start.passed
    rw [hpassed] at hord hfits
    obtain ⟨hspec, -, -⟩ := h.joint_spec
    have hjip : (joint cs req req').state = requestIp := hspec.ip.2 h.ip
    have hjoffset : (joint cs req req').offset < p.offset := Nat.lt_of_le_of_lt (Nat.le_of_eq hspec.offset_eq) h.lt
    have hover' : p.offset < (joint cs req req').fin := hover
    generalize joint cs req req' = j at hgo hord hfits hjip hjoffset hover'
    have hpass : (passOf (.next, ((startAt p k).moveTo j).grow n, [])).requests = k ++ [j] := by
      rw [passOf, List.append_nil, passed_grow, passed_moveTo, hpassed]
    have hrep : Rep cs (k ++ [j]) := ⟨hord, hfits⟩
    have hplain : Result cs _ (doAppend cs (fuel + 2) (passOf (.next, ((startAt p k).moveTo j).grow n, []))) :=
      plain_result hcs hpass (hpass ▸ hrep) hk (Nat.le_of_lt hover') h.buf (hpass ▸ not_append hover' hrep)
        fun _ heq => absurd heq (Nat.ne_of_gt hover')
    have hgood : clearWrite cs (p.offset + p.buf.length) p.room p.offset (k ++ [j]) = true := by
      rw [clearWrite_skip hk, clearWrite, if_neg (Nat.not_lt.2 (Nat.le_of_lt hover')),
        if_neg (Nat.not_lt.2 (Nat.le_of_lt hjoffset)), if_neg (not_not.2 hjip), if_neg (Nat.ne_of_gt hover')]
      exact Bool.or_true _
    rw [hpass] at hplain
    rw [hgo]
    dsimp only
    rw [if_pos ⟨rfl, h.buf⟩]
    exact ⟨hplain.fits, hplain.order.trans (iff_of_true hgood (.inr hgone))⟩
  · rw [or_iff_left hgone]
    exact done_result hcs hgo

theorem lastOffset_of_forall (h : ∀ r ∈ l, r.fin < offset) : lastOffset l ≤ offset := by
  rcases List.eq_nil_or_concat l with rfl | ⟨k, last, rfl⟩
  · exact Nat.zero_le _
  · rw [List.concat_eq_append] at h ⊢
    rw [lastOffset_concat]
    exact Nat.le_of_lt (h last (by simp))

theorem writePass_result (hcs : 0 < cs) (h : Rep cs p.requests) :
    Result cs (clearWrite cs (p.offset + p.buf.length) p.room p.offset p.requests = true) (writePass cs p) := by
  rw [writePass]
  by_cases hlast : lastOffset p.requests ≤ p.offset
  · have hresult : Result cs _ (doAppend cs (p.requests.length + p.buf.length + 1) p) := append_result hcs h.2 hlast
    exact ⟨hresult.fits, hresult.order.trans (iff_of_true h.1 (clearWrite_append h hlast))⟩
  obtain hall | ⟨k, req, rest, hl, hk, hreq⟩ := exists_reached p.offset p.requests
  · exact absurd (lastOffset_of_forall hall) hlast
  have hstart : Start cs (startAt p k) req rest := startAt_start (hl ▸ h) hk hreq
  have hcount : p.requests.length = k.length + (rest.length + 1) := by
    rw [hl, List.length_append, List.length_cons]
  by_cases hbuf : p.buf = []
  · rw [doAppend_traverse hlast, hl, traverse_startAt hk, traverse_nothing hstart hbuf]
    have hpass : (passOf (.out, (startAt p k).moveTo req, rest)).requests = k ++ req :: rest := by
      rw [passOf, passed_moveTo, hstart.passed, List.append_assoc]
      rfl
    have hclear : clearWrite cs (p.offset + p.buf.length) p.room p.offset (k ++ req :: rest) = true := by
      have hrest : Rep cs (req :: rest) := ⟨hstart.rest_order, fun r hr => hstart.fits r (List.mem_append_right _ hr)⟩
      rw [hbuf, clearWrite_skip hk]
      exact clearWrite_nothing hrest hreq (Nat.le_refl _)
    rw [hl] at h
    dsimp only
    rw [if_neg (fun hnext => nomatch hnext.1)]
    refine ⟨?_, ?_⟩
    · rw [hpass]
      exact h.2
    · rw [hpass]
      exact iff_of_true h.1 hclear
  have hlen : 0 < p.buf.length := List.length_pos_iff.2 hbuf
  by_cases hno : req.state = requestIp → req.fin = p.offset → ¬Adjoins cs req rest
  · obtain ⟨n, hn⟩ : ∃ n, p.requests.length + p.buf.length + 1 = n + 2 := ⟨k.length + rest.length + p.buf.length, by omega⟩
    rw [hn]
    exact plain_result hcs hl h hk hreq hbuf hlast hno
  · simp only [not_forall, not_not] at hno
    obtain ⟨hip, hend, hroom, r, hr, hrip, hradj⟩ := hno
    cases rest with
    | nil => exact absurd hr List.not_mem_nil
    | cons req' rest =>
      have hrefill : Refill cs (startAt p k) req req' rest := by
        obtain rfl | hr := List.mem_cons.1 hr
        · exact ⟨hstart, hbuf, hend, hradj, hip, hrip, hroom⟩
        · obtain ⟨hnext, hord⟩ := List.pairwise_cons.1 hstart.rest_order
          have hle := hnext req' List.mem_cons_self
          have hpast := (List.pairwise_cons.1 hord).1 r hr
          have hpos : 0 < req'.count := (hstart.fits req' (by simp)).1
          have hfin : req'.fin = req'.offset + req'.count := rfl
          omega
      obtain ⟨n, hn⟩ : ∃ n, p.requests.length + p.buf.length + 1 = n + 3 :=
        ⟨p.requests.length + p.buf.length - 2, by rw [List.length_cons] at hcount; omega⟩
      rw [hn]
      exact refill_result hcs hl hrefill hk hlast

/-- A pass of `unified_write` keeps the list in order exactly when the write is clear of the requests behind it. -/
theorem writePass_rep (hcs : 0 < cs) (h : Rep cs p.requests) : Rep cs (writePass cs p).requests ↔
    clearWrite cs (p.offset + p.buf.length) p.room p.offset p.requests = true := by
  have hresult := writePass_result hcs h
  exact (and_iff_left hresult.fits).trans hresult.order

end Ltfs.WriteOrder
