import Ltfs.WriteVisit

namespace Ltfs.WriteStart

open Format Requests RequestState RequestSpec WriteCalls WriteClear WriteVisit

variable {cs stop : Nat} {full room : Option Nat} {offset : Nat} {w : Walk} {req s : WriteRequest}
  {l rest : List WriteRequest}

/-- The walk at the first request that the write reaches. The requests before it were passed over. -/
structure Start (cs : Nat) (w : Walk) (req : WriteRequest) (rest : List WriteRequest) : Prop where
  front : w.front = []
  prev : w.prev = none
  order : InOrder (w.between ++ req :: rest)
  fits : ∀ r ∈ w.between ++ req :: rest, Fits cs r
  before : ∀ p ∈ w.between, p.fin ≤ w.offset
  reached : w.offset ≤ req.fin

namespace Start

theorem passed (h : Start cs w req rest) : w.passed = w.between := by
  rw [Walk.passed, h.front, h.prev]
  rfl

theorem ordered (h : Start cs w req rest) : InOrder w.passed := by
  rw [h.passed]
  exact (List.pairwise_append.1 h.order).1

theorem rest_order (h : Start cs w req rest) : InOrder (req :: rest) :=
  (List.pairwise_append.1 h.order).2.1

theorem past (h : Start cs w req rest) : ∀ p ∈ w.passed, ∀ r ∈ req :: rest, p.fin ≤ r.offset := by
  rw [h.passed]
  exact (List.pairwise_append.1 h.order).2.2

theorem all_fits (h : Start cs w req rest) : ∀ r ∈ w.passed ++ req :: rest, Fits cs r := by
  rw [h.passed]
  exact h.fits

theorem fits_req (h : Start cs w req rest) : Fits cs req :=
  h.fits req (by simp)

theorem next_le (h : Start cs w req rest) : ∀ r ∈ rest, req.fin ≤ r.offset :=
  (List.pairwise_cons.1 h.rest_order).1

theorem past_rest (h : Start cs w req rest) : ∀ p ∈ w.passed, ∀ r ∈ rest, p.fin ≤ r.offset :=
  fun p hp r hr => h.past p hp r (List.mem_cons_of_mem _ hr)

end Start

/-- The write starts before the request. -/
theorem start_loop (h : Start cs w req rest) (hle : w.offset ≤ req.offset) : Loop cs w (req :: rest) := by
  have hnone : ∀ p, w.prev ≠ some p := by
    simp [h.prev]
  refine ⟨h.rest_order, h.all_fits, ?_, fun p hp => absurd hp (hnone p), fun hp => absurd h.prev hp, ?_, ?_,
    fun _ p hp => absurd hp (hnone p), fun p hp => absurd hp (hnone p), fun _ => ⟨h.front, fun r hr => ?_⟩⟩
  · rw [h.front, List.nil_append]
    exact (List.pairwise_append.1 h.order).2.2
  · intro _ _ p hp
    rw [h.passed] at hp
    exact h.before p hp
  · exact fun _ => h.before
  · exact Nat.le_trans hle (first_le h.rest_order r hr)

theorem landing_here {fuel limit : Nat} (h : limit ≤ offset) :
    landing cs stop limit fuel room offset = some (room, offset) := by
  cases fuel with
  | zero => rfl
  | succ fuel => rw [landing, if_pos (.inr h)]

theorem clearWrite_before (hle : w.offset ≤ req.offset) (hpos : 0 < req.count) (hbuf : w.buf ≠ []) :
    clearWrite cs (w.offset + w.buf.length) w.room w.offset (req :: rest) = ahead cs w req rest := by
  have hfin : req.fin = req.offset + req.count := rfl
  have hlen : 0 < w.buf.length := List.length_pos_iff.2 hbuf
  have hreach : w.offset ≤ req.fin := by omega
  rw [clearWrite, if_neg (Nat.not_lt.2 hreach)]
  by_cases hlt : w.offset < req.offset
  · have hcons := @clear_cons cs w req rest
    rw [decide_eq_true hreach, Bool.true_and] at hcons
    rw [if_pos hlt, ← hcons]
    rfl
  · have heq : w.offset = req.offset := by omega
    rw [if_neg hlt, ahead, landing_here (by omega)]
    dsimp only
    have hmore : ¬(w.offset + w.buf.length ≤ w.offset ∨ req.fin ≤ w.offset) := by omega
    rw [if_neg hmore]
    by_cases hip : req.state = requestIp
    · rw [if_neg (not_not.2 hip), if_pos hip, if_neg (by omega)]
    · rw [if_pos hip, if_neg hip, if_pos (.inl (by omega)), heq]

theorem insertBefore_here {fuel limit : Nat} (h : limit ≤ w.offset) : insertBefore cs limit fuel w = (w, false) := by
  cases fuel with
  | zero => rfl
  | succ fuel => rw [insertBefore, if_pos (.inr h)]

/-- A request that ends where the write starts becomes `prev_req`. -/
theorem settle_turn (h : Start cs w req rest) (hbuf : w.buf ≠ []) (hfits : Fits cs s) (hoffset : s.offset = req.offset)
    (hfin : s.fin = w.offset) {didMerge : Bool}
    (hstill : s.count = cs ∨ s.state = requestIp ∧
      ∀ r ∈ rest, s.fin ≤ r.offset ∧ (r.state = requestIp → s.fin ≠ r.offset)) :
    Turn cs True (clearFrom cs (w.offset + w.buf.length) w.room w.offset rest) rest.length
      (settle w s rest didMerge) := by
  obtain ⟨hfitsp, hfitsr⟩ := List.forall_mem_append.1 h.all_fits
  have hreached := h.reached
  have hle : ∀ p ∈ w.passed, p.fin ≤ s.offset := by
    intro p hp
    rw [hoffset]
    exact h.past p hp req List.mem_cons_self
  rw [settle, if_neg (fun hout => hbuf hout.1)]
  refine .on (loop_moveTo (List.pairwise_cons.1 h.rest_order).2 ?_ h.past_rest ?_ (Nat.le_of_eq hfin.symm)
    fun _ => ⟨hfin, hstill⟩) rfl ?_ rfl
  · exact List.forall_mem_append.2 ⟨hfitsp, List.forall_mem_cons.2 ⟨hfits, (List.forall_mem_cons.1 hfitsr).2⟩⟩
  · intro r hr
    have := h.next_le r hr
    have hs : s.offset ≤ s.fin := Nat.le_add_right _ _
    omega
  · rw [passed_moveTo, inOrder_concat hle]
    exact iff_true_intro h.ordered

/-- Two requests for the index partition adjoin where the write starts, and the first has room. -/
def Adjoins (cs : Nat) (req : WriteRequest) (rest : List WriteRequest) : Prop :=
  req.count < cs ∧ ∃ r ∈ rest, r.state = requestIp ∧ r.offset = req.fin

/-- A request for the index partition is split by a write inside it. -/
theorem split_turn (hcs : 0 < cs) (h : Start cs w req rest) (hbuf : w.buf ≠ []) (hlt : req.offset < w.offset)
    (hin : w.offset + w.buf.length < req.fin) :
    Turn cs True true rest.length
      (match takeRoom w.room with
      | none => (.restart, w.skip req, rest)
      | some room =>
        let copyOffset := w.offset - req.offset + w.buf.length
        let tail := newRequest cs (req.offset + copyOffset) (req.cache.drop copyOffset) true
        visit cs w.buf.length (({ w with room := room }.skip (req.upTo w.offset)).grow tail.fin) tail rest) := by
  have hlen : 0 < w.buf.length := List.length_pos_iff.2 hbuf
  obtain ⟨k, hk⟩ : ∃ k, w.buf.length = k + 1 := ⟨w.buf.length - 1, by omega⟩
  have hpassed := h.passed
  cases takeRoom w.room with
  | none =>
    have hlist : (w.skip req).passed ++ rest = w.between ++ req :: rest := by
      rw [passed_skip, hpassed, List.append_assoc, List.singleton_append]
    refine .off nofun ?_ ?_ rfl
    · rw [hlist]
      exact h.fits
    · rw [hlist]
      exact iff_true_intro h.order
  | some room =>
    dsimp only
    have hreq : req.fin = req.offset + req.count := rfl
    have hcache : req.cache.length = req.count := rfl
    have hfits := h.fits_req
    have hupTo : (req.upTo w.offset).fin = w.offset := fin_upTo (by omega) (by omega)
    generalize htail : newRequest cs (req.offset + (w.offset - req.offset + w.buf.length))
      (req.cache.drop (w.offset - req.offset + w.buf.length)) true = tail
    have hoffset : tail.offset = w.offset + w.buf.length := by
      rw [← htail]
      show req.offset + (w.offset - req.offset + w.buf.length) = _
      omega
    have hcount : tail.count = req.fin - tail.offset := by
      rw [hoffset, ← htail]
      simp only [WriteRequest.count, newRequest, List.length_take, List.length_drop]
      have := hfits.2
      omega
    have hfin : tail.fin = req.fin := by
      rw [WriteRequest.fin, hcount]
      omega
    have htailfits : Fits cs tail := by
      rw [Fits, hcount]
      have := hfits.2
      omega
    have hstart : Start cs (({ w with room := room }.skip (req.upTo w.offset)).grow tail.fin) tail rest := by
      obtain ⟨hb, hr, hbr⟩ := List.pairwise_append.1 h.order
      obtain ⟨hreqle, hrest⟩ := List.pairwise_cons.1 hr
      obtain ⟨hfitsb, hfitsr⟩ := List.forall_mem_append.1 h.fits
      have hbetween : (({ w with room := room }.skip (req.upTo w.offset)).grow tail.fin).between ++ tail :: rest =
          w.between ++ req.upTo w.offset :: tail :: rest := by
        simp [Walk.grow, Walk.skip]
      refine ⟨h.front, h.prev, ?_, ?_, ?_, ?_⟩
      · rw [hbetween]
        refine List.pairwise_append.2 ⟨hb, List.pairwise_cons.2 ⟨?_, List.pairwise_cons.2 ⟨?_, hrest⟩⟩, ?_⟩
        · refine List.forall_mem_cons.2 ⟨by omega, fun r hr => ?_⟩
          have := hreqle r hr
          omega
        · rw [hfin]
          exact hreqle
        · intro p hp
          obtain ⟨hpreq, hprest⟩ := List.forall_mem_cons.1 (hbr p hp)
          exact List.forall_mem_cons.2 ⟨hpreq, List.forall_mem_cons.2 ⟨by omega, hprest⟩⟩
      · rw [hbetween, List.forall_mem_append, List.forall_mem_cons, List.forall_mem_cons]
        exact ⟨hfitsb, hfits.upTo hlt, htailfits, (List.forall_mem_cons.1 hfitsr).2⟩
      · intro p hp
        obtain hp | hp := List.mem_append.1 hp
        · exact h.before p hp
        · rw [List.mem_singleton.1 hp, hupTo]
          exact Nat.le_refl _
      · show w.offset ≤ tail.fin
        omega
    have hturn := visit_before hcs (start_loop hstart (show w.offset ≤ tail.offset by omega))
      (show w.offset + w.buf.length ≤ tail.offset by omega) (k := k)
    rw [iff_true_intro hstart.ordered] at hturn
    rw [hk]
    exact hturn

/-- A write inside a request for the index partition, or at its end. -/
theorem visit_ip (hcs : 0 < cs) (h : Start cs w req rest) (hbuf : w.buf ≠ []) (hlt : req.offset < w.offset)
    (hip : req.state = requestIp) (hno : req.fin = w.offset → ¬Adjoins cs req rest) :
    Turn cs True
      (if req.fin = w.offset then clearFrom cs (w.offset + w.buf.length) w.room w.offset rest
      else decide (w.offset + w.buf.length < req.fin) ||
        clearFrom cs (w.offset + w.buf.length) w.room w.offset rest)
      rest.length (visit cs (w.buf.length + 1) w req rest) := by
  have hlen : 0 < w.buf.length := List.length_pos_iff.2 hbuf
  have hreached := h.reached
  have hhere : ¬w.offset < req.offset := by omega
  have hback : ¬w.offset = req.offset := by omega
  have hm : mergePrev cs w req rest = (w, some req, rest, false) := by
    rw [mergePrev, h.prev]
  rw [visit, insertBefore_here (Nat.le_of_lt hlt)]
  dsimp only
  rw [hm]
  dsimp only
  have hdp : ¬(req.state ≠ requestIp ∧ (w.offset < req.fin ∨ w.offset = req.fin ∧ req.count < cs)) :=
    fun hne => hne.1 hip
  rw [if_neg hbuf, if_neg hhere, if_neg hdp]
  by_cases hend : req.fin = w.offset
  · have hpast : ¬(req.state = requestIp ∧ w.offset < req.fin) := by omega
    rw [if_pos hend, if_neg hpast]
    apply settle_turn h hbuf h.fits_req rfl hend
    by_cases hfull : req.count = cs
    · exact .inl hfull
    · have hle := h.fits_req.2
      exact .inr ⟨hip, fun r hr => ⟨h.next_le r hr, fun hrip heq => hno hend ⟨by omega, r, hr, hrip, heq.symm⟩⟩⟩
  · have hinside : req.state = requestIp ∧ w.offset < req.fin := ⟨hip, by omega⟩
    rw [if_neg hend, if_pos hinside, if_neg (fun hall => hback hall.1), if_neg hback]
    have hupTo : (req.upTo w.offset).fin = w.offset := fin_upTo (by omega) hreached
    by_cases hcut : req.fin ≤ w.offset + w.buf.length
    · rw [if_pos hcut, decide_eq_false (Nat.not_lt.2 hcut), Bool.false_or]
      apply settle_turn h hbuf (h.fits_req.upTo hlt) rfl hupTo
      refine .inr ⟨hip, fun r hr => ?_⟩
      have := h.next_le r hr
      omega
    · rw [if_neg hcut, decide_eq_true (Nat.not_le.1 hcut), Bool.true_or]
      exact split_turn hcs h hbuf hlt (Nat.not_le.1 hcut)

theorem refills_of_not (h : ¬Adjoins cs req rest) : refills cs room req rest = false := by
  cases rest with
  | nil => rfl
  | cons r rest =>
    rw [refills, decide_eq_false_iff_not]
    rintro ⟨hip, hoffset, hcount, -, -⟩
    exact h ⟨hcount, r, List.mem_cons_self, hip, hoffset⟩

/-- The first request that the write reaches. -/
theorem visit_start (hcs : 0 < cs) (h : Start cs w req rest) (hbuf : w.buf ≠ [])
    (hno : req.state = requestIp → req.fin = w.offset → ¬Adjoins cs req rest) :
    Turn cs True (clearWrite cs (w.offset + w.buf.length) w.room w.offset (req :: rest)) rest.length
      (visit cs (w.buf.length + 1) w req rest) := by
  have hlen : 0 < w.buf.length := List.length_pos_iff.2 hbuf
  by_cases hbefore : w.offset ≤ req.offset
  · rw [clearWrite_before hbefore h.fits_req.1 hbuf, ← iff_true_intro h.ordered]
    exact visit_turn hcs (start_loop h hbefore) List.length_pos_iff.2
  rw [Nat.not_le] at hbefore
  rw [clearWrite, if_neg (Nat.not_lt.2 h.reached), if_neg (Nat.not_lt.2 (Nat.le_of_lt hbefore))]
  by_cases hip : req.state = requestIp
  · rw [if_neg (not_not.2 hip)]
    have hturn := visit_ip hcs h hbuf hbefore hip (hno hip)
    by_cases hend : req.fin = w.offset
    · have hrefill : refills cs w.room req rest = false := refills_of_not (hno hip hend)
      rw [if_pos hend] at hturn ⊢
      rw [hrefill, Bool.not_false, Bool.or_true, Bool.true_and]
      exact hturn
    · rw [if_neg hend] at hturn ⊢
      exact hturn
  · rw [if_pos hip]
    have hm : mergePrev cs w req rest = (w, some req, rest, false) := by
      rw [mergePrev, h.prev]
    rw [visit, insertBefore_here (Nat.le_of_lt hbefore)]
    dsimp only
    rw [hm]
    dsimp only
    have hhere : ¬w.offset < req.offset := Nat.not_lt.2 (Nat.le_of_lt hbefore)
    rw [if_neg hbuf, if_neg hhere]
    have hreached := h.reached
    by_cases hroom : w.offset < req.fin ∨ req.count < cs
    · have hdp : req.state ≠ requestIp ∧ (w.offset < req.fin ∨ w.offset = req.fin ∧ req.count < cs) :=
        ⟨hip, by omega⟩
      have hturn := update_turn h.rest_order h.all_fits h.past (Nat.le_of_lt hbefore) hreached
      rw [if_pos hroom, if_pos hdp]
      rw [iff_true_intro h.ordered] at hturn
      exact hturn
    · have hdp : ¬(req.state ≠ requestIp ∧ (w.offset < req.fin ∨ w.offset = req.fin ∧ req.count < cs)) := by omega
      rw [if_neg hroom, if_neg hdp, if_neg (fun hne => hip hne.1)]
      have hfull := h.fits_req.2
      exact settle_turn h hbuf h.fits_req rfl (by omega) (.inl (by omega))

end Ltfs.WriteStart
