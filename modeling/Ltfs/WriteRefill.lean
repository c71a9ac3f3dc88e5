import Ltfs.WriteStart

namespace Ltfs.WriteRefill

open Format Requests RequestState RequestSpec WriteCalls WriteClear WriteVisit WriteStart

variable {cs stop : Nat} {room : Option Nat} {offset : Nat} {w : Walk} {req req' r : WriteRequest}
  {l rest : List WriteRequest}

theorem insertBefore_fuel (hcs : 0 < cs) {limit fuel fuel' : Nat} (h : w.buf.length ≤ fuel) (h' : w.buf.length ≤ fuel') :
    insertBefore cs limit fuel w = insertBefore cs limit fuel' w := by
  induction fuel generalizing w fuel' with
  | zero =>
    have hnil : w.buf = [] := List.length_eq_zero_iff.1 (Nat.le_zero.1 h)
    cases fuel' with
    | zero => rfl
    | succ fuel' => rw [insertBefore, insertBefore, if_pos (.inl hnil)]
  | succ fuel ih =>
    cases fuel' with
    | zero =>
      have hnil : w.buf = [] := List.length_eq_zero_iff.1 (Nat.le_zero.1 h')
      rw [insertBefore, insertBefore, if_pos (.inl hnil)]
    | succ fuel' =>
      rw [insertBefore, insertBefore]
      split_ifs with hend
      · rfl
      · cases takeRoom w.room with
        | none => rfl
        | some room =>
          rw [not_or] at hend
          have hlen : 0 < w.buf.length := List.length_pos_iff.2 hend.1
          apply ih
          · show (putIn cs w room).buf.length ≤ fuel
            rw [putIn_buf, List.length_drop]
            omega
          · show (putIn cs w room).buf.length ≤ fuel'
            rw [putIn_buf, List.length_drop]
            omega

theorem insertBefore_putIn (hcs : 0 < cs) {limit : Nat} (hbuf : w.buf ≠ []) (hlt : w.offset < limit)
    (hroom : takeRoom w.room = some room) :
    insertBefore cs limit w.buf.length w =
      insertBefore cs limit (putIn cs w room).buf.length (putIn cs w room) := by
  have hlen : 0 < w.buf.length := List.length_pos_iff.2 hbuf
  obtain ⟨k, hk⟩ : ∃ k, w.buf.length = k + 1 := ⟨w.buf.length - 1, by omega⟩
  have hend : ¬(w.buf = [] ∨ limit ≤ w.offset) := by
    rw [not_or, Nat.not_le]
    exact ⟨hbuf, hlt⟩
  rw [hk, insertBefore, if_neg hend, hroom]
  apply insertBefore_fuel hcs
  · show (putIn cs w room).buf.length ≤ k
    rw [putIn_buf, List.length_drop]
    omega
  · exact Nat.le_refl _

theorem takeRoom_eq_none : takeRoom room = none ↔ room = some 0 := by
  rcases room with _ | _ | n <;> simp [takeRoom]

/-- What was passed reaches over the write offset, so that the next new request overlaps it. If there is a cache
block for one, the requests are no longer in order. -/
theorem squeeze_done (hcs : 0 < cs) (hord : InOrder (w.passed ++ req :: rest))
    (hfits : ∀ r ∈ w.passed ++ req :: rest, Fits cs r) (hover : ∃ p ∈ w.passed, w.offset < p.fin) (hbuf : w.buf ≠ [])
    (hlt : w.offset < req.offset) {k fuel : Nat} (hk : w.buf.length ≤ k + 1) (hfuel : rest.length ≤ fuel) :
    Done cs (w.room = some 0) (resume cs fuel (visit cs (k + 1) w req rest)) := by
  obtain ⟨hpassed, hreq, hpast⟩ := List.pairwise_append.1 hord
  have hlen : 0 < w.buf.length := List.length_pos_iff.2 hbuf
  cases hroom : takeRoom w.room with
  | none =>
    have hins : insertBefore cs req.offset w.buf.length w = (w, true) := by
      obtain ⟨k, hk⟩ : ∃ k, w.buf.length = k + 1 := ⟨w.buf.length - 1, by omega⟩
      have hend : ¬(w.buf = [] ∨ req.offset ≤ w.offset) := by
        rw [not_or, Nat.not_le]
        exact ⟨hbuf, hlt⟩
      rw [hk, insertBefore, if_neg hend, hroom]
    have hlist : (w.skip req).passed ++ rest = w.passed ++ req :: rest := by
      rw [passed_skip, List.append_assoc, List.singleton_append]
    rw [visit, hins]
    refine ⟨?_, ?_, by rintro ⟨⟩⟩
    · show ∀ r ∈ (w.skip req).passed ++ rest, Fits cs r
      rwa [hlist]
    · show InOrder ((w.skip req).passed ++ rest) ↔ _
      rw [hlist]
      exact iff_of_true hord (takeRoom_eq_none.1 hroom)
  | some room =>
    have hloop : Loop cs (putIn cs w room) (req :: rest) := putIn_loop hcs hreq hfits hpast hbuf hlt
    have hpos : (putIn cs w room).buf ≠ [] → 0 < k := by
      intro hbuf'
      rw [putIn_buf, Ne, List.drop_eq_nil_iff] at hbuf'
      omega
    have hturn := visit_turn hcs hloop hpos
    have hsame : visit cs (k + 1) w req rest = visit cs (k + 1) (putIn cs w room) req rest := by
      rw [visit, visit, insertBefore_putIn hcs hbuf hlt hroom]
    have hdone := turn_done hfuel (fun h => traverse_loop hcs h) hturn
    have hnot : ¬InOrder (putIn cs w room).passed := by
      rw [putIn_passed]
      intro h
      obtain ⟨p, hp, hlt⟩ := hover
      exact absurd ((List.pairwise_append.1 h).2.2 p hp _ (List.mem_singleton_self _)) (Nat.not_le.2 hlt)
    rw [hsame]
    refine ⟨hdone.fits, hdone.order.trans (iff_of_false (fun h => hnot h.1) fun h => ?_), hdone.next⟩
    rw [takeRoom_eq_none.2 h] at hroom
    cases hroom

/-- A request for the index partition takes bytes of the one that adjoins it, as far as its cache block reaches. -/
theorem merge_refills (hip : req.state = requestIp) (hip' : req'.state = requestIp) (hadj : req'.offset = req.fin)
    (hcount : req.count < cs) (hpos : 0 < req'.count) :
    (mergeRequests cs req req').full = none ∧
    (mergeRequests cs req req').dest.fin = min (req.offset + cs) req'.fin := by
  have hfin : req.fin = req.offset + req.count := rfl
  have hfin' : req'.fin = req'.offset + req'.count := rfl
  have hlen : req'.cache.length = req'.count := rfl
  have hnear : ¬req.fin < req'.offset := by omega
  have hstate : ¬(req.state ≠ req'.state ∧ (req.state = requestIp ∨ req'.state = requestIp)) :=
    fun h => h.1 (hip.trans hip'.symm)
  have hroom : req.count < cs ∧ req.fin - req'.offset < req'.count := by omega
  have hu := @updateRequest_updated cs req (req'.offset + (req.fin - req'.offset))
    (req'.cache.drop (req.fin - req'.offset)) (by omega) (by omega)
  simp only [mergeRequests]
  rw [if_neg hnear, if_neg hstate, if_pos hroom]
  generalize updateRequest cs req (req'.offset + (req.fin - req'.offset)) (req'.cache.drop (req.fin - req'.offset)) = u
    at hu ⊢
  obtain ⟨dest, n, full⟩ := u
  obtain ⟨hdest, hfull⟩ := CallSpec.trimSource_dest dest (promoteOne full req') full dest.fin (req.fin - req'.offset + n)
  refine ⟨hfull.trans (hu.quiet hip), ?_⟩
  have htaken := hu.taken
  rw [List.length_drop] at htaken
  rw [hdest, hu.fin_eq]
  omega

/-- Two neighbours of a list in order are merged. -/
theorem merge_order (hord : InOrder (l ++ req :: req' :: rest)) (hfits : ∀ r ∈ l ++ req :: req' :: rest, Fits cs r) :
    InOrder (l ++ (mergeRequests cs req req').dest :: ((mergeRequests cs req req').src.toList ++ rest)) ∧
    ∀ r ∈ l ++ (mergeRequests cs req req').dest :: ((mergeRequests cs req req').src.toList ++ rest), Fits cs r := by
  obtain ⟨hl, hr, hlr⟩ := List.pairwise_append.1 hord
  obtain ⟨hreq, hr'⟩ := List.pairwise_cons.1 hr
  obtain ⟨hnext, hrest⟩ := List.pairwise_cons.1 hr'
  obtain ⟨hfitsl, hfitsr⟩ := List.forall_mem_append.1 hfits
  have hle : req.offset ≤ req.fin := Nat.le_add_right _ _
  have hle' : req'.offset ≤ req'.fin := Nat.le_add_right _ _
  have hadj := hreq req' List.mem_cons_self
  have hspec := mergeRequests_spec (hfitsr req (by simp)) (hfitsr req' (by simp)) (by omega)
  have hfitsrest : ∀ r ∈ rest, Fits cs r := fun r hr => hfitsr r (by simp [hr])
  have hoffset := hspec.offset_eq
  have hfin := hspec.fin_le
  have hldest : ∀ p ∈ l, ∀ x, req.offset ≤ x → p.fin ≤ x := by
    intro p hp x hx
    exact Nat.le_trans (hlr p hp req List.mem_cons_self) hx
  cases hsrc : (mergeRequests cs req req').src with
  | none =>
    rw [Option.toList_none, List.nil_append]
    refine ⟨List.pairwise_append.2 ⟨hl, List.pairwise_cons.2 ⟨fun r hr => ?_, hrest⟩, fun p hp => ?_⟩, ?_⟩
    · have := hnext r hr
      omega
    · refine List.forall_mem_cons.2 ⟨hldest p hp _ (Nat.le_of_eq hoffset.symm), fun r hr => hldest p hp _ ?_⟩
      have := hnext r hr
      omega
    · exact List.forall_mem_append.2 ⟨hfitsl, List.forall_mem_cons.2 ⟨hspec.fits, hfitsrest⟩⟩
  | some s =>
    obtain ⟨hfits, -, hsfin, hsoffset, -⟩ := hspec.left s hsrc
    rw [Option.toList_some, List.singleton_append]
    refine ⟨List.pairwise_append.2 ⟨hl, List.pairwise_cons.2 ⟨?_, List.pairwise_cons.2 ⟨?_, hrest⟩⟩, fun p hp => ?_⟩,
      ?_⟩
    · refine List.forall_mem_cons.2 ⟨by omega, fun r hr => ?_⟩
      have := hnext r hr
      omega
    · rw [hsfin]
      exact hnext
    · refine List.forall_mem_cons.2 ⟨hldest p hp _ (Nat.le_of_eq hoffset.symm), List.forall_mem_cons.2
        ⟨hldest p hp _ (by omega), fun r hr => hldest p hp _ ?_⟩⟩
      have := hnext r hr
      omega
    · exact List.forall_mem_append.2 ⟨hfitsl, List.forall_mem_cons.2 ⟨hspec.fits, List.forall_mem_cons.2
        ⟨hfits, hfitsrest⟩⟩⟩

/-- A write starts where two requests for the index partition adjoin, of which the first has room. -/
structure Refill (cs : Nat) (w : Walk) (req req' : WriteRequest) (rest : List WriteRequest) : Prop where
  start : Start cs w req (req' :: rest)
  buf : w.buf ≠ []
  fin : req.fin = w.offset
  offset : req'.offset = req.fin
  ip : req.state = requestIp
  ip' : req'.state = requestIp
  room : req.count < cs

/-- The request that the two come to, or the first of the two that they come to. -/
def joint (cs : Nat) (req req' : WriteRequest) : WriteRequest := (mergeRequests cs req req').dest

namespace Refill

theorem lt (h : Refill cs w req req' rest) : req.offset < w.offset := by
  have hfin : req.fin = req.offset + req.count := rfl
  have := h.start.fits_req.1
  have := h.fin
  omega

theorem fits' (h : Refill cs w req req' rest) : Fits cs req' :=
  h.start.fits req' (by simp)

theorem visit_first (h : Refill cs w req req' rest) :
    visit cs (w.buf.length + 1) w req (req' :: rest) = (.next, w.moveTo req, req' :: rest) := by
  have hm : mergePrev cs w req (req' :: rest) = (w, some req, req' :: rest, false) := by
    rw [mergePrev, h.start.prev]
  have hhere : ¬w.offset < req.offset := Nat.not_lt.2 (Nat.le_of_lt h.lt)
  have hdp : ¬(req.state ≠ requestIp ∧ (w.offset < req.fin ∨ w.offset = req.fin ∧ req.count < cs)) :=
    fun hne => hne.1 h.ip
  have hpast : ¬(req.state = requestIp ∧ w.offset < req.fin) := by
    rw [h.fin]
    omega
  rw [visit, insertBefore_here (Nat.le_of_lt h.lt)]
  dsimp only
  rw [hm]
  dsimp only
  rw [if_neg h.buf, if_neg hhere, if_neg hdp, if_neg hpast, settle, if_neg (fun hout => h.buf hout.1)]

theorem joint_spec (h : Refill cs w req req' rest) :
    MergeSpec cs req req' (mergeRequests cs req req') ∧ (mergeRequests cs req req').full = none ∧
    (joint cs req req').fin = min (req.offset + cs) req'.fin := by
  have hfin : req.offset ≤ req.fin := Nat.le_add_right _ _
  have hoffset := h.offset
  exact ⟨mergeRequests_spec h.start.fits_req h.fits' (by omega), merge_refills h.ip h.ip' h.offset h.room h.fits'.1⟩

/-- The second request gives its first bytes to the first one. -/
theorem visit_second (h : Refill cs w req req' rest) :
    ∃ n, visit cs (w.buf.length + 1) (w.moveTo req) req' rest =
      match (mergeRequests cs req req').src with
      | none => (.next, (w.moveTo (joint cs req req')).grow n, rest)
      | some s => visit cs w.buf.length ((w.moveTo (joint cs req req')).grow n) s rest := by
  obtain ⟨hspec, hfull, hfin⟩ := h.joint_spec
  refine ⟨(mergeRequests cs req req').reach, ?_⟩
  have hm : mergePrev cs (w.moveTo req) req' rest =
      ((w.moveTo (joint cs req req')).grow (mergeRequests cs req req').reach, (mergeRequests cs req req').src, rest,
        (mergeRequests cs req req').changed) := by
    rw [mergePrev]
    show _ = _
    simp only [Walk.moveTo, hfull, promote_none, Walk.grow, joint]
  have hoffset := h.offset
  have hend := h.fin
  have hhere : req'.offset ≤ (w.moveTo req).offset := Nat.le_of_eq (h.offset.trans h.fin)
  rw [visit, insertBefore_here hhere]
  dsimp only
  rw [hm]
  cases hsrc : (mergeRequests cs req req').src with
  | none => rfl
  | some s =>
    obtain ⟨hfits, -, -, hsoffset, -⟩ := hspec.left s hsrc
    have hdest : (mergeRequests cs req req').dest.fin = min (req.offset + cs) req'.fin := hfin
    have hgt : ((w.moveTo (joint cs req req')).grow (mergeRequests cs req req').reach).offset < s.offset := by
      have hreq : req.fin = req.offset + req.count := rfl
      have hreq' : req'.fin = req'.offset + req'.count := rfl
      have := h.room
      have := h.fits'.1
      show w.offset < s.offset
      omega
    dsimp only
    rw [if_neg (show ¬((w.moveTo (joint cs req req')).grow (mergeRequests cs req req').reach).buf = [] from h.buf),
      if_pos hgt]

/-- What the two requests become is in order, and reaches over the write offset. -/
theorem joint_order (h : Refill cs w req req' rest) :
    InOrder (w.passed ++ joint cs req req' :: ((mergeRequests cs req req').src.toList ++ rest)) ∧
    (∀ r ∈ w.passed ++ joint cs req req' :: ((mergeRequests cs req req').src.toList ++ rest), Fits cs r) ∧
    w.offset < (joint cs req req').fin := by
  obtain ⟨-, -, hfin⟩ := h.joint_spec
  have hreq : req.fin = req.offset + req.count := rfl
  have hreq' : req'.fin = req'.offset + req'.count := rfl
  have hadj := h.offset
  have hend := h.fin
  have hroom := h.room
  have hpos := h.fits'.1
  obtain ⟨hord, hfits⟩ := merge_order h.start.order h.start.fits
  rw [h.start.passed]
  exact ⟨hord, hfits, by omega⟩

/-- The second request is gone if there is room for it in the first. -/
theorem swallowed (h : Refill cs w req req' rest) :
    (mergeRequests cs req req').src = none ↔ req.count + req'.count ≤ cs := by
  obtain ⟨hspec, -, hfin⟩ := h.joint_spec
  have hreq : req.fin = req.offset + req.count := rfl
  have hreq' : req'.fin = req'.offset + req'.count := rfl
  have hadj := h.offset
  have hdest : (mergeRequests cs req req').dest.fin = min (req.offset + cs) req'.fin := hfin
  cases hsrc : (mergeRequests cs req req').src with
  | none =>
    have := hspec.gone hsrc
    simp only [true_iff]
    omega
  | some s =>
    obtain ⟨hfits, -, hsfin, hsoffset, -⟩ := hspec.left s hsrc
    have hs : s.fin = s.offset + s.count := rfl
    have := hfits.1
    simp only [reduceCtorEq, false_iff]
    omega

end Refill

/-- The write starts where two requests for the index partition adjoin. Either the second one was the last and
is gone, or the first new request overlaps them. -/
theorem refill_traverse (hcs : 0 < cs) (h : Refill cs w req req' rest) {fuel : Nat} (hfuel : rest.length ≤ fuel) :
    if req.count + req'.count ≤ cs ∧ rest = [] then
      ∃ n, Requests.traverse cs (fuel + 2) w (req :: req' :: rest) = (.next, (w.moveTo (joint cs req req')).grow n, [])
    else Done cs (w.room = some 0) (Requests.traverse cs (fuel + 2) w (req :: req' :: rest)) := by
  obtain ⟨n, hvisit⟩ := h.visit_second
  obtain ⟨hord, hfits, hover⟩ := h.joint_order
  have hreach : (w.moveTo req).offset ≤ req'.fin := by
    have hfin' : req'.offset ≤ req'.fin := Nat.le_add_right _ _
    have := h.offset
    have := h.fin
    show w.offset ≤ req'.fin
    omega
  have hgo : Requests.traverse cs (fuel + 2) w (req :: req' :: rest) =
      resume cs fuel (visit cs (w.buf.length + 1) (w.moveTo req) req' rest) := by
    rw [traverse_cons h.start.reached, h.visit_first]
    exact traverse_cons hreach
  have hpassed : ((w.moveTo (joint cs req req')).grow n).passed = w.passed ++ [joint cs req req'] := by
    rw [passed_grow, passed_moveTo]
  have hlast : ∃ p ∈ ((w.moveTo (joint cs req req')).grow n).passed, w.offset < p.fin :=
    ⟨_, by rw [hpassed]; simp, hover⟩
  have hroom : ((w.moveTo (joint cs req req')).grow n).room = w.room := rfl
  have hlen : 0 < w.buf.length := List.length_pos_iff.2 h.buf
  rw [hgo, hvisit]
  have hswallow := h.swallowed
  cases hsrc : (mergeRequests cs req req').src with
  | none =>
    rw [hsrc, Option.toList_none, List.nil_append] at hord hfits
    cases rest with
    | nil =>
      rw [if_pos ⟨hswallow.1 hsrc, rfl⟩]
      refine ⟨n, ?_⟩
      cases fuel <;> rfl
    | cons r rest =>
      obtain ⟨fuel, rfl⟩ : ∃ fuel', fuel = fuel' + 1 := ⟨fuel - 1, by rw [List.length_cons] at hfuel; omega⟩
      have hr : w.offset < r.offset := by
        have hjoint := List.pairwise_cons.1 (List.pairwise_append.1 hord).2.1
        exact Nat.lt_of_lt_of_le hover (hjoint.1 r List.mem_cons_self)
      have hfin : r.offset ≤ r.fin := Nat.le_add_right _ _
      rw [if_neg (fun hall => nomatch hall.2), ← hroom]
      show Done cs _ (Requests.traverse cs (fuel + 1) ((w.moveTo (joint cs req req')).grow n) (r :: rest))
      have hreach' : ((w.moveTo (joint cs req req')).grow n).offset ≤ r.fin := Nat.le_trans (Nat.le_of_lt hr) hfin
      rw [traverse_cons hreach']
      apply squeeze_done hcs _ _ hlast h.buf hr (Nat.le_succ _) (Nat.le_of_succ_le_succ hfuel)
      · rw [hpassed, List.append_assoc]
        exact hord
      · rw [hpassed, List.append_assoc]
        exact hfits
  | some s =>
    rw [hsrc, Option.toList_some, List.singleton_append] at hord hfits
    have hs : w.offset < s.offset := by
      have hjoint := List.pairwise_cons.1 (List.pairwise_append.1 hord).2.1
      exact Nat.lt_of_lt_of_le hover (hjoint.1 s List.mem_cons_self)
    have hkeep : ¬(req.count + req'.count ≤ cs ∧ rest = []) := by
      intro hall
      rw [hswallow.2 hall.1] at hsrc
      cases hsrc
    obtain ⟨k, hk⟩ : ∃ k, w.buf.length = k + 1 := ⟨w.buf.length - 1, by omega⟩
    rw [if_neg hkeep, ← hroom]
    show Done cs _ (resume cs fuel (visit cs w.buf.length ((w.moveTo (joint cs req req')).grow n) s rest))
    rw [hk]
    apply squeeze_done hcs _ _ hlast h.buf hs (Nat.le_of_eq hk) hfuel
    · rw [hpassed, List.append_assoc]
      exact hord
    · rw [hpassed, List.append_assoc]
      exact hfits

end Ltfs.WriteRefill
