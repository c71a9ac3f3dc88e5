import Ltfs.WriteClear

namespace Ltfs.WriteVisit

open Format Requests RequestState RequestSpec WriteCalls WriteClear

variable {cs stop n : Nat} {full room : Option Nat} {offset : Nat} {w : Walk} {req s : WriteRequest}
  {l rest : List WriteRequest}

/-- The rest of the write passes over nothing that it has overwritten. -/
def clear (cs : Nat) (w : Walk) (l : List WriteRequest) : Bool :=
  clearFrom cs (w.offset + w.buf.length) w.room w.offset l

/-- The outlook at a request that the write has not passed over. -/
def ahead (cs : Nat) (w : Walk) (req : WriteRequest) (rest : List WriteRequest) : Bool :=
  match landing cs (w.offset + w.buf.length) req.offset w.buf.length w.room w.offset with
  | none => true
  | some (room, offset) =>
    if w.offset + w.buf.length ≤ offset ∨ req.fin ≤ offset then
      clearFrom cs (w.offset + w.buf.length) room offset rest
    else if req.state = requestIp then
      decide (w.offset + w.buf.length < req.fin) || clearFrom cs (w.offset + w.buf.length) room offset rest
    else clearFrom cs (w.offset + w.buf.length) room (min (w.offset + w.buf.length) (offset + cs)) rest

theorem clear_cons (w : Walk) (req : WriteRequest) (rest : List WriteRequest) :
    clear cs w (req :: rest) = (decide (w.offset ≤ req.fin) && ahead cs w req rest) := by
  rw [clear, clearFrom, Nat.add_sub_cancel_left]
  rfl

/-- One turn of the loop over the requests: it goes on with `n` requests, or ends. What was passed is as much in
order as before, and so is the outlook. -/
inductive Turn (cs : Nat) (ordered : Prop) (cleared : Bool) (n : Nat) : Flow × Walk × List WriteRequest → Prop
  | on {w : Walk} {rest : List WriteRequest} (loop : Loop cs w rest) (length : rest.length = n)
      (order : InOrder w.passed ↔ ordered) (outlook : clear cs w rest = cleared) :
      Turn cs ordered cleared n (.next, w, rest)
  | off {flow : Flow} {w : Walk} {rest : List WriteRequest} (stops : flow ≠ .next)
      (fits : ∀ r ∈ w.passed ++ rest, Fits cs r) (order : InOrder (w.passed ++ rest) ↔ ordered)
      (outlook : cleared = true) : Turn cs ordered cleared n (flow, w, rest)

theorem Loop.grow (h : Loop cs w l) (n : Nat) : Loop cs (w.grow n) l :=
  ⟨h.order, h.fits, h.others, h.prev, h.held, h.behind, h.between, h.still, h.tip, h.start⟩

/-- A request may be cut to a part of it. -/
theorem Loop.narrow (h : Loop cs w (req :: rest)) (hfits : Fits cs s) (hoffset : req.offset ≤ s.offset)
    (hfin : s.fin ≤ req.fin) (hip : w.buf ≠ [] → s.state = requestIp → ∀ p, w.prev = some p → p.count ≠ cs →
      p.fin ≠ s.offset) : Loop cs w (s :: rest) := by
  obtain ⟨hreq, hord⟩ := List.pairwise_cons.1 h.order
  refine ⟨?_, ?_, ?_, ?_, h.held, h.behind, h.between, ?_, h.tip, ?_⟩
  · exact List.pairwise_cons.2 ⟨fun r hr => Nat.le_trans hfin (hreq r hr), hord⟩
  · obtain ⟨hp, hr⟩ := List.forall_mem_append.1 h.fits
    exact List.forall_mem_append.2 ⟨hp, List.forall_mem_cons.2 ⟨hfits, (List.forall_mem_cons.1 hr).2⟩⟩
  · intro p hp
    obtain ⟨h₁, h₂⟩ := List.forall_mem_cons.1 (h.others p hp)
    exact List.forall_mem_cons.2 ⟨Nat.le_trans h₁ hoffset, h₂⟩
  · intro p hp
    obtain ⟨h₁, h₂⟩ := List.forall_mem_cons.1 (h.prev p hp)
    exact List.forall_mem_cons.2 ⟨⟨by omega, by omega⟩, h₂⟩
  · intro hbuf p hp
    obtain ⟨hend, hcase⟩ := h.still hbuf p hp
    refine ⟨hend, ?_⟩
    by_cases hcount : p.count = cs
    · exact .inl hcount
    · obtain ⟨hpip, hall⟩ := hcase.resolve_left hcount
      obtain ⟨h₁, h₂⟩ := List.forall_mem_cons.1 hall
      exact .inr ⟨hpip, List.forall_mem_cons.2 ⟨⟨Nat.le_trans h₁.1 hoffset, fun hs => hip hbuf hs p hp hcount⟩, h₂⟩⟩
  · intro hno
    obtain ⟨hfront, hall⟩ := h.start hno
    obtain ⟨h₁, h₂⟩ := List.forall_mem_cons.1 hall
    exact ⟨hfront, List.forall_mem_cons.2 ⟨Nat.le_trans h₁ hoffset, h₂⟩⟩

theorem Loop.tail (h : Loop cs w (req :: rest)) : Loop cs w rest := by
  refine ⟨(List.pairwise_cons.1 h.order).2, ?_, ?_, ?_, h.held, h.behind, h.between, ?_, h.tip, ?_⟩
  · intro r hr
    exact h.fits r (by simpa using Or.imp_right Or.inr (List.mem_append.1 hr))
  · exact fun p hp => (List.forall_mem_cons.1 (h.others p hp)).2
  · exact fun p hp => (List.forall_mem_cons.1 (h.prev p hp)).2
  · intro hbuf p hp
    obtain ⟨hend, hcase⟩ := h.still hbuf p hp
    exact ⟨hend, hcase.imp_right fun hip => ⟨hip.1, (List.forall_mem_cons.1 hip.2).2⟩⟩
  · exact fun hno => ⟨(h.start hno).1, (List.forall_mem_cons.1 (h.start hno).2).2⟩

theorem forall_mem_promote {P : WriteRequest → Prop} :
    (∀ r ∈ promote full l, P r) ↔ ∀ r ∈ l, P (promoteOne full r) := by
  rw [promote, List.forall_mem_map]

theorem fits_promoteOne : Fits cs (promoteOne full req) ↔ Fits cs req := by
  rw [Fits, Fits, promoteOne_count]

theorem fin_le (h : InOrder (req :: rest)) (hle : offset ≤ req.fin) : ∀ r ∈ rest, offset ≤ r.fin := by
  intro r hr
  have := (List.pairwise_cons.1 h).1 r hr
  have hfin : r.offset ≤ r.fin := Nat.le_add_right _ _
  omega

/-- Nothing more is passed over when everything is written. -/
theorem clearFrom_done (hstop : stop ≤ offset) (h : ∀ r ∈ l, offset ≤ r.fin) : clearFrom cs stop room offset l = true := by
  induction l with
  | nil => rfl
  | cons r l ih =>
    obtain ⟨hr, hl⟩ := List.forall_mem_cons.1 h
    rw [clearFrom, decide_eq_true hr, Nat.sub_eq_zero_of_le hstop, landing]
    dsimp only
    rw [if_pos (.inl hstop), ih hl, Bool.and_self]

/-- The write goes into a request, as far as the cache block reaches. -/
theorem update_loop (hord : InOrder (req :: rest)) (hfits : ∀ r ∈ w.passed ++ req :: rest, Fits cs r)
    (hpast : ∀ p ∈ w.passed, ∀ r ∈ rest, p.fin ≤ r.offset) (hf : w.offset ≤ req.fin)
    {n : Nat} (hu : Updated cs req w.offset w.buf s n full) :
    Loop cs ((((w.promoted full).advance n).grow s.fin).moveTo s) (promote full rest) := by
  obtain ⟨hreq, hord'⟩ := List.pairwise_cons.1 hord
  obtain ⟨hfitsp, hfitsr⟩ := List.forall_mem_append.1 hfits
  obtain ⟨hfitreq, hfitsr⟩ := List.forall_mem_cons.1 hfitsr
  have hfit : Fits cs s := hu.fits hfitreq hf
  have htaken := hu.taken
  have hfin := hu.fin_eq
  have hoff := hu.offset_eq
  have hcount : s.fin = s.offset + s.count := rfl
  have hreqfin : req.fin = req.offset + req.count := rfl
  have hfitle : s.count ≤ cs := hfit.2
  have hpassed : (((w.promoted full).advance n).grow s.fin).passed = promote full w.passed := by
    rw [passed_grow, passed_advance, passed_promoted]
  have hoffset : (((w.promoted full).advance n).grow s.fin).offset = w.offset + n := rfl
  apply loop_moveTo
  · exact inOrder_promote.2 hord'
  · rw [hpassed, List.forall_mem_append, List.forall_mem_cons, forall_mem_promote, forall_mem_promote]
    exact ⟨fun r hr => fits_promoteOne.2 (hfitsp r hr), hfit, fun r hr => fits_promoteOne.2 (hfitsr r hr)⟩
  · rw [hpassed, forall_mem_promote]
    simp only [forall_mem_promote, promoteOne_fin, promoteOne_offset]
    exact hpast
  · rw [hoffset, forall_mem_promote]
    intro r hr
    have := hreq r hr
    rw [promoteOne_offset]
    omega
  · rw [hoffset]
    omega
  · intro hbuf
    have : ¬w.buf.length ≤ n := mt List.drop_eq_nil_iff.2 hbuf
    rw [hoffset]
    exact ⟨by omega, .inl (by omega)⟩

theorem update_reaches {n : Nat} (hf : w.offset ≤ req.fin) (hfits : Fits cs req)
    (hu : Updated cs req w.offset w.buf s n full) :
    w.offset + n = min (w.offset + w.buf.length) (req.offset + cs) ∧ n ≤ w.buf.length := by
  have htaken := hu.taken
  have hreqfin : req.fin = req.offset + req.count := rfl
  have hcount : req.count ≤ cs := hfits.2
  omega

theorem inOrder_stretch {a b : List WriteRequest} {d d' : WriteRequest} (hoffset : d'.offset = d.offset)
    (hfin : d.fin ≤ d'.fin) (hb : InOrder (a ++ [d] ++ b) → b = []) :
    InOrder (a ++ [d'] ++ b) ↔ InOrder (a ++ [d] ++ b) := by
  constructor
  · intro h
    rw [InOrder, List.append_assoc, List.singleton_append, List.pairwise_append, List.pairwise_cons] at h ⊢
    obtain ⟨ha, ⟨hd, hb⟩, hab⟩ := h
    refine ⟨ha, ⟨fun r hr => Nat.le_trans hfin (hd r hr), hb⟩, fun p hp r hr => ?_⟩
    obtain rfl | hr := List.mem_cons.1 hr
    · rw [← hoffset]
      exact hab p hp d' List.mem_cons_self
    · exact hab p hp r (List.mem_cons_of_mem _ hr)
  · intro h
    obtain rfl := hb h
    rw [InOrder, List.append_nil, List.pairwise_append] at h ⊢
    refine ⟨h.1, List.pairwise_singleton _ _, fun p hp r hr => ?_⟩
    rw [List.mem_singleton.1 hr, hoffset]
    exact h.2.2 p hp d (List.mem_singleton_self _)

theorem inOrder_append (hl : InOrder l) {a : List WriteRequest} (h : ∀ p ∈ a, ∀ r ∈ l, p.fin ≤ r.offset) :
    InOrder (a ++ l) ↔ InOrder a := by
  rw [InOrder, List.pairwise_append]
  exact ⟨fun hal => hal.1, fun ha => ⟨ha, hl, h⟩⟩

/-- The merge of the next request into `prev_req` when everything is written. -/
structure MergedPrev (cs : Nat) (w : Walk) (rest : List WriteRequest) (m : Walk × Option WriteRequest ×
    List WriteRequest × Bool) : Prop where
  buf : m.1.buf = w.buf
  offset : m.1.offset = w.offset
  room : m.1.room = w.room
  rest : ∃ full, m.2.2.1 = promote full rest
  order : InOrder m.1.passed ↔ InOrder w.passed
  loop : Loop cs m.1 m.2.2.1
  left : ∀ s, m.2.1 = some s → Loop cs (m.1.moveTo s) m.2.2.1 ∧ (InOrder (m.1.passed ++ [s]) ↔ InOrder w.passed) ∧
    (∀ p ∈ m.1.passed, p.fin ≤ s.offset) ∧ ∀ r ∈ m.2.2.1, s.fin ≤ r.offset

theorem mergePrev_none (h : Loop cs w (req :: rest)) (hbuf : w.buf = []) (hprev : w.prev = none) :
    MergedPrev cs w rest (mergePrev cs w req rest) := by
  have hm : mergePrev cs w req rest = (w, some req, rest, false) := by
    rw [mergePrev, hprev]
  rw [hm]
  have hpassed : w.passed = w.front ++ w.between := by
    simp [Walk.passed, hprev]
  have hle : ∀ p ∈ w.passed, p.fin ≤ req.offset := by
    rw [hpassed]
    exact fun p hp => h.others p hp req List.mem_cons_self
  obtain ⟨hreq, hord⟩ := List.pairwise_cons.1 h.order
  have hfin : req.offset ≤ req.fin := Nat.le_add_right _ _
  have hstart := (h.start hprev).2 req List.mem_cons_self
  refine ⟨rfl, rfl, rfl, ⟨none, promote_none.symm⟩, Iff.rfl, Loop.tail h, ?_⟩
  rintro s ⟨⟩
  refine ⟨loop_moveTo hord h.fits ?_ ?_ ?_ (absurd hbuf), inOrder_concat hle, hle, hreq⟩
  · intro p hp r hr
    have := hle p hp
    have := hreq r hr
    omega
  · intro r hr
    have := hreq r hr
    omega
  · exact Nat.le_trans hstart hfin

theorem mergePrev_some (h : Loop cs w (req :: rest)) (hbuf : w.buf = []) {p : WriteRequest} (hprev : w.prev = some p) :
    MergedPrev cs w rest (mergePrev cs w req rest) := by
  obtain ⟨hfitsp, hfitsr⟩ := List.forall_mem_append.1 h.fits
  obtain ⟨hfitreq, hfitsr⟩ := List.forall_mem_cons.1 hfitsr
  have hpassed : w.passed = w.front ++ [p] ++ w.between := by
    rw [Walk.passed, hprev, Option.toList_some]
  have hp : p ∈ w.passed := by
    simp [hpassed]
  obtain ⟨hpreq, hprest⟩ := List.forall_mem_cons.1 (h.prev p hprev)
  have hspec := mergeRequests_spec (hfitsp p hp) hfitreq hpreq.1
  have hm : mergePrev cs w req rest = ({ w with
      front := promote (mergeRequests cs p req).full w.front
      prev := some (mergeRequests cs p req).dest
      between := promote (mergeRequests cs p req).full w.between
      fileSize := max w.fileSize (mergeRequests cs p req).reach },
      (mergeRequests cs p req).src, promote (mergeRequests cs p req).full rest, (mergeRequests cs p req).changed) := by
    rw [mergePrev, hprev]
  rw [hm]
  clear hm
  generalize mergeRequests cs p req = m at hspec ⊢
  obtain ⟨hreq, hord⟩ := List.pairwise_cons.1 h.order
  have hfin : req.offset ≤ req.fin := Nat.le_add_right _ _
  have htip := h.tip p hprev
  have hge := hspec.fin_ge
  have hle := hspec.fin_le
  have hoff := hspec.offset_eq
  have hlist : promote m.full w.passed =
      promote m.full w.front ++ [promoteOne m.full p] ++ promote m.full w.between := by
    simp [hpassed, promote]
  have horder : InOrder (promote m.full w.front ++ [m.dest] ++ promote m.full w.between) ↔ InOrder w.passed := by
    have hsame : InOrder (promote m.full w.passed) ↔ InOrder w.passed := inOrder_promote
    rw [hlist] at hsame
    refine (inOrder_stretch ?_ ?_ ?_).trans hsame
    · rw [hoff, promoteOne_offset]
    · rwa [promoteOne_fin]
    · intro hl
      rw [← hlist, inOrder_promote] at hl
      rw [h.held (by simp [hprev]) hl]
      rfl
  have hothers : ∀ q ∈ promote m.full w.front ++ promote m.full w.between, ∀ r ∈ req :: rest, q.fin ≤ r.offset := by
    have : promote m.full w.front ++ promote m.full w.between = promote m.full (w.front ++ w.between) := by
      simp [promote]
    rw [this, forall_mem_promote]
    simp only [promoteOne_fin]
    exact h.others
  have hfits : ∀ q ∈ promote m.full w.front ++ [m.dest] ++ promote m.full w.between, Fits cs q := by
    have hall : ∀ q ∈ promote m.full w.passed, Fits cs q :=
      forall_mem_promote.2 fun q hq => fits_promoteOne.2 (hfitsp q hq)
    rw [hlist] at hall
    simp only [List.forall_mem_append] at hall ⊢
    exact ⟨⟨hall.1.1, List.forall_mem_singleton.2 hspec.fits⟩, hall.2⟩
  have hfitsr' : ∀ r ∈ promote m.full rest, Fits cs r :=
    forall_mem_promote.2 fun r hr => fits_promoteOne.2 (hfitsr r hr)
  refine ⟨rfl, rfl, rfl, ⟨m.full, rfl⟩, horder, ⟨inOrder_promote.2 hord, ?_, ?_, ?_, ?_, absurd hbuf, absurd hbuf,
    absurd hbuf, ?_, (by rintro ⟨⟩)⟩, ?_⟩
  · exact List.forall_mem_append.2 ⟨hfits, hfitsr'⟩
  · intro q hq
    rw [forall_mem_promote]
    simp only [promoteOne_offset]
    exact fun r hr => hothers q hq r (List.mem_cons_of_mem _ hr)
  · rintro q ⟨⟩
    rw [forall_mem_promote]
    simp only [promoteOne_offset]
    intro r hr
    have := hreq r hr
    have := hprest r hr
    omega
  · intro _ hl
    rw [h.held (by simp [hprev]) (horder.1 hl)]
    rfl
  · rintro q ⟨⟩
    exact Nat.le_trans htip hge
  · intro s hs
    obtain ⟨hfits_s, -, hfin_s, hoff_s, -⟩ := hspec.left s hs
    have hpast : ∀ q ∈ promote m.full w.front ++ [m.dest] ++ promote m.full w.between, q.fin ≤ s.offset := by
      intro q hq
      obtain hq | hq | hq : q ∈ promote m.full w.front ∨ q = m.dest ∨ q ∈ promote m.full w.between := by
        simpa [or_assoc] using hq
      · have := hothers q (List.mem_append_left _ hq) req List.mem_cons_self
        omega
      · rw [hq]
        omega
      · have := hothers q (List.mem_append_right _ hq) req List.mem_cons_self
        omega
    have hend : s.offset ≤ s.fin := Nat.le_add_right _ _
    have hnext : ∀ r ∈ promote m.full rest, s.fin ≤ r.offset := by
      rw [forall_mem_promote, hfin_s]
      simp only [promoteOne_offset]
      exact hreq
    refine ⟨loop_moveTo (inOrder_promote.2 hord) ?_ ?_ ?_ ?_ (absurd hbuf), (inOrder_concat hpast).trans horder, hpast,
      hnext⟩
    · exact List.forall_mem_append.2 ⟨hfits, List.forall_mem_cons.2 ⟨hfits_s, hfitsr'⟩⟩
    · intro q hq r hr
      exact Nat.le_trans (hpast q hq) (Nat.le_trans hend (hnext r hr))
    · intro r hr
      have := hnext r hr
      omega
    · show w.offset ≤ s.fin
      omega

theorem mergePrev_done (h : Loop cs w (req :: rest)) (hbuf : w.buf = []) :
    MergedPrev cs w rest (mergePrev cs w req rest) := by
  cases hprev : w.prev with
  | none => exact mergePrev_none h hbuf hprev
  | some p => exact mergePrev_some h hbuf hprev

/-- Everything is written: the turn ends with the merge. -/
theorem merge_turn (h : Loop cs w (req :: rest)) (hbuf : w.buf = [])
    {f : Walk → WriteRequest → List WriteRequest → Bool → Flow × Walk × List WriteRequest} :
    Turn cs (InOrder w.passed) (clear cs w rest) rest.length
      (match mergePrev cs w req rest with
      | (w, none, rest, _) => (.next, w, rest)
      | (w, some req, rest, didMerge) =>
        if w.buf = [] then settle w req rest didMerge
        else f w req rest didMerge) := by
  have hm := mergePrev_done h hbuf
  generalize mergePrev cs w req rest = m at hm
  obtain ⟨w', src, rest', didMerge⟩ := m
  obtain ⟨full, rfl⟩ : ∃ full, rest' = promote full rest := hm.rest
  have hbuf' : w'.buf = w.buf := hm.buf
  have hoffset : w'.offset = w.offset := hm.offset
  have hroom : w'.room = w.room := hm.room
  have hlen : (promote full rest).length = rest.length := List.length_map _
  have hclear : clear cs w' (promote full rest) = clear cs w rest := by
    rw [clear, hoffset, hbuf', hroom, clearFrom_promote, clear]
  cases src with
  | none => exact .on hm.loop hlen hm.order hclear
  | some s =>
    obtain ⟨hloop, horder, hpast, hnext⟩ := hm.left s rfl
    have hfin : s.offset ≤ s.fin := Nat.le_add_right _ _
    dsimp only
    rw [if_pos (hbuf'.trans hbuf), settle]
    split_ifs with hout
    · have hend : w'.offset ≤ s.fin := hloop.tip s rfl
      have hall : ∀ r ∈ promote full rest, w'.offset ≤ r.fin := by
        intro r hr
        have hr' : r.offset ≤ r.fin := Nat.le_add_right _ _
        have := hnext r hr
        omega
      refine .off (by rintro ⟨⟩) hloop.fits ?_ ?_
      · rw [inOrder_append hloop.order, passed_moveTo]
        · exact horder
        · intro p hp r hr
          rw [passed_moveTo, List.mem_append, List.mem_singleton] at hp
          obtain hp | rfl := hp
          · exact Nat.le_trans (hpast p hp) (Nat.le_trans hfin (hnext r hr))
          · exact hnext r hr
      · rw [← hclear, clear, hbuf', hbuf]
        exact clearFrom_done (Nat.le_refl _) hall
    · refine .on hloop hlen ?_ ?_
      · rw [passed_moveTo]
        exact horder
      · exact hclear

/-- The pool was empty before the next request. -/
theorem restart_turn (h : Loop cs w (req :: rest)) (hbuf : w.buf ≠ []) (hlt : w.offset < req.offset) :
    Turn cs (InOrder w.passed) true rest.length (.restart, w.skip req, rest) := by
  have hlist : (w.skip req).passed ++ rest = w.passed ++ req :: rest := by
    rw [passed_skip, List.append_assoc, List.singleton_append]
  refine .off nofun ?_ ?_ rfl
  · rw [hlist]
    exact h.fits
  · rw [hlist]
    apply inOrder_append h.order
    intro p hp r hr
    exact h.passed_le hbuf hr (Nat.lt_of_lt_of_le hlt (first_le h.order r hr)) p hp

theorem visit_ends (hcs : 0 < cs) (h : Loop cs w (req :: rest)) {k : Nat}
    (hend : (insertBefore cs req.offset w.buf.length w).2 = true ∨
      (insertBefore cs req.offset w.buf.length w).1.buf = []) :
    Turn cs (InOrder w.passed) (ahead cs w req rest) rest.length (visit cs (k + 1) w req rest) := by
  obtain ⟨hloop, horder, hstop, hdry, hland⟩ := insertBefore_loop hcs w.buf.length (Nat.le_refl _) h
  rw [visit]
  generalize insertBefore cs req.offset w.buf.length w = ins at hloop horder hstop hdry hland hend
  obtain ⟨w', flag⟩ := ins
  cases flag with
  | true =>
    obtain ⟨hnone, hbuf, hlt⟩ := hdry rfl
    rw [← horder, ahead, hnone]
    exact restart_turn hloop hbuf hlt
  | false =>
    have hbuf : w'.buf = [] := hend.resolve_left Bool.false_ne_true
    have hlen : w'.buf.length = 0 := List.length_eq_zero_iff.2 hbuf
    have hreach : w'.offset = w.offset + w.buf.length := by
      rw [← hstop, hlen, Nat.add_zero]
    have hahead : ahead cs w req rest = clear cs w' rest := by
      rw [ahead, (hland rfl).1]
      dsimp only
      rw [if_pos (.inl (Nat.le_of_eq hreach.symm)), clear, hstop]
    rw [← horder, hahead]
    exact merge_turn hloop hbuf

/-- The rest of the write ends before the next request. -/
theorem visit_before (hcs : 0 < cs) (h : Loop cs w (req :: rest)) (hle : w.offset + w.buf.length ≤ req.offset) {k : Nat} :
    Turn cs (InOrder w.passed) true rest.length (visit cs (k + 1) w req rest) := by
  obtain ⟨-, -, hstop, hdry, hland⟩ := insertBefore_loop hcs w.buf.length (Nat.le_refl _) h
  have hfin : req.offset ≤ req.fin := Nat.le_add_right _ _
  have hend : (insertBefore cs req.offset w.buf.length w).2 = true ∨
      (insertBefore cs req.offset w.buf.length w).1.buf = [] := by
    by_contra hend
    rw [not_or, Bool.not_eq_true] at hend
    have := (hland hend.1).2 hend.2
    have := List.length_pos_iff.2 hend.2
    omega
  have hahead : ahead cs w req rest = true := by
    cases hflag : (insertBefore cs req.offset w.buf.length w).2 with
    | true => rw [ahead, (hdry hflag).1]
    | false =>
      have hbuf := List.length_eq_zero_iff.2 (hend.resolve_left (by simp [hflag]))
      have hreach : w.offset + w.buf.length ≤ (insertBefore cs req.offset w.buf.length w).1.offset := by omega
      rw [ahead, (hland hflag).1]
      dsimp only
      rw [if_pos (.inl hreach)]
      exact clearFrom_done hreach (fin_le h.order (by omega))
  rw [← hahead]
  exact visit_ends hcs h hend

theorem grow_zero (w : Walk) : w.grow 0 = w := by
  rw [Walk.grow, Nat.max_zero]

/-- A request that the write has come to loses what `prev_req` holds of it, and `prev_req` stays as it is. -/
theorem mergePrev_keeps (h : Loop cs w (req :: rest)) (hbuf : w.buf ≠ []) (hle : req.offset ≤ w.offset) :
    ∃ n didMerge src, mergePrev cs w req rest = (w.grow n, src, rest, didMerge) ∧
      (src = none → req.fin ≤ w.offset) ∧ ∀ s, src = some s → Fits cs s ∧
        (s.state = requestIp ↔ req.state = requestIp) ∧ s.fin = req.fin ∧ s.offset = w.offset := by
  obtain ⟨hfitsp, hfitsr⟩ := List.forall_mem_append.1 h.fits
  have hfitreq := hfitsr req List.mem_cons_self
  cases hprev : w.prev with
  | none =>
    refine ⟨0, false, some req, ?_, nofun, ?_⟩
    · rw [mergePrev, hprev, grow_zero]
    · rintro s ⟨⟩
      have := (h.start hprev).2 req List.mem_cons_self
      exact ⟨hfitreq, Iff.rfl, rfl, by omega⟩
  | some p =>
    have hp : p ∈ w.passed := by
      simp [Walk.passed, hprev]
    have hspec := mergeRequests_spec (hfitsp p hp) hfitreq (h.prev p hprev req List.mem_cons_self).1
    obtain ⟨hend, hcase⟩ := h.still hbuf p hprev
    obtain ⟨hdest, hfull⟩ := hspec.keeps (hcase.imp_right fun hip => ⟨hip.1, hip.2 req List.mem_cons_self⟩)
    refine ⟨(mergeRequests cs p req).reach, (mergeRequests cs p req).changed, (mergeRequests cs p req).src, ?_,
      fun hnone => ?_, fun s hs => ?_⟩
    · rw [mergePrev, hprev]
      dsimp only
      rw [hdest, hfull, promote_none, promote_none, promote_none, ← hprev]
      rfl
    · have := hspec.gone hnone
      rwa [hdest, hend] at this
    · obtain ⟨hfits, hip, hfin, hoffset, -⟩ := hspec.left s hs
      rw [hdest, hend] at hoffset
      exact ⟨hfits, hip, hfin, by omega⟩

theorem passed_le_offset (h : Loop cs w rest) (hbuf : w.buf ≠ []) (hlt : ∀ r ∈ rest, w.offset ≤ r.offset) :
    ∀ p ∈ w.passed, ∀ r ∈ rest, p.fin ≤ r.offset := by
  intro p hp r hr
  rw [Walk.passed, List.append_assoc, List.mem_append, List.mem_append] at hp
  obtain hp | hp | hp := hp
  · exact h.others p (by simp [hp]) r hr
  · rw [(h.still hbuf p (Option.mem_toList.1 hp)).1]
    exact hlt r hr
  · exact h.others p (by simp [hp]) r hr

/-- The write goes into a request. -/
theorem update_turn (hord : InOrder (req :: rest)) (hfits : ∀ r ∈ w.passed ++ req :: rest, Fits cs r)
    (hpast : ∀ p ∈ w.passed, ∀ r ∈ req :: rest, p.fin ≤ r.offset) (ho : req.offset ≤ w.offset)
    (hf : w.offset ≤ req.fin) :
    Turn cs (InOrder w.passed)
      (clearFrom cs (w.offset + w.buf.length) w.room (min (w.offset + w.buf.length) (req.offset + cs)) rest) rest.length
      (let (req, copyCount, full) := updateRequest cs req w.offset w.buf
      settle (((w.promoted full).advance copyCount).grow req.fin) req (promote full rest) true) := by
  have hu := @updateRequest_updated cs req w.offset w.buf ho hf
  generalize updateRequest cs req w.offset w.buf = u at hu ⊢
  obtain ⟨s, n, full⟩ := u
  dsimp only at hu ⊢
  obtain ⟨hreach, hn⟩ := update_reaches hf (hfits req (by simp)) hu
  rw [settle, if_neg (by simp)]
  refine .on (update_loop hord hfits (fun p hp r hr => hpast p hp r (List.mem_cons_of_mem _ hr)) hf hu)
    (List.length_map _) ?_ ?_
  · rw [passed_moveTo, passed_grow, passed_advance, passed_promoted, inOrder_concat, inOrder_promote]
    rw [forall_mem_promote, hu.offset_eq]
    simp only [promoteOne_fin]
    exact fun p hp => hpast p hp req List.mem_cons_self
  · have hlen : (w.buf.drop n).length = w.buf.length - n := List.length_drop
    have hend : w.offset + n + (w.buf.drop n).length = w.offset + w.buf.length := by omega
    show clearFrom cs (w.offset + n + (w.buf.drop n).length) w.room (w.offset + n) (promote full rest) = _
    rw [hend, hreach, clearFrom_promote]

/-- A request for the index partition goes, or loses its front to a new request. -/
theorem ip_turn (hcs : 0 < cs) (h : Loop cs w (req :: rest)) (hbuf : w.buf ≠ []) (hoffset : req.offset = w.offset)
    {k : Nat} (hk : 0 < k) :
    Turn cs (InOrder w.passed)
      (decide (w.offset + w.buf.length < req.fin) || clearFrom cs (w.offset + w.buf.length) w.room w.offset rest)
      rest.length
      (if req.count ≤ w.buf.length then (.next, w, rest) else visit cs k w (req.behind w.buf.length) rest) := by
  have hfin : req.fin = req.offset + req.count := rfl
  have hlen : 0 < w.buf.length := List.length_pos_iff.2 hbuf
  split_ifs with hall
  · rw [decide_eq_false (by omega), Bool.false_or]
    exact .on (Loop.tail h) rfl Iff.rfl rfl
  · rw [decide_eq_true (by omega), Bool.true_or]
    obtain ⟨k, rfl⟩ := Nat.exists_eq_add_of_lt hk
    have hback : (req.behind w.buf.length).offset = req.offset + w.buf.length := rfl
    have hend : (req.behind w.buf.length).fin = req.fin := fin_behind (by omega)
    have hloop : Loop cs w (req.behind w.buf.length :: rest) := by
      apply Loop.narrow h
      · exact (h.fits req (by simp)).behind (by omega)
      · omega
      · omega
      · intro _ _ p hp _
        rw [(h.still hbuf p hp).1]
        omega
    exact visit_before hcs hloop (by omega)

/-- One turn of the loop. -/
theorem visit_turn (hcs : 0 < cs) (h : Loop cs w (req :: rest)) {k : Nat} (hk : w.buf ≠ [] → 0 < k) :
    Turn cs (InOrder w.passed) (ahead cs w req rest) rest.length (visit cs (k + 1) w req rest) := by
  by_cases hend : (insertBefore cs req.offset w.buf.length w).2 = true ∨
      (insertBefore cs req.offset w.buf.length w).1.buf = []
  · exact visit_ends hcs h hend
  rw [not_or, Bool.not_eq_true] at hend
  obtain ⟨hloop, horder, hstop, -, hland⟩ := insertBefore_loop hcs w.buf.length (Nat.le_refl _) h
  obtain ⟨hland, hreach⟩ := hland hend.1
  rw [visit, ahead, hland, ← horder]
  have hk : 0 < k := by
    apply hk
    intro hnil
    rw [hnil] at hend
    exact hend.2 hnil
  generalize insertBefore cs req.offset w.buf.length w = ins at hloop hstop hend hreach ⊢
  obtain ⟨w', flag⟩ := ins
  obtain rfl : flag = false := hend.1
  have hbuf : w'.buf ≠ [] := hend.2
  have hlen' : 0 < w'.buf.length := List.length_pos_iff.2 hbuf
  dsimp only at hloop hstop hreach ⊢
  obtain ⟨n, didMerge, src, hmerge, hgone, hleft⟩ := mergePrev_keeps hloop hbuf (hreach hbuf)
  rw [hmerge, ← hstop]
  cases src with
  | none =>
    rw [if_pos (.inr (hgone rfl))]
    exact .on (Loop.grow (Loop.tail hloop) n) rfl Iff.rfl rfl
  | some s =>
    obtain ⟨hfits, hip, hfin, hoffset⟩ := hleft s rfl
    have hcount : s.fin = s.offset + s.count := rfl
    have hpos : 0 < s.count := hfits.1
    have hnarrow : Loop cs w' (s :: rest) := by
      have hpast := hreach hbuf
      apply Loop.narrow hloop hfits (by omega) (by omega)
      intro _ hs p hp hne
      obtain ⟨hpend, hcase⟩ := hloop.still hbuf p hp
      obtain ⟨h₁, h₂⟩ := (hcase.resolve_left hne).2 req List.mem_cons_self
      have := h₂ (hip.1 hs)
      omega
    have hsloop := Loop.grow hnarrow n
    have hv : ∃ v, w'.grow n = v ∧ v.offset = w'.offset ∧ v.buf = w'.buf ∧ v.room = w'.room ∧ v.passed = w'.passed :=
      ⟨_, rfl, rfl, rfl, rfl, rfl⟩
    obtain ⟨v, hv, hvo, hvb, hvr, hvp⟩ := hv
    rw [hv] at hsloop ⊢
    rw [← hvo, ← hvb] at hstop ⊢
    rw [← hvo] at hoffset
    rw [← hvb] at hbuf hlen'
    have hmore : ¬(v.offset + v.buf.length ≤ v.offset ∨ req.fin ≤ v.offset) := by omega
    have hhere : ¬v.offset < s.offset := by omega
    rw [← hvr, ← hvp, if_neg hmore]
    dsimp only
    rw [if_neg hbuf, if_neg hhere]
    by_cases hstate : req.state = requestIp
    · have hs : s.state = requestIp := hip.2 hstate
      rw [if_pos hstate, if_neg (fun hne => hne.1 hs), if_pos ⟨hs, by omega⟩]
      have hturn := ip_turn hcs hsloop hbuf hoffset hk
      rw [hfin] at hturn
      simp only [hoffset, true_and, if_true]
      exact hturn
    · rw [if_neg hstate, if_pos ⟨fun hs => hstate (hip.1 hs), .inl (by omega)⟩]
      have hpast := passed_le_offset hsloop hbuf (fun r hr => hoffset ▸ first_le hsloop.order r hr)
      have hturn := update_turn hsloop.order hsloop.fits hpast (Nat.le_of_eq hoffset) (by omega)
      rw [hoffset] at hturn
      exact hturn

/-- How the loop over the requests ends: with a list that is in order if all went well. If there is something
left to write, it goes behind the last request. -/
structure Done (cs : Nat) (good : Prop) (v : Flow × Walk × List WriteRequest) : Prop where
  fits : ∀ r ∈ v.2.1.passed ++ v.2.2, Fits cs r
  order : InOrder (v.2.1.passed ++ v.2.2) ↔ good
  next : v.1 = .next → v.2.2 = [] ∧ (v.2.1.buf ≠ [] → lastOffset v.2.1.passed ≤ v.2.1.offset)

theorem lastOffset_concat (l : List WriteRequest) (r : WriteRequest) : lastOffset (l ++ [r]) = r.fin := by
  simp [lastOffset]

theorem lastOffset_passed (h : Loop cs w []) (hbuf : w.buf ≠ []) : lastOffset w.passed ≤ w.offset := by
  rw [Walk.passed]
  rcases List.eq_nil_or_concat w.between with hnil | ⟨l, r, hr⟩
  · rw [hnil, List.append_nil]
    cases hprev : w.prev with
    | none =>
      rw [(h.start hprev).1]
      exact Nat.zero_le _
    | some p =>
      rw [Option.toList_some, lastOffset_concat]
      exact Nat.le_of_eq (h.still hbuf p hprev).1
  · rw [hr, List.concat_eq_append, ← List.append_assoc, lastOffset_concat]
    exact h.between hbuf r (by simp [hr])

theorem done_nil (h : Loop cs w []) : Done cs (InOrder w.passed ∧ clear cs w [] = true) (.next, w, []) := by
  refine ⟨h.fits, ?_, fun _ => ⟨rfl, lastOffset_passed h⟩⟩
  rw [List.append_nil]
  exact (and_iff_left rfl).symm

/-- A request that is passed over is not in order. -/
theorem skip_loop (h : Loop cs w (req :: rest)) (hlt : req.fin < w.offset) :
    Loop cs (w.skip req) rest ∧ ¬InOrder (w.skip req).passed := by
  have hfin : req.offset ≤ req.fin := Nat.le_add_right _ _
  have hnot : ¬InOrder (w.skip req).passed := by
    rw [passed_skip]
    intro hord
    cases hprev : w.prev with
    | none =>
      have := (h.start hprev).2 req List.mem_cons_self
      omega
    | some p =>
      have hp : p ∈ w.passed := by
        simp [Walk.passed, hprev]
      have : p.fin ≤ req.offset := (List.pairwise_append.1 hord).2.2 p hp req (List.mem_singleton_self _)
      have := h.tip p hprev
      omega
  have htail := Loop.tail h
  refine ⟨⟨htail.order, ?_, ?_, htail.prev, fun _ hord => absurd hord hnot, fun _ hord => absurd hord hnot, ?_,
    htail.still, htail.tip, ?_⟩, hnot⟩
  · rw [passed_skip, List.append_assoc]
    exact h.fits
  · intro p hp r hr
    rw [show (w.skip req).between = w.between ++ [req] from rfl, ← List.append_assoc, List.mem_append,
      List.mem_singleton] at hp
    obtain hp | rfl := hp
    · exact htail.others p hp r hr
    · exact (List.pairwise_cons.1 h.order).1 r hr
  · intro hbuf p hp
    obtain hp | hp := List.mem_append.1 hp
    · exact h.between hbuf p hp
    · rw [List.mem_singleton.1 hp]
      exact Nat.le_of_lt hlt
  · intro hno
    exact absurd ((h.start hno).2 req List.mem_cons_self) (by omega)

def resume (cs fuel : Nat) : Flow × Walk × List WriteRequest → Flow × Walk × List WriteRequest
  | (.next, w, rest) => Requests.traverse cs fuel w rest
  | (flow, w, rest) => (flow, w, rest)

theorem traverse_cons {fuel : Nat} (h : w.offset ≤ req.fin) :
    Requests.traverse cs (fuel + 1) w (req :: rest) = resume cs fuel (visit cs (w.buf.length + 1) w req rest) := by
  rw [Requests.traverse, if_neg (Nat.not_lt.2 h)]
  rfl

/-- After one turn the loop goes on or ends. -/
theorem turn_done {ordered : Prop} {cleared : Bool} {n fuel : Nat} {v : Flow × Walk × List WriteRequest} (hn : n ≤ fuel)
    (ih : ∀ {w : Walk} {rest : List WriteRequest}, Loop cs w rest → rest.length ≤ fuel →
      Done cs (InOrder w.passed ∧ clear cs w rest = true) (Requests.traverse cs fuel w rest))
    (h : Turn cs ordered cleared n v) :
    Done cs (ordered ∧ cleared = true) (resume cs fuel v) := by
  cases h with
  | on hloop hrest horder hout =>
    have hdone := ih hloop (by omega)
    rwa [hout, horder] at hdone
  | @off flow _ _ hstops hfits horder hout =>
    rw [and_iff_left hout]
    cases flow with
    | next => exact absurd rfl hstops
    | out => exact ⟨hfits, horder, nofun⟩
    | restart => exact ⟨hfits, horder, nofun⟩

theorem traverse_loop (hcs : 0 < cs) {fuel : Nat} (h : Loop cs w rest) (hfuel : rest.length ≤ fuel) :
    Done cs (InOrder w.passed ∧ clear cs w rest = true) (Requests.traverse cs fuel w rest) := by
  induction fuel generalizing w rest with
  | zero =>
    obtain rfl := List.length_eq_zero_iff.1 (Nat.le_zero.1 hfuel)
    exact done_nil h
  | succ fuel ih =>
    cases rest with
    | nil => exact done_nil h
    | cons req rest =>
      have hlen : rest.length ≤ fuel := Nat.le_of_succ_le_succ hfuel
      by_cases hlt : req.fin < w.offset
      · rw [Requests.traverse, if_pos hlt]
        obtain ⟨hloop, hnot⟩ := skip_loop h hlt
        have hdone := ih hloop hlen
        have hclear : clear cs w (req :: rest) = false := by
          rw [clear_cons, decide_eq_false (by omega), Bool.false_and]
        refine ⟨hdone.fits, hdone.order.trans ?_, hdone.next⟩
        rw [hclear]
        exact iff_of_false (fun hg => hnot hg.1) (fun hg => Bool.false_ne_true hg.2)
      · rw [traverse_cons (Nat.not_lt.1 hlt), clear_cons, decide_eq_true (Nat.not_lt.1 hlt), Bool.true_and]
        exact turn_done hlen ih (visit_turn hcs h List.length_pos_iff.2)

end Ltfs.WriteVisit
