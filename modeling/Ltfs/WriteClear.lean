import Ltfs.RequestSpec
import Ltfs.WriteCalls

namespace Ltfs.WriteClear

open Format Requests RequestState RequestSpec WriteCalls

variable (cs stop : Nat)

/-- Where new requests of at most `cs` bytes come to that are put in from `offset` on, until they reach `limit` or
the end of the write, and how many cache blocks are left then. There is no result if the pool runs dry. -/
def landing (limit : Nat) : Nat → Option Nat → Nat → Option (Option Nat × Nat)
  | 0, room, offset => some (room, offset)
  | fuel + 1, room, offset =>
    if stop ≤ offset ∨ limit ≤ offset then some (room, offset)
    else
      match takeRoom room with
      | none => none
      | some room => landing limit fuel room (min stop (offset + cs))

/-- The rest of a write, which has come to `offset`, passes over no request that it has overwritten: none of the
requests ends before `offset`, and so on from the place where the write comes to with each of them. -/
def clearFrom : Option Nat → Nat → List WriteRequest → Bool
  | _, _, [] => true
  | room, offset, req :: rest =>
    decide (offset ≤ req.fin) &&
      match landing cs stop req.offset (stop - offset) room offset with
      | none => true
      | some (room, offset) =>
        if stop ≤ offset ∨ req.fin ≤ offset then clearFrom room offset rest
        else if req.state = requestIp then decide (stop < req.fin) || clearFrom room offset rest
        else clearFrom room (min stop (offset + cs)) rest

/-- A write starts where a request for the index partition ends that has room for bytes of the next one. The
bytes that it takes are written again, unless there is no cache block, or the next one was the last and is
gone. -/
def refills (room : Option Nat) (req : WriteRequest) : List WriteRequest → Bool
  | [] => false
  | req' :: rest =>
    decide (req'.state = requestIp ∧ req'.offset = req.fin ∧ req.count < cs ∧ room ≠ some 0 ∧
      (cs < req.count + req'.count ∨ rest ≠ []))

/-- A write of the bytes from `offset` to `stop` leaves no request overlapping another. -/
def clearWrite (room : Option Nat) (offset : Nat) : List WriteRequest → Bool
  | [] => true
  | req :: rest =>
    if req.fin < offset then clearWrite room offset rest
    else if offset < req.offset then clearFrom cs stop room offset (req :: rest)
    else if req.state ≠ requestIp then
      if offset < req.fin ∨ req.count < cs then clearFrom cs stop room (min stop (req.offset + cs)) rest
      else clearFrom cs stop room offset rest
    else if req.fin = offset then (decide (stop ≤ offset) || !refills cs room req rest) && clearFrom cs stop room offset rest
    else decide (stop < req.fin) || clearFrom cs stop room offset rest

variable {cs stop} {full room : Option Nat} {offset : Nat} {w : Walk} {req : WriteRequest}
  {l rest : List WriteRequest}

theorem clearFrom_promote : clearFrom cs stop room offset (promote full l) = clearFrom cs stop room offset l := by
  induction l generalizing room offset with
  | nil => rfl
  | cons r l ih =>
    rw [show promote full (r :: l) = promoteOne full r :: promote full l from rfl, clearFrom, clearFrom]
    simp only [promoteOne_fin, promoteOne_offset, promoteOne_ip, ih]

theorem inOrder_promote : InOrder (promote full l) ↔ InOrder l := by
  rw [InOrder, promote, List.pairwise_map]
  simp only [promoteOne_fin, promoteOne_offset]
  rfl

/-- The walk between two requests. A request that was passed may overlap those to come only if it is `prev_req`,
and only where the write has been. As long as there is something to write, `prev_req` ends at the write offset
and takes no bytes of the requests to come. -/
structure Loop (cs : Nat) (w : Walk) (rest : List WriteRequest) : Prop where
  order : InOrder rest
  fits : ∀ r ∈ w.passed ++ rest, Fits cs r
  others : ∀ p ∈ w.front ++ w.between, ∀ r ∈ rest, p.fin ≤ r.offset
  prev : ∀ p, w.prev = some p → ∀ r ∈ rest, p.offset ≤ r.offset ∧ p.fin ≤ max w.offset r.offset
  held : w.prev ≠ none → InOrder w.passed → w.between = []
  behind : w.buf ≠ [] → InOrder w.passed → ∀ p ∈ w.passed, p.fin ≤ w.offset
  between : w.buf ≠ [] → ∀ p ∈ w.between, p.fin ≤ w.offset
  still : w.buf ≠ [] → ∀ p, w.prev = some p → p.fin = w.offset ∧ (p.count = cs ∨
    p.state = requestIp ∧ ∀ r ∈ rest, p.fin ≤ r.offset ∧ (r.state = requestIp → p.fin ≠ r.offset))
  tip : ∀ p, w.prev = some p → w.offset ≤ p.fin
  start : w.prev = none → w.front = [] ∧ ∀ r ∈ rest, w.offset ≤ r.offset

/-- Everything that was passed ends before a request that the write has not come to. -/
theorem Loop.passed_le (h : Loop cs w rest) (hbuf : w.buf ≠ []) {r : WriteRequest} (hr : r ∈ rest)
    (hlt : w.offset < r.offset) : ∀ p ∈ w.passed, p.fin ≤ r.offset := by
  intro p hp
  rw [Walk.passed, List.append_assoc, List.mem_append, List.mem_append] at hp
  obtain hp | hp | hp := hp
  · exact h.others p (by simp [hp]) r hr
  · rw [(h.still hbuf p (Option.mem_toList.1 hp)).1]
    exact Nat.le_of_lt hlt
  · exact h.others p (by simp [hp]) r hr

theorem first_le (h : InOrder (req :: rest)) : ∀ r ∈ req :: rest, req.offset ≤ r.offset := by
  refine List.forall_mem_cons.2 ⟨Nat.le_refl _, fun r hr => ?_⟩
  exact Nat.le_trans (Nat.le_add_right _ _) ((List.pairwise_cons.1 h).1 r hr)

/-- The new request that `unified_write` puts in at its offset. -/
def new (cs : Nat) (w : Walk) : WriteRequest := newRequest cs w.offset w.buf false

def putIn (cs : Nat) (w : Walk) (room : Option Nat) : Walk :=
  (({ w with room := room }.moveTo (new cs w)).advance (new cs w).count).grow (new cs w).fin

theorem new_offset : (new cs w).offset = w.offset := rfl

theorem new_count : (new cs w).count = min cs w.buf.length := by
  simp [new, newRequest, WriteRequest.count]

theorem new_fin : (new cs w).fin = w.offset + min cs w.buf.length := by
  rw [WriteRequest.fin, new_count, new_offset]

theorem new_ip : (new cs w).state ≠ requestIp := by
  simp only [new, newRequest, Bool.false_eq_true, if_false]
  split_ifs <;> simp

@[simp] theorem putIn_offset : (putIn cs w room).offset = w.offset + min cs w.buf.length := by
  rw [← new_count]
  rfl

@[simp] theorem putIn_buf : (putIn cs w room).buf = w.buf.drop (min cs w.buf.length) := by
  rw [← new_count]
  rfl

@[simp] theorem putIn_passed : (putIn cs w room).passed = w.passed ++ [new cs w] := by
  rw [putIn, passed_grow, passed_advance, passed_moveTo, passed_room]

@[simp] theorem putIn_room : (putIn cs w room).room = room := rfl

@[simp] theorem putIn_prev : (putIn cs w room).prev = some (new cs w) := rfl

@[simp] theorem putIn_between : (putIn cs w room).between = [] := rfl

@[simp] theorem putIn_front : (putIn cs w room).front = w.passed := rfl

theorem inOrder_concat (h : ∀ p ∈ l, p.fin ≤ req.offset) : InOrder (l ++ [req]) ↔ InOrder l := by
  rw [InOrder, List.pairwise_append]
  refine ⟨fun hl => hl.1, fun hl => ⟨hl, List.pairwise_singleton _ _, fun p hp r hr => ?_⟩⟩
  rw [List.mem_singleton.1 hr]
  exact h p hp

/-- In a list that is not in order nothing is gained by a longer one. -/
theorem inOrder_concat_iff (h : InOrder l → ∀ p ∈ l, p.fin ≤ req.offset) : InOrder (l ++ [req]) ↔ InOrder l := by
  by_cases hl : InOrder l
  · exact inOrder_concat (h hl)
  · exact iff_of_false (fun hlr => hl (List.pairwise_append.1 hlr).1) hl

theorem putIn_inOrder (h : Loop cs w rest) (hbuf : w.buf ≠ []) :
    InOrder (putIn cs w room).passed ↔ InOrder w.passed := by
  rw [putIn_passed]
  exact inOrder_concat_iff fun hl p hp => h.behind hbuf hl p hp

theorem putIn_stop : (putIn cs w room).offset + (putIn cs w room).buf.length = w.offset + w.buf.length := by
  rw [putIn_offset, putIn_buf, List.length_drop]
  omega

/-- The walk goes on behind `req`. -/
theorem loop_moveTo (hord : InOrder rest) (hfits : ∀ r ∈ w.passed ++ req :: rest, Fits cs r)
    (hpast : ∀ p ∈ w.passed, ∀ r ∈ rest, p.fin ≤ r.offset)
    (hreq : ∀ r ∈ rest, req.offset ≤ r.offset ∧ req.fin ≤ max w.offset r.offset) (htip : w.offset ≤ req.fin)
    (hstill : w.buf ≠ [] → req.fin = w.offset ∧ (req.count = cs ∨ req.state = requestIp ∧
      ∀ r ∈ rest, req.fin ≤ r.offset ∧ (r.state = requestIp → req.fin ≠ r.offset))) :
    Loop cs (w.moveTo req) rest := by
  refine ⟨hord, ?_, ?_, ?_, fun _ _ => rfl, ?_, fun _ _ hp => absurd hp List.not_mem_nil, ?_, ?_, nofun⟩
  · rwa [passed_moveTo, List.append_assoc]
  · intro p hp r hr
    rw [show (w.moveTo req).front = w.passed from rfl, show (w.moveTo req).between = [] from rfl,
      List.append_nil] at hp
    exact hpast p hp r hr
  · intro p hp r hr
    obtain rfl := Option.some.inj hp
    exact hreq r hr
  · intro hbuf hord' p hp
    rw [passed_moveTo] at hord' hp
    have hfin : req.offset ≤ req.fin := Nat.le_add_right _ _
    have hend : req.fin = w.offset := (hstill hbuf).1
    show p.fin ≤ w.offset
    obtain hp | hp := List.mem_append.1 hp
    · have : p.fin ≤ req.offset := (List.pairwise_append.1 hord').2.2 p hp _ (List.mem_singleton_self _)
      omega
    · rw [List.mem_singleton.1 hp, hend]
  · intro hbuf p hp
    obtain rfl := Option.some.inj hp
    exact hstill hbuf
  · intro p hp
    obtain rfl := Option.some.inj hp
    exact htip

/-- A new request before the next one keeps the walk in order. -/
theorem putIn_loop (hcs : 0 < cs) (hord : InOrder (req :: rest)) (hfits : ∀ r ∈ w.passed ++ req :: rest, Fits cs r)
    (hpast : ∀ p ∈ w.passed, ∀ r ∈ req :: rest, p.fin ≤ r.offset) (hbuf : w.buf ≠ []) (hlt : w.offset < req.offset) :
    Loop cs (putIn cs w room) (req :: rest) := by
  have hlen : 0 < w.buf.length := List.length_pos_iff.2 hbuf
  have hnew : Fits cs (new cs w) := by
    rw [Fits, new_count]
    omega
  have hlist : ∀ r ∈ w.passed ++ new cs w :: req :: rest, Fits cs r := by
    obtain ⟨hp, hr⟩ := List.forall_mem_append.1 hfits
    exact List.forall_mem_append.2 ⟨hp, List.forall_mem_cons.2 ⟨hnew, hr⟩⟩
  have hgo : putIn cs w room =
      (({ w with room := room }.advance (new cs w).count).grow (new cs w).fin).moveTo (new cs w) := rfl
  have hoffset : (({ w with room := room }.advance (new cs w).count).grow (new cs w).fin).offset =
      (new cs w).fin := rfl
  rw [hgo]
  refine loop_moveTo hord hlist hpast ?_ ?_ ?_
  · intro r hr
    have := first_le hord r hr
    rw [hoffset, new_offset]
    omega
  · rw [hoffset]
  · intro hbuf'
    have : ¬w.buf.length ≤ (new cs w).count := mt List.drop_eq_nil_iff.2 hbuf'
    rw [new_count] at this
    rw [hoffset, new_count]
    exact ⟨rfl, .inl (by omega)⟩

/-- The new requests before the next one. -/
theorem insertBefore_loop (hcs : 0 < cs) (fuel : Nat) (hfuel : w.buf.length ≤ fuel) (h : Loop cs w (req :: rest)) :
    Loop cs (insertBefore cs req.offset fuel w).1 (req :: rest) ∧
    (InOrder (insertBefore cs req.offset fuel w).1.passed ↔ InOrder w.passed) ∧
    (insertBefore cs req.offset fuel w).1.offset + (insertBefore cs req.offset fuel w).1.buf.length =
      w.offset + w.buf.length ∧
    ((insertBefore cs req.offset fuel w).2 = true →
      landing cs (w.offset + w.buf.length) req.offset fuel w.room w.offset = none ∧
      (insertBefore cs req.offset fuel w).1.buf ≠ [] ∧ (insertBefore cs req.offset fuel w).1.offset < req.offset) ∧
    ((insertBefore cs req.offset fuel w).2 = false →
      landing cs (w.offset + w.buf.length) req.offset fuel w.room w.offset =
        some ((insertBefore cs req.offset fuel w).1.room, (insertBefore cs req.offset fuel w).1.offset) ∧
      ((insertBefore cs req.offset fuel w).1.buf ≠ [] → req.offset ≤ (insertBefore cs req.offset fuel w).1.offset)) := by
  induction fuel generalizing w with
  | zero =>
    have hnil : w.buf = [] := List.length_eq_zero_iff.1 (Nat.le_zero.1 hfuel)
    exact ⟨h, Iff.rfl, rfl, fun hdry => absurd hdry Bool.false_ne_true, fun _ => ⟨rfl, fun hbuf => absurd hnil hbuf⟩⟩
  | succ fuel ih =>
    have hstop : (w.offset + w.buf.length ≤ w.offset ∨ req.offset ≤ w.offset) ↔
        (w.buf = [] ∨ req.offset ≤ w.offset) := by
      rw [← List.length_eq_zero_iff]
      omega
    rw [insertBefore, landing]
    by_cases hend : w.buf = [] ∨ req.offset ≤ w.offset
    · rw [if_pos hend, if_pos (hstop.2 hend)]
      exact ⟨h, Iff.rfl, rfl, fun hdry => absurd hdry Bool.false_ne_true, fun _ => ⟨rfl, fun hbuf => hend.resolve_left hbuf⟩⟩
    · rw [if_neg hend, if_neg (mt hstop.1 hend)]
      rw [not_or, Nat.not_le] at hend
      obtain ⟨hbuf, hlt⟩ := hend
      have hlen : 0 < w.buf.length := List.length_pos_iff.2 hbuf
      cases hroom : takeRoom w.room with
      | none => exact ⟨h, Iff.rfl, rfl, fun _ => ⟨rfl, hbuf, hlt⟩, fun hstop => absurd hstop.symm Bool.false_ne_true⟩
      | some room =>
        have hnext := ih (w := putIn cs w room) (by rw [putIn_buf, List.length_drop]; omega)
          (putIn_loop hcs h.order h.fits (fun p hp r hr => h.passed_le hbuf hr
            (Nat.lt_of_lt_of_le hlt (first_le h.order r hr)) p hp) hbuf hlt)
        rw [putIn_stop, putIn_inOrder h hbuf, putIn_room, putIn_offset,
          show w.offset + min cs w.buf.length = min (w.offset + w.buf.length) (w.offset + cs) by omega] at hnext
        exact hnext

end Ltfs.WriteClear
