import Ltfs.Queues

namespace Ltfs.QueueSpec

open Requests RequestState Unified Queues Scheduler

variable {ι : Type}

/-- A list and the counters of one request state agree with the counters of the files. -/
structure LinkedAt (s : Scheduler ι) (q : RequestState) : Prop where
  nodup : (s.queue q).Nodup
  mem : ∀ i, i ∈ s.queue q ↔ 0 < s.inQueue i q
  length : s.count q = (s.queue q).length
  total : s.requestCount q = ((s.queue q).map (s.shown q)).sum

def Linked (s : Scheduler ι) : Prop := ∀ q, LinkedAt s q

variable {s : Scheduler ι} {i : ι} {p : CountedPriv} {q : RequestState} {l : List ι} {f : ι → Nat} {v : Nat}

theorem inQueue_of_priv (hp : s.priv i = some p) (q : RequestState) : s.inQueue i q = p.inQueue q := by
  simp [inQueue, hp]

theorem shown_of_priv (hp : s.priv i = some p) (q : RequestState) :
    s.shown q i = if p.hidden q then 0 else p.inQueue q := by
  simp [shown, writeIp, inQueue_of_priv hp, hp, CountedPriv.hidden]

variable [DecidableEq ι]


theorem sum_update_of_notMem (hi : i ∉ l) : (l.map (Function.update f i v)).sum = (l.map f).sum := by
  congr 1
  apply List.map_congr_left
  intro j hj
  apply Function.update_of_ne
  rintro rfl
  exact hi hj

theorem sum_update_erase (hl : l.Nodup) (hi : i ∈ l) :
    f i + ((l.erase i).map (Function.update f i v)).sum = (l.map f).sum := by
  rw [sum_update_of_notMem (List.Nodup.not_mem_erase hl), List.sum_map_erase f hi]

theorem sum_update_of_mem (hl : l.Nodup) (hi : i ∈ l) :
    f i + (l.map (Function.update f i v)).sum = (l.map f).sum + v := by
  have h := List.sum_map_erase (Function.update f i v) hi
  have h' := sum_update_erase (v := v) (f := f) hl hi
  rw [Function.update_self] at h
  omega

theorem sum_update_append (hi : i ∉ l) :
    ((l ++ [i]).map (Function.update f i v)).sum = (l.map f).sum + v := by
  rw [List.map_append, List.sum_append, sum_update_of_notMem hi]
  simp

section

variable {m : List ι × Nat} {n total : Nat}

theorem inQueue_called_other (hp : s.priv i = some p) {q' : RequestState} (hq : q' ≠ q) (j : ι) :
    (s.called q m total i p n).inQueue j q' = s.inQueue j q' := by
  by_cases hj : j = i
  · subst hj
    simp [inQueue, called, setPriv, setQueue, CountedPriv.setCount, hp, hq]
  · simp [inQueue, called, setPriv, setQueue, hj]

theorem inQueue_called (j : ι) :
    (s.called q m total i p n).inQueue j q = if j = i then n else s.inQueue j q := by
  by_cases hj : j = i
  · subst hj
    simp [inQueue, called, setPriv, CountedPriv.setCount]
  · simp [inQueue, called, setPriv, setQueue, hj]

theorem writeIp_called (hp : s.priv i = some p) (j : ι) :
    (s.called q m total i p n).writeIp j = s.writeIp j := by
  by_cases hj : j = i
  · subst hj
    simp [writeIp, called, setPriv, CountedPriv.setCount, hp]
  · simp [writeIp, called, setPriv, setQueue, hj]

theorem shown_called_other (hp : s.priv i = some p) {q' : RequestState} (hq : q' ≠ q) :
    (s.called q m total i p n).shown q' = s.shown q' := by
  funext j
  rw [shown, shown, inQueue_called_other hp hq, writeIp_called hp]

theorem shown_called (hp : s.priv i = some p) :
    (s.called q m total i p n).shown q = Function.update (s.shown q) i (if p.hidden q then 0 else n) := by
  funext j
  rw [shown, inQueue_called, writeIp_called hp]
  by_cases hj : j = i
  · subst hj
    simp [writeIp, hp, CountedPriv.hidden]
  · simp [hj, shown]

end

theorem linked_called (hs : Linked s) (hp : s.priv i = some p) {m : List ι × Nat} {total n : Nat}
    (nodup : m.1.Nodup) (mem : ∀ j, j ∈ m.1 ↔ 0 < if j = i then n else s.inQueue j q)
    (length : m.2 = m.1.length)
    (htotal : total = (m.1.map (Function.update (s.shown q) i (if p.hidden q then 0 else n))).sum) :
    Linked (s.called q m total i p n) := by
  intro q'
  by_cases hq : q' = q
  · subst hq
    constructor
    · simpa [called, setPriv, setQueue] using nodup
    · intro j
      rw [inQueue_called, ← mem]
      simp [called, setPriv, setQueue]
    · simpa [called, setPriv, setQueue] using length
    · rw [shown_called hp]
      simpa [called, setPriv, setQueue] using htotal
  · have h := hs q'
    constructor
    · simpa [called, setPriv, setQueue, hq] using h.nodup
    · intro j
      rw [inQueue_called_other hp hq, ← h.mem]
      simp [called, setPriv, setQueue, hq]
    · simpa [called, setPriv, setQueue, hq] using h.length
    · rw [shown_called_other hp hq]
      simpa [called, setPriv, setQueue, hq] using h.total

/-- Adding a request keeps the lists and counters in order. -/
theorem addMember_linked (hs : Linked s) (hp : s.priv i = some p) :
    ∃ m total, addMember q i p s = some (s.called q m total i p (p.inQueue q + 1)) ∧
      Linked (s.called q m total i p (p.inQueue q + 1)) := by
  have h := hs q
  have hmem := h.mem i
  have hshown := shown_of_priv hp q
  rw [inQueue_of_priv hp] at hmem
  by_cases hn : p.inQueue q = 0
  · have hi : i ∉ s.queue q := by
      rw [hmem, hn]
      exact Nat.lt_irrefl 0
    refine ⟨(s.queue q ++ [i], s.count q + 1), _, by simp [addMember, linkFirst, enqueue, hn, hi]; rfl,
      linked_called hs hp ?_ ?_ ?_ ?_⟩
    · exact h.nodup.append (List.nodup_singleton i) (by simpa using hi)
    · intro j
      by_cases hj : j = i
      · simp [hj]
      · simp [hj, h.mem]
    · simp [h.length]
    · rw [sum_update_append hi, ← h.total]
      split_ifs <;> omega
  · have hi : i ∈ s.queue q := hmem.2 (Nat.pos_of_ne_zero hn)
    refine ⟨(s.queue q, s.count q), _, by simp [addMember, linkFirst, hn]; rfl,
      linked_called hs hp h.nodup ?_ h.length ?_⟩
    · intro j
      by_cases hj : j = i
      · simp [hj, hi]
      · simp [hj, h.mem]
    · have hsum := sum_update_of_mem (f := s.shown q) (v := if p.hidden q then 0 else p.inQueue q + 1) h.nodup hi
      rw [hshown, ← h.total] at hsum
      dsimp only
      split_ifs at hsum ⊢ <;> omega

theorem leaving_le (all : Bool) (n : Nat) : leaving all n ≤ n := by
  rw [leaving]
  split_ifs <;> omega

/-- Taking requests away keeps the lists and counters in order, and nothing wraps. -/
theorem removeMember_linked (hs : Linked s) (hp : s.priv i = some p) (all : Bool) :
    ∃ m total, removeMember all q i p s =
        some (s.called q m total i p (p.inQueue q - leaving all (p.inQueue q))) ∧
      Linked (s.called q m total i p (p.inQueue q - leaving all (p.inQueue q))) := by
  have h := hs q
  have hmem := h.mem i
  have hshown := shown_of_priv hp q
  have hle := leaving_le all (p.inQueue q)
  rw [inQueue_of_priv hp] at hmem
  by_cases hlast : all = true ∧ p.inQueue q ≠ 0 ∨ p.inQueue q = 1
  · have hpos : 0 < p.inQueue q := by
      rcases hlast with ⟨-, h⟩ | h <;> omega
    have hrest : p.inQueue q - leaving all (p.inQueue q) = 0 := by
      rw [leaving]
      rcases hlast with ⟨ha, -⟩ | h
      · rw [if_pos ha]
        omega
      · split_ifs <;> omega
    have hi : i ∈ s.queue q := hmem.2 hpos
    have hcount : 0 < s.count q := by
      rw [h.length]
      exact List.length_pos_of_mem hi
    have hsum := sum_update_erase (f := s.shown q) (v := 0) h.nodup hi
    rw [hshown, ← h.total] at hsum
    have htotal : ∃ total, lower (leaving all (p.inQueue q)) q p s = some total ∧
        total = (((s.queue q).erase i).map (Function.update (s.shown q) i 0)).sum := by
      rw [lower, decrease]
      split_ifs at hsum ⊢ with hh hk
      · exact ⟨_, rfl, by omega⟩
      · exact ⟨_, rfl, by omega⟩
      · omega
    obtain ⟨total, hlower, htotal⟩ := htotal
    refine ⟨((s.queue q).erase i, s.count q - 1), total, ?_, linked_called hs hp ?_ ?_ ?_ ?_⟩
    · simp [removeMember, unlinkLast, hlast, dequeue, hi, hcount, hlower]
    · exact h.nodup.erase i
    · intro j
      rw [hrest]
      by_cases hj : j = i
      · simp [hj, List.Nodup.not_mem_erase h.nodup]
      · simp [hj, List.mem_erase_of_ne hj, h.mem]
    · rw [List.length_erase_of_mem hi, h.length]
    · rw [htotal, hrest, ite_self]
  · have hi : 0 < p.inQueue q - leaving all (p.inQueue q) ↔ i ∈ s.queue q := by
      rw [hmem, leaving]
      split_ifs <;> grind
    have htotal : ∃ total, lower (leaving all (p.inQueue q)) q p s = some total ∧
        total = ((s.queue q).map (Function.update (s.shown q) i
          (if p.hidden q then 0 else p.inQueue q - leaving all (p.inQueue q)))).sum := by
      rw [lower, decrease]
      by_cases hq : i ∈ s.queue q
      · have hsum := sum_update_of_mem (f := s.shown q)
          (v := if p.hidden q then 0 else p.inQueue q - leaving all (p.inQueue q)) h.nodup hq
        have hbound : s.shown q i ≤ s.requestCount q := by
          rw [h.total]
          exact List.single_le_sum (by simp) _ (List.mem_map_of_mem hq)
        rw [← h.total] at hsum
        rw [hshown] at hsum hbound
        split_ifs at hsum hbound ⊢ with hh hk
        · exact ⟨_, rfl, by omega⟩
        · exact ⟨_, rfl, by omega⟩
        · omega
      · have hzero : p.inQueue q = 0 := by
          rw [hmem] at hq
          omega
        have hleave : leaving all (p.inQueue q) = 0 := by omega
        rw [sum_update_of_notMem hq, ← h.total, hleave]
        split_ifs with hh hk
        · exact ⟨_, rfl, rfl⟩
        · exact ⟨_, rfl, rfl⟩
        · omega
    obtain ⟨total, hlower, htotal⟩ := htotal
    refine ⟨(s.queue q, s.count q), total, ?_, linked_called hs hp h.nodup ?_ h.length htotal⟩
    · simp [removeMember, unlinkLast, hlast, hlower]
    · intro j
      by_cases hj : j = i
      · simp only [hj, if_true]
        exact hi.symm
      · simp [hj, h.mem]

/-- One call keeps the lists and counters in order, changes the counters of its file only, and never wraps. -/
theorem updateQueueMembership_linked (hs : Linked s) (hp : s.priv i = some p) (c : Call) :
    ∃ s', updateQueueMembership i s c = some s' ∧ Linked s' ∧ s'.extQueue = s.extQueue ∧
      s'.priv = Function.update s.priv i (some ⟨p.dpr, bumpOne p.inQueue c⟩) := by
  rw [updateQueueMembership, hp]
  by_cases hadd : c.add = true
  · obtain ⟨m, total, hcall, hl⟩ := addMember_linked (q := c.queue) hs hp
    refine ⟨_, by simpa [hadd] using hcall, hl, rfl, ?_⟩
    simp [called, setPriv, setQueue, CountedPriv.setCount, bumpOne, hadd]
  · obtain ⟨m, total, hcall, hl⟩ := removeMember_linked (q := c.queue) hs hp c.all
    refine ⟨_, by simpa [hadd] using hcall, hl, rfl, ?_⟩
    simp [called, setPriv, setQueue, CountedPriv.setCount, bumpOne, hadd]

theorem calls_linked (cs : List Call) (hs : Linked s) (hp : s.priv i = some p) :
    ∃ s', calls i cs s = some s' ∧ Linked s' ∧ s'.extQueue = s.extQueue ∧
      s'.priv = Function.update s.priv i (some ⟨p.dpr, bump cs p.inQueue⟩) := by
  induction cs generalizing s p with
  | nil =>
    refine ⟨s, rfl, hs, rfl, ?_⟩
    rw [bump, List.foldl_nil, ← hp, Function.update_eq_self]
  | cons c cs ih =>
    obtain ⟨s₁, hc, hs₁, he₁, hp₁⟩ := updateQueueMembership_linked hs hp c
    have hpi : s₁.priv i = some ⟨p.dpr, bumpOne p.inQueue c⟩ := by
      rw [hp₁, Function.update_self]
    obtain ⟨s₂, hcs, hs₂, he₂, hp₂⟩ := ih hs₁ hpi
    refine ⟨s₂, ?_, hs₂, he₂.trans he₁, ?_⟩
    · rw [calls, List.foldlM_cons, hc]
      exact hcs
    · rw [hp₂, hp₁, Function.update_idem]
      rfl

/-- A change to a file that leaves its counters and what it shows alone. -/
theorem linked_setPriv (hs : Linked s) {x : Option CountedPriv}
    (hin : ∀ q, x.elim 0 (fun p => p.inQueue q) = s.inQueue i q)
    (hip : (x.elim false (fun p => p.dpr.writeIp)) = s.writeIp i ∨ s.inQueue i requestDp = 0) :
    Linked (s.setPriv i x) := by
  have hq : ∀ j q, (s.setPriv i x).inQueue j q = s.inQueue j q := by
    intro j q
    by_cases hj : j = i
    · subst hj
      rw [← hin q]
      simp [inQueue, setPriv]
    · simp [inQueue, setPriv, hj]
  have hw : ∀ j, j ≠ i → (s.setPriv i x).writeIp j = s.writeIp j := by
    intro j hj
    simp [writeIp, setPriv, hj]
  have hshown : ∀ q, (s.setPriv i x).shown q = s.shown q := by
    intro q
    funext j
    rw [shown, shown, hq]
    by_cases hj : j = i
    · subst hj
      have hself : (s.setPriv j x).writeIp j = x.elim false (fun p => p.dpr.writeIp) := by
        simp [writeIp, setPriv]
      rcases hip with hip | hzero
      · rw [hself, hip]
      · by_cases hqd : q = requestDp
        · subst hqd
          simp [hzero]
        · simp [hqd]
    · rw [hw j hj]
  intro q
  have h := hs q
  refine ⟨h.nodup, ?_, h.length, ?_⟩
  · intro j
    rw [hq]
    exact h.mem j
  · rw [hshown]
    exact h.total

end Ltfs.QueueSpec
