import Ltfs.IndexBody

namespace Ltfs.Stamp

open Format Records TapeDevice WriteIndex IndexBody

variable {p q : Part} {v w : Volume} {io : IndexIo}

/-- What `ltfs_update_cart_coherency` writes for a partition that ends in an index. -/
def stampFor (v : Volume) (q : Part) : Coherency where
  volumeChangeRef := v.tape.medium.vcr
  count := if v.selfptrIn q then v.index.generation.toNat else (v.coh.get q).count
  setId := if v.selfptrIn q then v.index.selfptr.block else (v.coh.get q).setId
  version := 1

/-- `stampCoherency` with a drive that takes the attribute. -/
def stamp (q : Part) (v : Volume) : Volume :=
  if v.indexFileEnd.get q then
    let m := v.tape.medium.setCoherency q (stampFor v q)
    { v with
      coh := v.coh.set q (stampFor v q)
      tape := { v.tape with medium := m }
      history := ⟨.setCoherency q, v.tape.medium, m, v.completed, v.index.root⟩ :: v.history }
  else v

theorem stampCoherency_good (h : (io.coh q).isGood = true) :
    stampCoherency v.tape.medium.vcr io q v = stamp q v := by
  cases ha : io.coh q with
  | fail e =>
    rw [ha] at h
    cases h
  | good early prog =>
    simp only [stampCoherency, stamp, stampFor, Volume.issue, ha, Tape.setCartCoherency]
    by_cases hs : v.selfptrIn q = true <;> simp [hs]

theorem stamp_vcr (q : Part) (v : Volume) : (stamp q v).tape.medium.vcr = v.tape.medium.vcr := by
  by_cases h : v.indexFileEnd.get q = true <;> simp [stamp, h]

theorem ltfsUpdateCartCoherency_good (hv : io.vcr.isGood = true) (hc : ∀ q, (io.coh q).isGood = true)
    (h0 : v.tape.medium.vcr ≠ 0) : ltfsUpdateCartCoherency io v = stamp .dp (stamp .ip v) := by
  have hvcr : v.tape.volumeChangeReference io.vcr = some v.tape.medium.vcr := by
    cases ha : io.vcr with
    | fail e =>
      rw [ha] at hv
      cases hv
    | good early prog => rfl
  have hstamp : stampCoherency v.tape.medium.vcr io .dp (stamp .ip v) = stamp .dp (stamp .ip v) := by
    rw [← stamp_vcr .ip v]
    exact stampCoherency_good (hc .dp)
  simp only [ltfsUpdateCartCoherency, hvcr, stampCoherency_good (hc .ip), hstamp]

/-- A medium on which some of the new attributes are down. -/
def Between (m m' x : Medium) : Prop :=
  x.recs = m.recs ∧ x.vcr = m.vcr ∧ ∀ q, x.coh.get q = m.coh.get q ∨ x.coh.get q = m'.coh.get q

/-- Both partitions get their attribute if they end in an index. -/
structure BothStamped (v w : Volume) : Prop where
  coh : ∀ q, w.coh.get q = if v.indexFileEnd.get q then stampFor v q else v.coh.get q
  medium : ∀ q, w.tape.medium.coh.get q =
    if v.indexFileEnd.get q then stampFor v q else v.tape.medium.coh.get q
  events : ∃ es, w.history = es ++ v.history ∧ ∀ e ∈ es, e.completed = v.completed ∧ e.root = v.index.root ∧
    Between v.tape.medium w.tape.medium e.before ∧ Between v.tape.medium w.tape.medium e.after

theorem stamp_both (v : Volume) : BothStamped v (stamp .dp (stamp .ip v)) := by
  cases hi : v.indexFileEnd.ip <;> cases hd : v.indexFileEnd.dp
  all_goals refine ⟨fun q => ?_, fun q => ?_, ?_⟩
  all_goals try cases q <;> simp [stamp, stampFor, hi, hd, Volume.selfptrIn]
  all_goals simp only [stamp, Sides.get_ip, Sides.get_dp, hi, hd, if_true, Bool.false_eq_true, if_false]
  · exact ⟨[], rfl, by simp⟩
  · exact ⟨[_], rfl, by simp [Between]⟩
  · exact ⟨[_], rfl, by simp [Between]⟩
  · refine ⟨[_, _], rfl, ?_⟩
    simp [Between]
    intro q
    cases q <;> simp

end Ltfs.Stamp
