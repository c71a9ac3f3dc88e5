import Ltfs.BackPointers
import Ltfs.Stamp

namespace Ltfs.GoodDrive

open Format Lib.Log Lib.Run Records Constructs TapeDevice TapeSpec WriteIndex WriteSession IndexSession
  IndexBody DataSession VolumeRun BackPointers Stamp

variable {p q : Part} {v u w : Volume} {io nested : IndexIo}

/-- The drive carries out every command of an index write. -/
structure AllGood (io : IndexIo) : Prop where
  locate : io.locate.isGood = true
  allowOverwrite : io.allowOverwrite.isGood = true
  flushData : io.flushData.isGood = true
  openFm : io.openFm.isGood = true
  block : ∀ k < io.xml.full, (io.block k).isGood = true
  rest : io.rest.isGood = true
  closeFm : io.closeFm.isGood = true
  flushFm : io.flushFm.isGood = true
  vcr : io.vcr.isGood = true
  coh : ∀ p, (io.coh p).isGood = true

/-- The drive carries out every command of a data write. -/
structure AllGoodData (io : DataIo) : Prop where
  index : AllGood io.index
  nested : AllGood io.nested
  locate : io.locate.isGood = true
  allowOverwrite : io.allowOverwrite.isGood = true
  block : ∀ k, (io.block k).isGood = true

/-- The records `ws` are down on `p` from the append position on, and the attributes are those of `v` or
of `w`. -/
structure Within (p : Part) (v w : Volume) (ws : List Record) (m : Medium) : Prop where
  recs : m.recs = (mediumAfter v.tape.medium p (appendBlock v.tape p) ws).recs
  vcr : m.vcr = v.tape.medium.vcr + ws.length
  coh : ∀ q, m.coh.get q = v.tape.medium.coh.get q ∨ m.coh.get q = w.tape.medium.coh.get q

/-- A command sent on the way from `v` to `w`, while the records `ws` went to `p`. -/
def During (p : Part) (v w : Volume) (ws : List Record) (e : Event) : Prop :=
  e.completed = v.completed ∧ e.root = v.index.root ∧ ∃ ws₁ ws₂, ws₁ ++ ws₂ <+: ws ∧
    Within p v w ws₁ e.before ∧ Within p v w (ws₁ ++ ws₂) e.after

/-- The state that a complete index write to `p` leaves. -/
structure Written (p : Part) (io : IndexIo) (v w : Volume) : Prop where
  label : w.label = v.label
  medium : w.tape.medium.recs =
    (mediumAfter v.tape.medium p (appendBlock v.tape p) (construct (newImage p io v))).recs
  vcr : w.tape.medium.vcr = v.tape.medium.vcr + (construct (newImage p io v)).length
  append : w.tape.dev.appendPos = v.tape.dev.appendPos.set p
    (if p = .ip then appendBlock v.tape p else appendBlock v.tape p + (newImage p io v).blocks + 2)
  limits : limits w.tape.dev = limits v.tape.dev
  writable : Writable w.tape
  flags : w.indexFileEnd = v.indexFileEnd.set p true
  index : ∃ c, w.index = { (newImage p io v).index with
    creator := c, dirty := false, atimeDirty := false, version := 20200 }
  completed : w.completed = (newImage p io v).index.generation
  stampSelf : w.coh.get p =
    ⟨w.tape.medium.vcr, (newImage p io v).index.generation.toNat, appendBlock v.tape p + 1, 1⟩
  stampOther : w.coh.get p.other = if v.indexFileEnd.get p.other then
      { v.coh.get p.other with version := 1, volumeChangeRef := w.tape.medium.vcr }
    else v.coh.get p.other
  stampMedium : ∀ q, w.tape.medium.coh.get q =
    if w.indexFileEnd.get q then w.coh.get q else v.tape.medium.coh.get q
  events : ∃ es, w.history = es ++ v.history ∧ ∀ e ∈ es, During p v w (construct (newImage p io v)) e

theorem Written.recs (h : Written p io v w) :
    w.tape.recs p = record (v.tape.recs p) (appendBlock v.tape p) (construct (newImage p io v)) := by
  rw [Tape.recs, h.medium, mediumAfter_get_self]
  rfl

theorem Written.other (h : Written p io v w) : w.tape.recs p.other = v.tape.recs p.other := by
  rw [Tape.recs, h.medium, mediumAfter_get_other]
  rfl

theorem Sent.during {ws : List Record} {e : Event} (h : Sent p (appendBlock v.tape p) v ws e) (w : Volume) :
    During p v w ws e := by
  obtain ⟨hc, hr, -, ws₁, ws₂, hpre, -, hb, ha⟩ := h
  refine ⟨hc, hr, ws₁, ws₂, hpre, ?_, ?_⟩
  · rw [hb]
    exact ⟨rfl, rfl, fun q => .inl rfl⟩
  · rw [ha]
    exact ⟨rfl, rfl, fun q => .inl rfl⟩

theorem Between.within {ws : List Record} {m : Medium} (hu : Wrote p v ws u)
    (h : Between u.tape.medium w.tape.medium m) : Within p v w ws m := by
  obtain ⟨hr, hv, hc⟩ := h
  refine ⟨hr.trans (by rw [hu.medium]), hv.trans (by rw [hu.medium, mediumAfter_vcr]), fun q => ?_⟩
  rw [hu.medium] at hc
  exact hc q

/-- With a drive that carries out every command, an index write is complete. -/
theorem writeIndexBody_good (hs : Sane v) (hw : Writable v.tape)
    (hp : appendBlock v.tape p ≤ (v.tape.recs p).length) (hg : AllGood io) :
    ∃ u, writeIndexBody p io v = (.ok (), (finishIndex p io u).complete
        ⟨p, newImage p io v, v.isDirty, v.tape.recs .dp⟩) ∧
      Wrote p v (construct (newImage p io v)) u ∧
      u.index = { (newImage p io v).index with creator := u.index.creator } ∧ Writable u.tape := by
  obtain ⟨e, u, -, -, hbad⟩ | ⟨e, u, ws, -, -, -, hout, hempty⟩ | ⟨u, ws, hx, hu, hi, hout⟩ :=
    writeIndexBody_cases io p hs.inBounds hs.fits
  · exact absurd (seekAppendPosition_good _ hp hg.locate hg.allowOverwrite) hbad
  · exfalso
    cases hout with
    | nothing e =>
      obtain h | h := hempty rfl hw
      · rw [hg.flushData] at h
        cases h
      · rw [hg.openFm] at h
        cases h
    | torn e ds _ _ hbad =>
      obtain ⟨k, hk, h⟩ | ⟨-, h⟩ := hbad
      · rw [hg.block k hk] at h
        cases h
      · rw [hg.rest] at h
        cases h
    | unclosed e _ hc _ =>
      have := hg.closeFm
      rw [hc] at this
      cases this
    | unflushed e _ _ hf _ =>
      have := hg.flushFm
      rw [hf] at this
      cases this
    | lostRest r e _ _ _ he _ _ =>
      have := hg.rest
      rw [he] at this
      cases this
  · cases hout with
    | complete hwu => exact ⟨u, hx, hu, hi, hwu⟩
    | lostRest r e _ _ _ he _ _ =>
      have := hg.rest
      rw [he] at this
      cases this

/-- With a drive that takes the attributes, the end of an index write stamps both partitions. -/
theorem finishIndex_stamped (hg : AllGood io) (h0 : u.tape.medium.vcr ≠ 0) :
    BothStamped { u with indexFileEnd := u.indexFileEnd.set p true } (finishIndex p io u) := by
  have hupdate := ltfsUpdateCartCoherency_good (v := { u with indexFileEnd := u.indexFileEnd.set p true })
    hg.vcr hg.coh h0
  have hboth := stamp_both { u with indexFileEnd := u.indexFileEnd.set p true }
  rw [← hupdate] at hboth
  obtain ⟨hc, hm, hev⟩ := hboth
  have hmedium : (finishIndex p io u).tape.medium =
      (ltfsUpdateCartCoherency io { u with indexFileEnd := u.indexFileEnd.set p true }).tape.medium := by
    cases p <;> rfl
  refine ⟨hc, ?_, ?_⟩
  · rw [hmedium]
    exact hm
  · rw [hmedium]
    exact hev

theorem Wrote.written (hu : Wrote p v (construct (newImage p io v)) u) (hw : Writable u.tape)
    (hi : u.index = { (newImage p io v).index with creator := u.index.creator }) (hg : AllGood io) :
    Written p io v ((finishIndex p io u).complete ⟨p, newImage p io v, v.isDirty, v.tape.recs .dp⟩) := by
  have hf := finishIndex_finished p io u
  have hl := hf.limits
  simp only [TapeSpec.limits, Prod.mk.injEq] at hl
  have hself : u.index.selfptr = ⟨appendBlock v.tape p + 1, v.label.id p⟩ := by
    rw [hi]
    rfl
  have hgen : u.index.generation = (newImage p io v).index.generation := by
    rw [hi]
  have hvcr : u.tape.medium.vcr = v.tape.medium.vcr + (construct (newImage p io v)).length := by
    rw [hu.medium, mediumAfter_vcr]
  have hstamp := finishIndex_stamped (p := p) hg (u := u) (by rw [hvcr, construct_length]; omega)
  have hin : ∀ q, Volume.selfptrIn { u with indexFileEnd := u.indexFileEnd.set p true } q = decide (p = q) := by
    intro q
    refine selfptrIn_of_eq ?_ q
    rw [hself, hu.same]
  have hflags : u.indexFileEnd = v.indexFileEnd := by rw [hu.same]
  have hcoh : u.coh = v.coh := by rw [hu.same]
  refine ⟨hf.label.trans (by rw [hu.same]), ?_, ?_, ?_, hf.limits.trans hu.limits,
    ⟨hl.1.trans hw.1, hf.writeError.trans hw.2⟩, hf.flags.trans (by rw [hu.same]), ⟨u.index.creator, ?_⟩, rfl,
    ?_, ?_, ?_, ?_⟩
  · simp only [Volume.complete, hf.recs, hu.medium]
  · simp only [Volume.complete, hf.vcr, hvcr]
  · simp only [Volume.complete, hf.append, hself, hu.append, construct_length]
    cases p <;> simp [Nat.add_assoc]
  · simp only [Volume.complete, hf.index]
    rw [hi]
  · have := hstamp.coh p
    simp only [stampFor, hin, Sides.get_set_self, if_true, decide_true, hgen, hself] at this
    simpa only [Volume.complete, hf.vcr] using this
  · have := hstamp.coh p.other
    have hne : ¬ p = p.other := by cases p <;> simp [Part.other]
    simp only [stampFor, hin, Sides.get_set_other, hne, decide_false, Bool.false_eq_true, if_false] at this
    rw [hflags, hcoh] at this
    simpa only [Volume.complete, hf.vcr] using this
  · intro q
    have hm := hstamp.medium q
    have hc := hstamp.coh q
    simp only [Volume.complete, hf.flags, hflags] at hm hc ⊢
    rw [hm]
    split
    · rename_i hq
      rw [if_pos hq] at hc
      exact hc.symm
    · rw [hu.medium, mediumAfter_coh]
  · obtain ⟨es, hes, hall⟩ := hu.events
    obtain ⟨es', hes', hall'⟩ := hstamp.events
    refine ⟨es' ++ es, ?_, fun e he => ?_⟩
    · rw [List.append_assoc, ← hes]
      exact hes'
    · obtain he | he := List.mem_append.mp he
      · obtain ⟨hc, hr, hb, ha⟩ := hall' e he
        refine ⟨hc.trans (by rw [hu.same]), hr.trans hu.root, construct (newImage p io v), [], by simp,
          Between.within hu hb, ?_⟩
        rw [List.append_nil]
        exact Between.within hu ha
      · exact Sent.during (hall e he) _

/-- The attributes in memory stay those on the medium. -/
theorem Written.coh_eq (hw : Written p io v w) (h : v.tape.medium.coh = v.coh) :
    w.tape.medium.coh = w.coh := by
  apply Sides.ext_get
  intro q
  rw [hw.stampMedium q, h]
  split
  · rfl
  · rename_i hq
    obtain rfl | rfl := Part.eq_or_other p q
    · simp [hw.flags] at hq
    · simp only [hw.flags, Sides.get_set_other] at hq
      rw [hw.stampOther, if_neg hq]

section Positions

variable {ws : List Record}

theorem Wrote.recs_self (h : Wrote p v ws u) :
    u.tape.recs p = record (v.tape.recs p) (appendBlock v.tape p) ws := by
  simp only [Tape.recs, h.medium, mediumAfter_get_self]

theorem Wrote.recs_other (h : Wrote p v ws u) : u.tape.recs p.other = v.tape.recs p.other := by
  simp only [Tape.recs, h.medium, mediumAfter_get_other]

theorem appendBlock_congr (ha : u.tape.dev.appendPos.get q = v.tape.dev.appendPos.get q)
    (hr : u.tape.recs q = v.tape.recs q) : appendBlock u.tape q = appendBlock v.tape q := by
  simp only [appendBlock, ha, hr]

theorem appendBlock_eq_zero (h : appendBlock v.tape p = 0) : v.tape.recs p = [] := by
  by_cases h0 : v.tape.dev.appendPos.get p = 0
  · simpa [appendBlock, h0] using h
  · simp [appendBlock, h0] at h

theorem appendBlock_of_append {b : Nat} (ha : u.tape.dev.appendPos.get p = b)
    (h0 : b = 0 → u.tape.recs p = []) : appendBlock u.tape p = b := by
  by_cases hb : b = 0
  · simp [appendBlock, ha, hb, h0 hb]
  · simp [appendBlock, ha, hb]

/-- The append position moves behind what was written. -/
theorem Wrote.appendBlock_self (h : Wrote p v ws u) :
    appendBlock u.tape p = appendBlock v.tape p + ws.length := by
  apply appendBlock_of_append
  · rw [h.append]
    simp
  · intro h0
    have hv := appendBlock_eq_zero (v := v) (p := p) (by omega)
    have hws : ws = [] := List.eq_nil_of_length_eq_zero (by omega)
    rw [Wrote.recs_self h, hv, hws]
    rfl

theorem Wrote.appendBlock_other (h : Wrote p v ws u) :
    appendBlock u.tape p.other = appendBlock v.tape p.other := by
  apply appendBlock_congr
  · rw [h.append]
    simp
  · exact Wrote.recs_other h

theorem Idle.appendBlock (h : Idle p v u) (q : Part) : appendBlock u.tape q = appendBlock v.tape q := by
  have hr : u.tape.recs q = v.tape.recs q := by
    simp only [Tape.recs, h.medium]
  obtain ha | ha := h.append
  · exact appendBlock_congr (by rw [ha]) hr
  · obtain rfl | rfl := Part.eq_or_other p q
    · apply appendBlock_of_append
      · rw [ha]
        simp
      · intro h0
        rw [hr, appendBlock_eq_zero h0]
    · exact appendBlock_congr (by rw [ha]; simp) hr

end Positions

end Ltfs.GoodDrive
