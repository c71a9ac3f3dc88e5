import Ltfs.IndexBody

namespace Ltfs.DataSession

open Format Lib.Log Records TapeDevice TapeSpec WriteIndex WriteSession IndexSession IndexBody

variable {p : Part} {b : Nat} {v u : Volume} {ws : List Record}

/-- One data block. An error may also be the warning of a block that was recorded. -/
theorem Session.data (h : Session p b v ws u) (c : Bytes) (a : Answer) :
    (∃ e w ds, u.issue .write (·.write (.data c) c.length false true a) = (.error e, w) ∧
      ds <+: [Record.data c] ∧ Session p b v (ws ++ ds) w) ∨
    (∃ w, u.issue .write (·.write (.data c) c.length false true a) = (.ok (), w) ∧
      Session p b v (ws ++ [.data c]) w) := by
  have hc : ∀ q, Command.write ≠ .setCoherency q := fun q hq => by cases hq
  generalize hf : (fun t : Tape => t.write (.data c) c.length false true a) = f
  have hcases := write_cases u.tape (.data c) c.length false true a
  rw [show u.tape.write (.data c) c.length false true a = f u.tape by rw [← hf]] at hcases
  obtain hr | ⟨-, hw, hr⟩ := hcases
  · obtain ⟨e, he⟩ := hr.error
    exact .inl ⟨e, _, [], Prod.ext he rfl, by simp, by simpa using h.refused hc hr⟩
  · have hs := h.recorded hc hw hr (by simp)
    cases hx : (f u.tape).1 with
    | error e => exact .inl ⟨e, _, [.data c], Prod.ext hx rfl, by simp, hs⟩
    | ok a => exact .inr ⟨_, Prod.ext hx rfl, hs⟩

/-- Data blocks go down one after the other, up to the first error. -/
theorem writeDataBlocks_session (answer : Nat → Answer) (bs : List Bytes) (k : Nat)
    (h : Session p b v ws u) :
    ∃ ds, ds <+: bs.map Record.data ∧ Session p b v (ws ++ ds) (writeDataBlocks answer bs k u).2 ∧
      ((writeDataBlocks answer bs k u).1 = .ok () → ds = bs.map Record.data) := by
  induction bs generalizing k ws u with
  | nil => exact ⟨[], by simp, by simpa [writeDataBlocks] using h, fun _ => rfl⟩
  | cons c cs ih =>
    obtain ⟨e, w, ds, hx, hds, hw⟩ | ⟨w, hx, hw⟩ := Session.data h c (answer k)
    · simp only [writeDataBlocks, hx, andThen_error]
      exact ⟨ds, hds.trans (by simp), hw, fun h => by cases h⟩
    · simp only [writeDataBlocks, hx, andThen_ok]
      obtain ⟨ds, hds, hsess, hall⟩ := ih (k + 1) hw
      refine ⟨.data c :: ds, by simpa using hds, by simpa using hsess, fun hok => ?_⟩
      rw [hall hok, List.map_cons]

/-- The volume is as before, except that it may be fenced or marked for revalidation. -/
def Fenced (v w : Volume) : Prop :=
  w = { v with tape := { v.tape with dev := { v.tape.dev with fence := w.tape.dev.fence } }, reval := w.reval }

theorem Fenced.refl (v : Volume) : Fenced v v := rfl

theorem outUnlock_fenced (r : Result) (v : Volume) : Fenced v (outUnlock (r, v)).2 := by
  unfold outUnlock
  cases r with
  | ok _ => rfl
  | error e =>
    simp only
    split
    · rfl
    · split <;> rfl

theorem outUnlock_ok {r : Result} {v : Volume} (h : (outUnlock (r, v)).1 = .ok ()) : r = .ok () := by
  unfold outUnlock at h
  cases r with
  | ok _ => rfl
  | error e =>
    simp only at h
    split at h
    · cases h
    · split at h <;> cases h

/-- The blocks that a data write is asked to record. -/
def dataRecords (v : Volume) (buf : Bytes) (repetitions : Nat) : List Record :=
  ((List.replicate repetitions (bufferBlocks v.label.blocksize buf)).flatten).map Record.data

/-- A data write is stopped by the locate, or some of its blocks get recorded. -/
theorem writeDataAtAppend_cases (p : Part) (buf : Bytes) (n : Nat) (io : DataIo) (hb : InBounds v.tape) :
    let x := writeDataAtAppend p buf n io v
    (∃ u, x.1 ≠ .ok () ∧ Idle p v u ∧ Fenced u x.2.2 ∧
      (v.tape.seekAppendPosition p (p = .ip) io.locate io.allowOverwrite).1 ≠ .ok ()) ∨
    (∃ u ds, ds <+: dataRecords v buf n ∧ Wrote p v ds u ∧ u.index = v.index ∧ Fenced u x.2.2 ∧
      (x.1 = .ok () → ds = dataRecords v buf n ∧ x.2.1 = appendBlock v.tape p)) := by
  have hsought := seekAppendPosition_spec hb p (p = .ip) io.locate io.allowOverwrite
  generalize hf : v.tape.seekAppendPosition p (p = .ip) io.locate io.allowOverwrite = y at hsought
  obtain ⟨r, t⟩ := y
  have hsent : Sent p (appendBlock v.tape p) v []
      ⟨.locate, v.tape.medium, t.medium, v.completed, v.index.root⟩ :=
    ⟨rfl, rfl, by simp, [], [], by simp, by simp, by simp, by simpa using hsought.medium⟩
  unfold writeDataAtAppend
  simp only [Volume.issue, hf]
  cases r with
  | error e =>
    left
    refine ⟨_, ?_, ?_, outUnlock_fenced _ _, by simp⟩
    · intro h
      cases outUnlock_ok h
    · exact ⟨rfl, hsought.medium, hsought.inBounds, hsought.append, hsought.limits, hsought.writeError,
        ⟨[_], rfl, by simpa using hsent⟩⟩
  | ok a =>
    right
    obtain ⟨hpart, hblock, happ⟩ : t.dev.part = p ∧ t.dev.block = appendBlock v.tape p ∧
      t.dev.appendPos = v.tape.dev.appendPos.set p (appendBlock v.tape p) := hsought.found rfl
    have hbound : appendBlock v.tape p ≤ (t.recs p).length := by
      have := hsought.inBounds
      simpa only [InBounds, hpart, hblock] using this
    simp only
    generalize hv₂ : ({ v with
      tape := t
      history := ⟨.locate, v.tape.medium, t.medium, v.completed, v.index.root⟩ :: v.history } : Volume) = v₂
    have hstart : Session p (appendBlock v.tape p) v₂ [] v₂ := by
      rw [← hv₂]
      exact .start hbound hpart hblock (by rw [happ]; simp)
    obtain ⟨ds, hds, hs, hall⟩ := writeDataBlocks_session io.block
      ((List.replicate n (bufferBlocks v.label.blocksize buf)).flatten) 0 hstart
    generalize writeDataBlocks io.block _ 0 v₂ = x at hs hall
    obtain ⟨r, u⟩ := x
    have hs : Session p (appendBlock v.tape p) v₂ ds u := hs
    refine ⟨u, ds, hds, ?_, ?_, outUnlock_fenced r u, fun hok => ⟨hall (outUnlock_ok hok), hblock⟩⟩
    · refine .of_session rfl ?_ ?_ ?_ ?_ ?_ ?_ ⟨[_], ?_, by simpa using hsent⟩ hs <;> rw [← hv₂]
      · exact hsought.medium
      · exact happ
      · exact hsought.limits
      · exact hsought.writeError
      · rfl
    · rw [hs.same, ← hv₂]

/-- A data write: refused at the start, stopped by the index write to the other partition, or carried
on behind it. -/
theorem ltfsFsrawWriteDataUnlocked_cases (p : Part) (buf : Bytes) (n : Nat) (io : DataIo) (v : Volume) :
    let x := ltfsFsrawWriteDataUnlocked p buf n io v
    (Fenced v x.2.2 ∧ (x.1 = .ok () → buf = [] ∨ n = 0)) ∨
    (∃ e w, ltfsWriteIndexConditional p.other io.index io.nested v = (.error e, w) ∧ x.1 ≠ .ok () ∧
      Fenced w x.2.2) ∨
    (∃ w, ltfsWriteIndexConditional p.other io.index io.nested v = (.ok (), w) ∧
      x = writeDataAtAppend p buf n io { w with indexFileEnd := w.indexFileEnd.set p false }) := by
  unfold ltfsFsrawWriteDataUnlocked
  split
  · rename_i h
    exact .inl ⟨.refl v, fun _ => h.imp List.eq_nil_of_length_eq_zero id⟩
  · split
    · exact .inl ⟨.refl v, fun h => by cases h⟩
    · split
      · exact .inl ⟨.refl v, fun h => by cases h⟩
      · simp only
        split
        · rename_i hro
          exact .inl ⟨outUnlock_fenced _ _, fun h => absurd (outUnlock_ok h) hro.1⟩
        · right
          cases hx : ltfsWriteIndexConditional p.other io.index io.nested v with
          | mk r w =>
            cases r with
            | error e =>
              left
              refine ⟨e, w, rfl, fun h => ?_, outUnlock_fenced _ _⟩
              cases outUnlock_ok h
            | ok a => exact .inr ⟨w, rfl, rfl⟩

/-- What every function of the library relies on: the cached position is on the medium, and blocks are
not larger than the device takes. -/
structure Sane (v : Volume) : Prop where
  inBounds : InBounds v.tape
  fits : FitsDevice v

theorem fits_of_limits (h : FitsDevice v) (hl : u.label = v.label)
    (hd : TapeSpec.limits u.tape.dev = TapeSpec.limits v.tape.dev) : FitsDevice u := by
  simp only [TapeSpec.limits, Prod.mk.injEq] at hd
  unfold FitsDevice
  rw [hl, hd.2.2.2]
  exact h

theorem Idle.sane (h : Idle p v u) (hs : Sane v) : Sane u :=
  ⟨h.inBounds, fits_of_limits hs.fits (by rw [h.same]) h.limits⟩

theorem Wrote.sane (h : Wrote p v ws u) (hs : Sane v) : Sane u := by
  refine ⟨?_, fits_of_limits hs.fits (by rw [h.same]) h.limits⟩
  unfold InBounds Tape.recs
  rw [h.part, h.block, h.medium, mediumAfter_get_self]
  exact length_record h.bound

theorem Finished.sane (h : Finished p v u) (hs : Sane v) : Sane u := by
  refine ⟨?_, fits_of_limits hs.fits h.label h.limits⟩
  unfold InBounds Tape.recs
  rw [h.part, h.block, h.recs]
  exact hs.inBounds

theorem Fenced.sane (h : Fenced v u) (hs : Sane v) : Sane u := by
  rw [h]
  exact ⟨hs.inBounds, hs.fits⟩

theorem writeIndexBody_sane (io : IndexIo) (p : Part) (hs : Sane v) : Sane (writeIndexBody p io v).2 := by
  obtain ⟨e, u, hx, hu, -⟩ | ⟨e, u, ws, hx, hu, -⟩ | ⟨u, ws, hx, hu, -⟩ :=
    writeIndexBody_cases io p hs.inBounds hs.fits
  · rw [hx]
    exact Idle.sane hu hs
  · rw [hx]
    exact Wrote.sane hu hs
  · rw [hx]
    obtain ⟨hb, hf⟩ := Finished.sane (finishIndex_finished p io u) (Wrote.sane hu hs)
    exact ⟨hb, hf⟩

end Ltfs.DataSession
