import Ltfs.IndexSession

namespace Ltfs.IndexBody

open Format Lib.Log Records TapeDevice TapeSpec WriteIndex WriteSession IndexSession

variable {p : Part} {v u w : Volume} {io : IndexIo} {vcr : Nat}

/-- The index that an index write to block `b` of `p` puts on tape. -/
def newIndex (p : Part) (now : Timespec) (v : Volume) : Index :=
  { bumpGeneration now v.isDirty v.index with
    backptr := if v.index.selfptr.partition = v.label.id .dp then v.index.selfptr else v.index.backptr
    selfptr := ⟨appendBlock v.tape p + 1, v.label.id p⟩ }

/-- Its document. -/
def newImage (p : Part) (io : IndexIo) (v : Volume) : Image :=
  schemaImage io { v with index := newIndex p io.now v }

/-- An index write that did not find its place. -/
structure Idle (p : Part) (v u : Volume) : Prop where
  same : u = { v with tape := u.tape, history := u.history }
  medium : u.tape.medium = v.tape.medium
  inBounds : InBounds u.tape
  append : u.tape.dev.appendPos = v.tape.dev.appendPos ∨
    u.tape.dev.appendPos = v.tape.dev.appendPos.set p (appendBlock v.tape p)
  limits : limits u.tape.dev = limits v.tape.dev
  writeError : u.tape.dev.writeError = v.tape.dev.writeError
  events : ∃ es, u.history = es ++ v.history ∧ ∀ e ∈ es, Sent p (appendBlock v.tape p) v [] e

/-- An index write that has put the records `ws` at the append position. The index in memory is left
out of the comparison. -/
structure Wrote (p : Part) (v : Volume) (ws : List Record) (u : Volume) : Prop where
  bound : appendBlock v.tape p ≤ (v.tape.recs p).length
  same : u = { v with tape := u.tape, index := u.index, history := u.history }
  root : u.index.root = v.index.root
  medium : u.tape.medium = mediumAfter v.tape.medium p (appendBlock v.tape p) ws
  part : u.tape.dev.part = p
  block : u.tape.dev.block = appendBlock v.tape p + ws.length
  append : u.tape.dev.appendPos = v.tape.dev.appendPos.set p (appendBlock v.tape p + ws.length)
  limits : limits u.tape.dev = limits v.tape.dev
  writeError : v.tape.dev.writeError = true → u.tape.dev.writeError = true
  writable : ws ≠ [] → Writable v.tape
  events : ∃ es, u.history = es ++ v.history ∧ ∀ e ∈ es, Sent p (appendBlock v.tape p) v ws e

theorem bumpGeneration_root (now : Timespec) (inc : Bool) (i : Index) :
    (bumpGeneration now inc i).root = i.root := by
  cases inc <;> rfl

/-- Undoing the new generation gives the old index back. -/
theorem restore_bump (now : Timespec) (inc : Bool) (i : Index) :
    restoreGeneration i inc (bumpGeneration now inc i) = i := by
  cases inc <;> simp [restoreGeneration, bumpGeneration]

/-- So does undoing the pointers as well, except for the creator. -/
theorem restore_index (now : Timespec) (p : Part) (v : Volume) (c : Bytes) :
    restorePointers v.index (restoreGeneration v.index v.isDirty { newIndex p now v with creator := c }) =
      { v.index with creator := c } := by
  unfold newIndex restorePointers restoreGeneration bumpGeneration
  split <;> simp

theorem setPointers_bump (now : Timespec) (v : Volume) {d : Device} (hp : d.part = p)
    (hb : d.block = appendBlock v.tape p) :
    setPointers v.label d (bumpGeneration now v.isDirty v.index) = newIndex p now v := by
  unfold setPointers newIndex
  rw [hp, hb]
  cases v.isDirty <;> rfl

/-- A session that starts where the append position of `v` was found is a write seen from `v`. -/
theorem Wrote.of_session {b : Nat} {v₁ : Volume} {ws : List Record} (hb : b = appendBlock v.tape p)
    (hm : v₁.tape.medium = v.tape.medium) (ha : v₁.tape.dev.appendPos = v.tape.dev.appendPos.set p b)
    (hl : TapeSpec.limits v₁.tape.dev = TapeSpec.limits v.tape.dev)
    (hw : v₁.tape.dev.writeError = v.tape.dev.writeError)
    (hs : v₁ = { v with tape := v₁.tape, index := v₁.index, history := v₁.history })
    (hr : v₁.index.root = v.index.root)
    (he : ∃ es, v₁.history = es ++ v.history ∧ ∀ e ∈ es, Sent p b v [] e)
    (h : Session p b v₁ ws u) : Wrote p v ws u := by
  subst hb
  have hsent : ∀ e, Sent p (appendBlock v.tape p) v₁ ws e → Sent p (appendBlock v.tape p) v ws e := by
    rintro e ⟨hc, hr', hq, ws₁, ws₂, hpre, hlen, hbef, haft⟩
    rw [hm] at hbef haft
    exact ⟨hc.trans (by rw [hs]), hr'.trans hr, hq, ws₁, ws₂, hpre, hlen, hbef, haft⟩
  obtain ⟨es₀, hes₀, hall₀⟩ := he
  obtain ⟨es, hes, hall⟩ := h.events
  have hwr : Writable v₁.tape → Writable v.tape := by
    simp only [TapeSpec.limits, Prod.mk.injEq] at hl
    exact fun h => ⟨hl.1.symm.trans h.1, hw.symm.trans h.2⟩
  refine ⟨?_, ?_, ?_, ?_, h.part, h.block, ?_, h.limits.trans hl, ?_, fun hn => hwr (h.writable hn),
    ⟨es ++ es₀, ?_, ?_⟩⟩
  · simpa only [Tape.recs, hm] using h.bound
  · rw [h.same, hs]
  · rw [h.same]
    exact hr
  · rw [h.medium, hm]
  · rw [h.append, ha, Sides.set_set]
  · exact fun hv => h.writeError (hw.trans hv)
  · rw [hes, hes₀, List.append_assoc]
  · intro e he
    obtain he | he := List.mem_append.mp he
    · exact hsent e (hall e he)
    · exact (hall₀ e he).mono ws

theorem Wrote.withIndex {ws : List Record} (h : Wrote p v ws u) {i : Index} (hi : i.root = v.index.root) :
    Wrote p v ws { u with index := i } := by
  obtain ⟨hb, hs, -, hm, hp, hk, ha, hl, hw, hn, he⟩ := h
  refine ⟨hb, ?_, hi, hm, hp, hk, ha, hl, hw, hn, he⟩
  rw [hs]

/-- The three ends of an index write: no place found, an error on the way, a complete call. -/
theorem writeIndexBody_cases (io : IndexIo) (p : Part) (hb : InBounds v.tape) (hv : FitsDevice v) :
    (∃ e u, writeIndexBody p io v = (.error e, u) ∧ Idle p v u ∧
      (v.tape.seekAppendPosition p (p = .ip) io.locate io.allowOverwrite).1 ≠ .ok ()) ∨
    (∃ e u ws, writeIndexBody p io v = (.error e, u) ∧ Wrote p v ws u ∧
      u.index = { v.index with creator := u.index.creator } ∧
      Outcome io (newImage p io v) u.tape (.error e) ws ∧
      (ws = [] → Writable v.tape → io.flushData.isGood = false ∨ io.openFm.isGood = false)) ∨
    (∃ u ws, writeIndexBody p io v = (.ok (), (finishIndex p io u).complete
        ⟨p, newImage p io v, v.isDirty, v.tape.recs .dp⟩) ∧ Wrote p v ws u ∧
      u.index = { (newImage p io v).index with creator := u.index.creator } ∧
      Outcome io (newImage p io v) u.tape (.ok ()) ws) := by
  have hsought := seekAppendPosition_spec hb p (p = .ip) io.locate io.allowOverwrite
  generalize hf : v.tape.seekAppendPosition p (p = .ip) io.locate io.allowOverwrite = y at hsought
  obtain ⟨r, t⟩ := y
  have hroot := bumpGeneration_root io.now v.isDirty v.index
  have hsent : Sent p (appendBlock v.tape p) v []
      ⟨.locate, v.tape.medium, t.medium, v.completed, (bumpGeneration io.now v.isDirty v.index).root⟩ :=
    ⟨rfl, hroot, by simp, [], [], by simp, by simp, by simp, by simpa using hsought.medium⟩
  unfold writeIndexBody
  simp only [Volume.issue, hf]
  cases r with
  | error e =>
    left
    refine ⟨e, _, rfl, ⟨?_, hsought.medium, hsought.inBounds, hsought.append, hsought.limits,
      hsought.writeError, ⟨[_], rfl, by simpa using hsent⟩⟩, by simp⟩
    rw [restore_bump]
  | ok a =>
    right
    obtain ⟨hpart, hblock, happ⟩ : t.dev.part = p ∧ t.dev.block = appendBlock v.tape p ∧
      t.dev.appendPos = v.tape.dev.appendPos.set p (appendBlock v.tape p) := hsought.found rfl
    have hbound : appendBlock v.tape p ≤ (t.recs p).length := by
      have := hsought.inBounds
      simpa only [InBounds, hpart, hblock] using this
    simp only [setPointers_bump io.now v hpart hblock]
    generalize hv₂ : ({ v with
      tape := t
      index := newIndex p io.now v
      history := ⟨.locate, v.tape.medium, t.medium, v.completed,
        (bumpGeneration io.now v.isDirty v.index).root⟩ :: v.history } : Volume) = v₂
    have hfits : FitsDevice v₂ := by
      have hl := hsought.limits
      simp only [TapeSpec.limits, Prod.mk.injEq] at hl
      unfold FitsDevice
      rw [← hv₂]
      exact hl.2.2.2 ▸ hv
    have himg : schemaImage io v₂ = newImage p io v := by
      rw [← hv₂]
      rfl
    have hdp : t.recs .dp = v.tape.recs .dp :=
      congrArg (fun m : Medium => m.recs.get .dp) hsought.medium
    have hstart : Session p (appendBlock v.tape p) v₂ [] v₂ := by
      rw [← hv₂]
      exact .start hbound hpart hblock (by rw [happ]; simp)
    obtain ⟨v₁, ws, hv₁, hs, hout, hempty⟩ := writeConstruct_session hstart hfits himg
    have hwrote : Wrote p v ws (writeConstruct p io v₂).2 := by
      have hr : (newIndex p io.now v).root = v.index.root := hroot
      refine .of_session rfl ?_ ?_ ?_ ?_ ?_ ?_ ⟨[_], ?_, by simpa using hsent⟩ hs <;>
        (obtain rfl | rfl := hv₁) <;> rw [← hv₂]
      all_goals first
        | rfl
        | exact hsought.medium
        | exact happ
        | exact hsought.limits
        | exact hsought.writeError
        | exact hr
    have hindex : (writeConstruct p io v₂).2.index =
        { newIndex p io.now v with creator := (writeConstruct p io v₂).2.index.creator } := by
      have hu : (writeConstruct p io v₂).2.index = v₁.index := by rw [hs.same]
      rw [hu]
      rw [← hv₂] at hv₁
      obtain rfl | rfl := hv₁ <;> rfl
    cases hx : writeConstruct p io v₂ with
    | mk r u =>
      rw [hx] at hwrote hindex hout
      cases r with
      | error e =>
        left
        have hi : restorePointers v.index (restoreGeneration v.index v.isDirty u.index) =
            { v.index with creator := u.index.creator } := by
          rw [hindex]
          exact restore_index io.now p v _
        refine ⟨e, _, ws, rfl, ?_, ?_, hout, fun hws hw => hempty hws ?_⟩
        · exact hwrote.withIndex (by rw [hi])
        · simp only [hi]
        · have hl := hsought.limits
          simp only [TapeSpec.limits, Prod.mk.injEq] at hl
          rw [← hv₂]
          exact ⟨hl.1.trans hw.1, hsought.writeError.trans hw.2⟩
      | ok a =>
        right
        simp only [himg, hdp]
        exact ⟨u, ws, rfl, hwrote, hindex, hout⟩

/-- A coherency attribute written for a partition that the flags of `v` call complete. -/
def Stamped (v : Volume) (e : Event) : Prop :=
  e.completed = v.completed ∧ e.root = v.index.root ∧
    ∃ q, e.command = .setCoherency q ∧ v.indexFileEnd.get q = true ∧
      e.before.recs = v.tape.medium.recs ∧ e.after.recs = v.tape.medium.recs ∧
      e.before.vcr = v.tape.medium.vcr ∧ e.after.vcr = v.tape.medium.vcr

/-- The attributes change, and nothing else does. -/
structure Stamps (v w : Volume) : Prop where
  same : w = { v with tape := w.tape, coh := w.coh, history := w.history }
  recs : w.tape.medium.recs = v.tape.medium.recs
  vcr : w.tape.medium.vcr = v.tape.medium.vcr
  dev : w.tape.dev = v.tape.dev
  events : ∃ es, w.history = es ++ v.history ∧ ∀ e ∈ es, Stamped v e

theorem Stamps.refl (v : Volume) : Stamps v v :=
  ⟨rfl, rfl, rfl, rfl, [], rfl, by simp⟩

theorem Stamps.trans (h : Stamps v u) (h' : Stamps u w) : Stamps v w := by
  obtain ⟨es, hes, hall⟩ := h.events
  obtain ⟨es', hes', hall'⟩ := h'.events
  refine ⟨?_, h'.recs.trans h.recs, h'.vcr.trans h.vcr, h'.dev.trans h.dev, ⟨es' ++ es, ?_, ?_⟩⟩
  · rw [h'.same, h.same]
  · rw [hes', hes, List.append_assoc]
  · intro e he
    obtain he | he := List.mem_append.mp he
    · obtain ⟨hc, hr, q, hq, hf, hb⟩ := hall' e he
      rw [h.recs, h.vcr] at hb
      exact ⟨hc.trans (by rw [h.same]), hr.trans (by rw [h.same]), q, hq, by rw [h.same] at hf; exact hf, hb⟩
    · exact hall e he

theorem stampCoherency_stamps (q : Part) : Stamps v (stampCoherency vcr io q v) := by
  unfold stampCoherency
  split
  · rename_i hq
    cases ha : io.coh q with
    | fail e =>
      exact ⟨rfl, rfl, rfl, rfl, [_], rfl, by simpa [Stamped, Tape.setCartCoherency] using hq⟩
    | good early prog =>
      exact ⟨rfl, rfl, rfl, rfl, [_], rfl, by simpa [Stamped, Tape.setCartCoherency] using hq⟩
  · exact .refl v

theorem ltfsUpdateCartCoherency_stamps (io : IndexIo) : Stamps v (ltfsUpdateCartCoherency io v) := by
  unfold ltfsUpdateCartCoherency
  split
  · exact .refl v
  · exact .refl v
  · exact (stampCoherency_stamps .ip).trans (stampCoherency_stamps .dp)

/-- The last part of a successful call. -/
structure Finished (p : Part) (u w : Volume) : Prop where
  label : w.label = u.label
  creator : w.creator = u.creator
  index : w.index = { u.index with dirty := false, atimeDirty := false, version := 20200 }
  flags : w.indexFileEnd = u.indexFileEnd.set p true
  reval : w.reval = u.reval
  completed : w.completed = u.completed
  ledger : w.ledger = u.ledger
  recs : w.tape.medium.recs = u.tape.medium.recs
  vcr : w.tape.medium.vcr = u.tape.medium.vcr
  part : w.tape.dev.part = u.tape.dev.part
  block : w.tape.dev.block = u.tape.dev.block
  limits : limits w.tape.dev = limits u.tape.dev
  writeError : w.tape.dev.writeError = u.tape.dev.writeError
  append : w.tape.dev.appendPos =
    if p = .ip then u.tape.dev.appendPos.set .ip (u.index.selfptr.block - 1) else u.tape.dev.appendPos
  events : ∃ es, w.history = es ++ u.history ∧
    ∀ e ∈ es, Stamped { u with indexFileEnd := u.indexFileEnd.set p true } e

theorem finishIndex_finished (p : Part) (io : IndexIo) (u : Volume) : Finished p u (finishIndex p io u) := by
  unfold finishIndex
  have h := ltfsUpdateCartCoherency_stamps io
    (v := { u with indexFileEnd := u.indexFileEnd.set p true })
  generalize ltfsUpdateCartCoherency io { u with indexFileEnd := u.indexFileEnd.set p true } = w at h
  obtain ⟨hs, hr, hv, hd, hev⟩ := h
  have hd : w.tape.dev = u.tape.dev := hd
  have hi : w.index = u.index := by rw [hs]
  unfold settleIndex
  rw [hi]
  refine ⟨by rw [hs], by rw [hs], rfl, by rw [hs], by rw [hs], by rw [hs], by rw [hs], ?_, ?_, ?_, ?_, ?_, ?_,
    ?_, hev⟩ <;> cases p <;> simp [Tape.setAppendPosition, hd, hr, hv, TapeSpec.limits]

end Ltfs.IndexBody
