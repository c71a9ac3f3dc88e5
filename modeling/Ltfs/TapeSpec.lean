import Ltfs.TapeDevice

namespace Ltfs.TapeSpec

open Format Lib.Log Records TapeDevice

/-- The medium after the records `ws` have gone to partition `p` from block `b` on. -/
def mediumAfter (m : Medium) (p : Part) (b : Nat) (ws : List Record) : Medium :=
  { m with recs := m.recs.set p (record (m.recs.get p) b ws), vcr := m.vcr + ws.length }

section

variable (m : Medium) (p : Part) (b : Nat) (ws : List Record)

@[simp] theorem mediumAfter_nil : mediumAfter m p b [] = m := by
  simp [mediumAfter]

@[simp] theorem mediumAfter_coh : (mediumAfter m p b ws).coh = m.coh := rfl

@[simp] theorem mediumAfter_vcr : (mediumAfter m p b ws).vcr = m.vcr + ws.length := rfl

@[simp] theorem mediumAfter_get_self :
    (mediumAfter m p b ws).recs.get p = record (m.recs.get p) b ws := by
  simp [mediumAfter]

@[simp] theorem mediumAfter_get_other : (mediumAfter m p b ws).recs.get p.other = m.recs.get p.other := by
  simp [mediumAfter]

theorem mediumAfter_mediumAfter (h : b ≤ (m.recs.get p).length) (vs : List Record) :
    mediumAfter (mediumAfter m p b ws) p (b + ws.length) vs = mediumAfter m p b (ws ++ vs) := by
  simp [mediumAfter, record_record h, Nat.add_assoc]

end

/-- What no command changes. -/
def limits (d : Device) : Bool × Bool × Bool × Nat :=
  (d.writeProtect, d.fence, d.appendOnlyMode, d.maxBlockSize)

/-- A command that the library or the drive refused. -/
structure Refused (t : Tape) (x : Result × Tape) : Prop where
  error : ∃ e, x.1 = .error e
  medium : x.2.medium = t.medium
  part : x.2.dev.part = t.dev.part
  block : x.2.dev.block = t.dev.block
  append : x.2.dev.appendPos = t.dev.appendPos
  limits : limits x.2.dev = limits t.dev
  writeError : t.dev.writeError = true → x.2.dev.writeError = true

/-- A command that put the records `ws` on the medium at the current position. -/
structure Recorded (t : Tape) (ws : List Record) (x : Result × Tape) : Prop where
  medium : x.2.medium = mediumAfter t.medium t.dev.part t.dev.block ws
  part : x.2.dev.part = t.dev.part
  block : x.2.dev.block = t.dev.block + ws.length
  append : x.2.dev.appendPos = t.dev.appendPos.set t.dev.part (t.dev.block + ws.length)
  limits : limits x.2.dev = limits t.dev
  writeError : x.2.dev.writeError = t.dev.writeError

/-- Neither write protection nor an earlier error stands in the way of a write. -/
def Writable (t : Tape) : Prop :=
  t.dev.writeProtect = false ∧ t.dev.writeError = false

variable {t : Tape} {r : Record} {n : Nat} {less nospc : Bool} {a : Answer}

theorem warningResult_ignore (early prog : Bool) : Tape.warningResult early prog true true = .ok () := by
  cases early <;> cases prog <;> rfl

theorem noteSpace_spec (t : Tape) (early prog : Bool) :
    (t.noteSpace early prog).medium = t.medium ∧ (t.noteSpace early prog).dev.part = t.dev.part ∧
    (t.noteSpace early prog).dev.block = t.dev.block ∧
    (t.noteSpace early prog).dev.appendPos = t.dev.appendPos ∧
    limits (t.noteSpace early prog).dev = limits t.dev ∧
    (t.noteSpace early prog).dev.writeError = t.dev.writeError := by
  unfold Tape.noteSpace
  split <;> [skip; split] <;> exact ⟨rfl, rfl, rfl, rfl, rfl, rfl⟩

theorem writeCheck_writable (h : Writable t) : t.writeCheck true true = .ok () := by
  simp [Tape.writeCheck, h.1, h.2]

theorem Writable.of_writeCheck (h : t.writeCheck less nospc = .ok ()) : Writable t := by
  unfold Tape.writeCheck at h
  split at h
  · cases h
  · split at h
    · cases h
    · exact ⟨by simpa using ‹¬ t.dev.writeProtect = true›, by simpa using ‹¬ t.dev.writeError = true›⟩

theorem refused_same (e : Errno) : Refused t (.error e, t) :=
  ⟨⟨e, rfl⟩, rfl, rfl, rfl, rfl, rfl, id⟩

theorem refused_noteWriteError (e : Errno) : Refused t (.error e, t.noteWriteError e) := by
  unfold Tape.noteWriteError
  split
  · exact refused_same e
  · exact ⟨⟨e, rfl⟩, rfl, rfl, rfl, rfl, rfl, fun _ => rfl⟩

theorem recorded_note (ws : List Record) (s : Tape) (early prog : Bool) (res : Result)
    (hm : s.medium = mediumAfter t.medium t.dev.part t.dev.block ws)
    (hd : s.dev = { t.dev with block := t.dev.block + ws.length }) :
    Recorded t ws (res, (s.noteSpace early prog).setAppendPosition (s.noteSpace early prog).dev.part
      (s.noteSpace early prog).dev.block) := by
  obtain ⟨nm, np, nb, na, nl, ne⟩ := noteSpace_spec s early prog
  refine ⟨nm.trans hm, ?_, ?_, ?_, ?_, ?_⟩
  · exact np.trans (by rw [hd])
  · exact nb.trans (by rw [hd])
  · simp only [Tape.setAppendPosition, np, nb, na, hd]
  · exact nl.trans (by rw [hd]; rfl)
  · exact ne.trans (by rw [hd])

/-- A block is refused or recorded. -/
theorem write_cases (t : Tape) (r : Record) (n : Nat) (less nospc : Bool) (a : Answer) :
    Refused t (t.write r n less nospc a) ∨
      a.isGood = true ∧ Writable t ∧ Recorded t [r] (t.write r n less nospc a) := by
  unfold Tape.write
  cases hc : t.writeCheck less nospc with
  | error e => exact .inl (refused_same e)
  | ok u =>
    by_cases hn : t.dev.maxBlockSize < n
    · simp only [hn, if_true]
      exact .inl (refused_same _)
    · simp only [hn, if_false]
      cases a with
      | fail e => exact .inl (refused_noteWriteError e)
      | good early prog =>
        exact .inr ⟨rfl, .of_writeCheck hc, recorded_note [r] (t.record r) early prog _ rfl rfl⟩

/-- A write that ignores the space warnings: it fails, and then the answer `a` was a failure unless
writing was already ruled out, or it records `ws`. -/
def Attempt (t : Tape) (ws : List Record) (a : Answer) (x : Result × Tape) : Prop :=
  (∃ e, x.1 = .error e ∧ Refused t x ∧
    (Writable t → a = .fail e ∧ (e.needReval = true ∨ x.2.dev.writeError = true))) ∨
  (x.1 = .ok () ∧ a.isGood = true ∧ Writable t ∧ Recorded t ws x)

theorem writeCheck_not_writable (less nospc : Bool) (h : ¬ Writable t) : ∃ e, t.writeCheck less nospc = .error e := by
  cases hc : t.writeCheck less nospc with
  | error e => exact ⟨e, rfl⟩
  | ok u => exact absurd (.of_writeCheck hc) h

theorem attempt_fail (t : Tape) (ws : List Record) (e : Errno) :
    Attempt t ws (.fail e) (.error e, t.noteWriteError e) := by
  refine .inl ⟨e, rfl, refused_noteWriteError e, fun _ => ⟨rfl, ?_⟩⟩
  unfold Tape.noteWriteError
  split
  · exact .inl ‹_›
  · exact .inr rfl

theorem attempt_write (t : Tape) (r : Record) (hn : n ≤ t.dev.maxBlockSize) (a : Answer) :
    Attempt t [r] a (t.write r n true true a) := by
  by_cases h : Writable t
  · have hn : ¬ t.dev.maxBlockSize < n := by omega
    cases a with
    | fail e => simpa [Tape.write, writeCheck_writable h, hn] using attempt_fail t [r] e
    | good early prog =>
      refine .inr ⟨?_, rfl, h, ?_⟩
      · simp [Tape.write, writeCheck_writable h, hn, warningResult_ignore]
      · simp only [Tape.write, writeCheck_writable h, hn, if_false]
        exact recorded_note [r] (t.record r) early prog _ rfl rfl
  · obtain ⟨e, he⟩ := writeCheck_not_writable true true h
    have hx : t.write r n true true a = (.error e, t) := by simp [Tape.write, he]
    rw [hx]
    exact .inl ⟨e, rfl, refused_same e, fun hw => absurd hw h⟩

theorem attempt_writeFilemark (t : Tape) {k : Nat} (hk : k ≤ 1) (a : Answer) :
    Attempt t (List.replicate k .filemark) a (t.writeFilemark k true true a) := by
  by_cases h : Writable t
  · cases a with
    | fail e =>
      simpa [Tape.writeFilemark, writeCheck_writable h] using attempt_fail t (List.replicate k .filemark) e
    | good early prog =>
      refine .inr ⟨?_, rfl, h, ?_⟩
      · simp [Tape.writeFilemark, writeCheck_writable h, warningResult_ignore]
      · simp only [Tape.writeFilemark, writeCheck_writable h]
        obtain rfl | rfl : k = 0 ∨ k = 1 := by omega
        · exact recorded_note [] t early prog _ (by simp) rfl
        · exact recorded_note [.filemark] (t.record .filemark) early prog _ rfl rfl
  · obtain ⟨e, he⟩ := writeCheck_not_writable true true h
    have hx : t.writeFilemark k true true a = (.error e, t) := by simp [Tape.writeFilemark, he]
    rw [hx]
    exact .inl ⟨e, rfl, refused_same e, fun hw => absurd hw h⟩

/-- The head stands inside the recorded part of its partition, or right behind it. -/
def InBounds (t : Tape) : Prop :=
  t.dev.block ≤ (t.recs t.dev.part).length

/-- The block that the append position of a partition stands for. -/
def appendBlock (t : Tape) (p : Part) : Nat :=
  if t.dev.appendPos.get p = 0 then (t.recs p).length else t.dev.appendPos.get p

/-- Where `tape_seek` leaves the head. -/
theorem seek_spec (h : InBounds t) (p : Part) (target : Target) (a : Answer) :
    let x := t.seek p target a
    x.2.medium = t.medium ∧ limits x.2.dev = limits t.dev ∧ x.2.dev.writeError = t.dev.writeError ∧
    x.2.dev.appendPos = t.dev.appendPos ∧ InBounds x.2 ∧
    (x.1 = .ok () → x.2.dev.part = p ∧
      x.2.dev.block = match target with
        | .block b => b
        | .eod => (t.recs p).length) := by
  unfold Tape.seek
  split
  · rename_i hp
    refine ⟨rfl, rfl, rfl, rfl, h, fun _ => ⟨hp.1, ?_⟩⟩
    rw [hp.2]
  · cases a with
    | fail e => exact ⟨rfl, rfl, rfl, rfl, h, fun h => by cases h⟩
    | good early prog =>
      cases target with
      | eod => exact ⟨rfl, rfl, rfl, rfl, Nat.le_refl _, fun _ => ⟨rfl, rfl⟩⟩
      | block b =>
        simp only
        split
        · rename_i hb
          exact ⟨rfl, rfl, rfl, rfl, Nat.min_le_right _ _, fun _ => ⟨rfl, hb.symm⟩⟩
        · exact ⟨rfl, rfl, rfl, rfl, Nat.min_le_right _ _, fun h => by cases h⟩

/-- A search for the append position moves the head and touches nothing else. -/
structure Sought (t : Tape) (p : Part) (x : Result × Tape) : Prop where
  medium : x.2.medium = t.medium
  limits : limits x.2.dev = limits t.dev
  writeError : x.2.dev.writeError = t.dev.writeError
  inBounds : InBounds x.2
  append : x.2.dev.appendPos = t.dev.appendPos ∨ x.2.dev.appendPos = t.dev.appendPos.set p (appendBlock t p)
  found : x.1 = .ok () → x.2.dev.part = p ∧ x.2.dev.block = appendBlock t p ∧
    x.2.dev.appendPos = t.dev.appendPos.set p (appendBlock t p)

theorem noteAppendPosition_spec (t : Tape) (p : Part) :
    (t.noteAppendPosition p).medium = t.medium ∧ limits (t.noteAppendPosition p).dev = limits t.dev ∧
    (t.noteAppendPosition p).dev.writeError = t.dev.writeError ∧
    (t.noteAppendPosition p).dev.part = t.dev.part ∧ (t.noteAppendPosition p).dev.block = t.dev.block ∧
    (t.noteAppendPosition p).dev.appendPos =
      t.dev.appendPos.set p (if t.dev.appendPos.get p = 0 then t.dev.block else t.dev.appendPos.get p) := by
  unfold Tape.noteAppendPosition
  split <;> simp [Tape.setAppendPosition, limits]

theorem seekAppendPosition_spec (h : InBounds t) (p : Part) (unlock : Bool) (a allow : Answer) :
    Sought t p (t.seekAppendPosition p unlock a allow) := by
  have hs := seek_spec h p (t.appendTarget p) a
  unfold Tape.seekAppendPosition
  cases hx : t.seek p (t.appendTarget p) a with
  | mk r s =>
    rw [hx] at hs
    obtain ⟨hm, hl, he, ha, hb, hok⟩ := hs
    cases r with
    | error e => exact ⟨hm, hl, he, hb, .inl ha, fun h => by cases h⟩
    | ok u =>
      obtain ⟨hp, hblk⟩ := hok rfl
      have hblk : s.dev.block = appendBlock t p := by
        by_cases h0 : t.dev.appendPos.get p = 0
        · simpa only [Tape.appendTarget, appendBlock, h0, if_true] using hblk
        · simpa only [Tape.appendTarget, appendBlock, h0, if_false] using hblk
      obtain ⟨nm, nl, ne, np, nb, na⟩ := noteAppendPosition_spec s p
      have happ : (s.noteAppendPosition p).dev.appendPos = t.dev.appendPos.set p (appendBlock t p) := by
        rw [na, ha, hblk]
        unfold appendBlock
        split <;> rfl
      refine ⟨nm.trans hm, nl.trans hl, ne.trans he, ?_, .inr happ,
        fun _ => ⟨np.trans hp, nb.trans hblk, happ⟩⟩
      simpa only [InBounds, Tape.recs, nm, np, nb] using hb

/-- A drive that carries out the commands finds the append position. -/
theorem seekAppendPosition_good {p : Part} (unlock : Bool) {a allow : Answer}
    (hp : appendBlock t p ≤ (t.recs p).length) (ha : a.isGood = true) (hl : allow.isGood = true) :
    (t.seekAppendPosition p unlock a allow).1 = .ok () := by
  have hseek : (t.seek p (t.appendTarget p) a).1 = .ok () := by
    unfold Tape.seek
    split
    · rfl
    · cases a with
      | fail e => cases ha
      | good early prog =>
        by_cases h0 : t.dev.appendPos.get p = 0
        · simp [Tape.appendTarget, h0]
        · simp only [appendBlock, h0, if_false] at hp
          simp [Tape.appendTarget, h0, Tape.noteWarnings, Tape.locate, hp]
  unfold Tape.seekAppendPosition
  cases hx : t.seek p (t.appendTarget p) a with
  | mk r s =>
    rw [hx] at hseek
    cases r with
    | error e => cases hseek
    | ok u =>
      simp only [Tape.allowOverwrite]
      split
      · cases allow with
        | fail e => cases hl
        | good _ _ => rfl
      · rfl

end Ltfs.TapeSpec
