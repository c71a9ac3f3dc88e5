import Mathlib
import Ltfs.DataSession
import Ltfs.Lib.Run

namespace Ltfs.VolumeRun

open Format Records TapeDevice TapeSpec WriteIndex IndexSession IndexBody DataSession

/-- What can happen to a mounted volume: a data write, an index write asked for by a caller, by
`ltfs_sync_index` or by `ltfs_unmount`, and a change of the directory tree in memory. -/
inductive Act where
  | data (p : Part) (buf : Bytes) (repetitions : Nat) (io : DataIo)
  | index (p : Part) (io nested : IndexIo)
  | sync (io nested : IndexIo)
  | unmount (io nested : IndexIo)
  | edit (root : Dentry) (atime : Bool)

/-- A change of the tree with the flag that `ltfs_set_index_dirty` raises for it. -/
def editIndex (root : Dentry) (atime : Bool) (v : Volume) : Volume :=
  { v with index := { v.index with
      root := root
      dirty := v.index.dirty || !atime
      atimeDirty := v.index.atimeDirty || atime
      version := if atime ∧ v.index.useAtime = false then v.index.version else 20200 } }

def step (v : Volume) : Act → Volume
  | .data p buf n io => (ltfsFsrawWriteDataUnlocked p buf n io v).2.2
  | .index p io nested => (ltfsWriteIndex p io nested v).2
  | .sync io nested => (ltfsSyncIndex io nested v).2
  | .unmount io nested => (ltfsUnmount io nested v).2
  | .edit root atime => editIndex root atime v

variable (v : Volume) (p : Part) (io nested : IndexIo)

/-- An index write: refused, one construct, or a construct on the data partition with or without the
one on the index partition behind it. -/
theorem ltfsWriteIndex_cases :
    (∃ e, ltfsWriteIndex p io nested v = (.error e, v) ∧ indexReadonly v = .error e) ∨
    (indexReadonly v = .ok () ∧ ¬ (p = .ip ∧ needsDpIndex v = true) ∧
      ltfsWriteIndex p io nested v = writeIndexBody p io v) ∨
    (indexReadonly v = .ok () ∧ p = .ip ∧ needsDpIndex v = true ∧
      ((∃ e w, writeIndexBody .dp nested v = (.error e, w) ∧
          (ltfsWriteIndex p io nested v = (.error e, w) ∨
            ltfsWriteIndex p io nested v = (.error e, { w with reval := true }))) ∨
        ltfsWriteIndex p io nested v = writeIndexBody .ip io (writeIndexBody .dp nested v).2)) := by
  unfold ltfsWriteIndex
  cases hr : indexReadonly v with
  | error e => exact .inl ⟨e, rfl, rfl⟩
  | ok a =>
    right
    simp only
    split
    · rename_i hn
      right
      refine ⟨trivial, hn.1, hn.2, ?_⟩
      rw [hn.1]
      cases hx : writeIndexBody .dp nested v with
      | mk r w =>
        cases r with
        | ok a => exact .inr rfl
        | error e =>
          simp only
          split
          · exact .inl ⟨e, w, rfl, .inl rfl⟩
          · split
            · exact .inl ⟨e, w, rfl, .inr rfl⟩
            · exact .inr rfl
    · rename_i hn
      exact .inl ⟨trivial, hn, rfl⟩

theorem ltfsWriteIndexConditional_cases :
    ltfsWriteIndexConditional p io nested v = (.ok (), v) ∨
    ltfsWriteIndexConditional p io nested v = ltfsWriteIndex p io nested v ∧
      (p = .ip → v.indexFileEnd.ip = false) ∧ (p = .dp → needsDpIndex v = true) := by
  unfold ltfsWriteIndexConditional
  cases p with
  | ip => cases h : v.indexFileEnd.ip <;> simp
  | dp => cases h : needsDpIndex v <;> simp

/-- The partition that `ltfs_sync_index` writes to. -/
def syncTarget : Part :=
  if v.indexFileEnd.dp ∧ v.indexFileEnd.ip = false then .ip else .dp

theorem ltfsSyncIndex_cases :
    (ltfsSyncIndex io nested v).2 = v ∨
    v.index.dirty = true ∧
      ((ltfsSyncIndex io nested v).2 = (ltfsWriteIndex (syncTarget v) io nested v).2 ∨
        (ltfsSyncIndex io nested v).2 = { (ltfsWriteIndex (syncTarget v) io nested v).2 with reval := true }) := by
  unfold ltfsSyncIndex
  split
  · exact .inl rfl
  · split
    · split
      · exact .inl rfl
      · right
        refine ⟨‹_›, ?_⟩
        simp only [syncTarget]
        generalize ltfsWriteIndex _ io nested v = x
        obtain ⟨r, w⟩ := x
        cases r with
        | ok a => exact .inl rfl
        | error e =>
          simp only
          split
          · exact .inr rfl
          · exact .inl rfl
    · exact .inl rfl

theorem ltfsUnmount_cases :
    (ltfsUnmount io nested v).2 = v ∨
    (v.isDirty = true ∨ v.selfptrIn .ip = false) ∧ ∃ r,
      (ltfsUnmount io nested v).2 = { (ltfsWriteIndex .ip io nested v).2 with reval := r } := by
  unfold ltfsUnmount
  split
  · exact .inl rfl
  · split
    · right
      refine ⟨‹_›, ?_⟩
      generalize ltfsWriteIndex .ip io nested v = x
      obtain ⟨r, w⟩ := x
      cases r with
      | ok a => exact ⟨false, rfl⟩
      | error e =>
        simp only
        split
        · exact ⟨true, rfl⟩
        · exact ⟨w.reval, rfl⟩
    · exact .inl rfl

section Sample

def good : Answer :=
  .good false false

/-- A drive that carries out every command of an index write, for a document of one block. -/
def goodIo : IndexIo where
  reason := []
  now := ⟨0, 0⟩
  xml := ⟨1, none, fun _ => none, .inl Nat.one_pos⟩
  locate := good
  allowOverwrite := good
  flushData := good
  openFm := good
  block := fun _ => good
  rest := good
  closeFm := good
  flushFm := good
  vcr := good
  coh := fun _ => good

/-- An index write that a reset stops at its first block. -/
def brokenIo : IndexIo :=
  { goodIo with block := fun _ => .fail .porOrBusReset }

def goodDataIo : DataIo :=
  ⟨goodIo, goodIo, good, good, fun _ => good⟩

def sampleRoot : Dentry :=
  .dir ⟨[], 1, false, ⟨0, 0⟩, ⟨0, 0⟩, ⟨0, 0⟩, ⟨0, 0⟩, ⟨0, 0⟩, [], []⟩ []

def sampleIndex (generation : UInt32) (self back : TapeOffset) : Index where
  creator := []
  volUuid := []
  volumeName := none
  generation := generation
  modTime := ⟨0, 0⟩
  selfptr := self
  backptr := back
  criteriaAllowUpdate := true
  originalCriteria := ⟨false, 0, []⟩
  root := sampleRoot
  dirty := false
  atimeDirty := false
  useAtime := false
  uidNumber := 1
  commitMessage := none
  version := 20200
  preservedTags := []

def sampleLabel : Label :=
  ⟨'a', 'b', 1, Label.a_ne_b, Label.a_ne_nul, Label.b_ne_nul, Nat.one_pos⟩

/-- The label construct at the start of a partition. -/
def labelRecords : List Record :=
  [.label, .filemark, .label, .filemark]

/-- A volume with an index of generation `g` on the index partition and a newer one, of generation
`g + 1`, on the data partition. -/
def sample (g : UInt32) : Volume where
  label := sampleLabel
  creator := []
  tape := {
    dev := ⟨.ip, 0, ⟨4, 7⟩, ⟨.writable, .writable⟩, false, false, false, false, 1⟩
    medium := {
      recs := ⟨labelRecords ++ construct ⟨sampleIndex g ⟨5, 'a'⟩ .null, 1, Nat.one_pos⟩,
        labelRecords ++ construct ⟨sampleIndex (g + 1) ⟨5, 'b'⟩ .null, 1, Nat.one_pos⟩⟩
      coh := ⟨⟨1, g.toNat, 5, 1⟩, ⟨1, (g + 1).toNat, 5, 1⟩⟩
      vcr := 1 } }
  index := sampleIndex (g + 1) ⟨5, 'b'⟩ .null
  indexFileEnd := ⟨true, true⟩
  coh := ⟨⟨1, g.toNat, 5, 1⟩, ⟨1, (g + 1).toNat, 5, 1⟩⟩
  reval := false
  completed := g + 1
  ledger := []
  history := []

theorem sample_sane (g : UInt32) : Sane (sample g) :=
  ⟨Nat.zero_le _, Nat.le_refl 1⟩

end Sample

section Lift

variable {v p io nested}

/-- A call that returned 0 has raised its flag and left the self pointer on its partition. -/
theorem writeIndexBody_ok {w : Volume} (hb : InBounds v.tape) (hv : FitsDevice v)
    (h : writeIndexBody p io v = (.ok (), w)) :
    w.indexFileEnd = v.indexFileEnd.set p true ∧ w.index.selfptr.partition = v.label.id p ∧ w.label = v.label := by
  obtain ⟨e, u, hx, -⟩ | ⟨e, u, ws, hx, -⟩ | ⟨u, ws, hx, hw, hi, -⟩ := writeIndexBody_cases io p hb hv
  · rw [h] at hx
    cases hx
  · rw [h] at hx
    cases hx
  · rw [h] at hx
    obtain rfl : w = _ := congrArg Prod.snd hx
    have hf := finishIndex_finished p io u
    refine ⟨hf.flags.trans (by rw [hw.same]), ?_, hf.label.trans (by rw [hw.same])⟩
    change (finishIndex p io u).index.selfptr.partition = _
    rw [hf.index, hi]
    rfl

/-- What the index writes of one call have to meet. -/
def IndexMeets (ok : Part → IndexIo → Volume → Prop) (p : Part) (io nested : IndexIo) (v : Volume) : Prop :=
  indexReadonly v = .ok () →
    if p = .ip ∧ needsDpIndex v = true then ok .dp nested v ∧ ok .ip io (writeIndexBody .dp nested v).2
    else ok p io v

theorem ltfsWriteIndex_lift {Inv : Volume → Prop} {ok : Part → IndexIo → Volume → Prop}
    (hbody : ∀ v p io, Inv v → ok p io v → Inv (writeIndexBody p io v).2)
    (hreval : ∀ v r, Inv v → Inv { v with reval := r }) (h : Inv v) (hok : IndexMeets ok p io nested v) :
    Inv (ltfsWriteIndex p io nested v).2 := by
  obtain ⟨e, hx, -⟩ | ⟨hr, hn, hx⟩ | ⟨hr, rfl, hn, hx⟩ := ltfsWriteIndex_cases v p io nested
  · rw [hx]
    exact h
  · rw [hx]
    have := hok hr
    rw [if_neg hn] at this
    exact hbody v p io h this
  · have := hok hr
    rw [if_pos ⟨rfl, hn⟩] at this
    have hdp := hbody v .dp nested h this.1
    obtain ⟨e, w, hw, hx | hx⟩ | hx := hx
    · rw [hx]
      rw [hw] at hdp
      exact hdp
    · rw [hx]
      rw [hw] at hdp
      exact hreval w true hdp
    · rw [hx]
      exact hbody _ .ip io hdp this.2

/-- When `ltfs_write_index_conditional` has something to write. -/
def conditionalWrites (p : Part) (v : Volume) : Prop :=
  (p = .ip → v.indexFileEnd.ip = false) ∧ (p = .dp → needsDpIndex v = true)

theorem needsDpIndex_false (hd : v.indexFileEnd.dp = true) (hs : v.selfptrIn .ip = false) :
    needsDpIndex v = false := by
  simp [needsDpIndex, hd, hs]

theorem selfptrIn_of_eq (h : v.index.selfptr.partition = v.label.id p) (q : Part) :
    v.selfptrIn q = decide (p = q) := by
  simp [Volume.selfptrIn, h]

/-- Before data goes to a partition, the other one ends in an index, and the data partition in one that
is newer than the one on the index partition. -/
theorem ltfsWriteIndexConditional_ok {w : Volume} (hs : Sane v)
    (h : ltfsWriteIndexConditional p io nested v = (.ok (), w)) :
    w.indexFileEnd.get p = true ∧ (p = .dp → needsDpIndex w = false) := by
  have hbody : ∀ {v : Volume}, Sane v → ∀ {io : IndexIo} {p : Part}, writeIndexBody p io v = (.ok (), w) →
      w.indexFileEnd.get p = true ∧ (p = .dp → needsDpIndex w = false) := by
    intro v hs io p hx
    obtain ⟨hf, hself, hl⟩ := writeIndexBody_ok hs.inBounds hs.fits hx
    refine ⟨by simp [hf], ?_⟩
    rintro rfl
    refine needsDpIndex_false (by simp [hf, Sides.set]) ?_
    rw [selfptrIn_of_eq (p := .dp) (hself.trans (by rw [hl]))]
    rfl
  unfold ltfsWriteIndexConditional at h
  have hwrite : ltfsWriteIndex p io nested v = (.ok (), w) →
      w.indexFileEnd.get p = true ∧ (p = .dp → needsDpIndex w = false) := by
    intro h
    obtain ⟨e, hx, -⟩ | ⟨-, -, hx⟩ | ⟨-, rfl, -, hx⟩ := ltfsWriteIndex_cases v p io nested
    · rw [h] at hx
      cases hx
    · exact hbody hs (hx.symm.trans h)
    · obtain ⟨e, w', -, hx | hx⟩ | hx := hx
      · rw [h] at hx
        cases hx
      · rw [h] at hx
        cases hx
      · exact hbody (writeIndexBody_sane nested .dp hs) (hx.symm.trans h)
  cases p with
  | ip =>
    simp only at h
    split at h
    · obtain rfl : v = w := congrArg Prod.snd h
      exact ⟨‹_›, fun h => by cases h⟩
    · exact hwrite h
  | dp =>
    simp only at h
    split at h
    · exact hwrite h
    · rename_i hn
      obtain rfl : v = w := congrArg Prod.snd h
      refine ⟨?_, fun _ => by simpa using hn⟩
      simp only [needsDpIndex, Bool.or_eq_true, Bool.not_eq_true', not_or, Bool.not_eq_false] at hn
      exact hn.1

/-- The index write that an action leads to meets `C`. -/
def CallMeets (C : Part → IndexIo → IndexIo → Volume → Prop) (v : Volume) : Act → Prop
  | .data p _ _ io => conditionalWrites p.other v → C p.other io.index io.nested v
  | .index p io nested => C p io nested v
  | .sync io nested => v.index.dirty = true → C (syncTarget v) io nested v
  | .unmount io nested => v.isDirty = true ∨ v.selfptrIn .ip = false → C .ip io nested v
  | .edit _ _ => True

instance (C : Part → IndexIo → IndexIo → Volume → Prop) [∀ p io nested v, Decidable (C p io nested v)]
    (v : Volume) : (a : Act) → Decidable (CallMeets C v a)
  | .data p _ _ io => inferInstanceAs (Decidable ((_ → _) ∧ (_ → _) → C p.other io.index io.nested v))
  | .index p io nested => inferInstanceAs (Decidable (C p io nested v))
  | .sync io nested => inferInstanceAs (Decidable (_ → C (syncTarget v) io nested v))
  | .unmount io nested => inferInstanceAs (Decidable (_ ∨ _ → C .ip io nested v))
  | .edit _ _ => isTrue trivial

/-- What an action has to meet, given what index writes, data writes and edits have to. -/
def ActMeets (ok : Part → IndexIo → Volume → Prop) (okData : DataIo → Prop) (okEdit : Dentry → Bool → Volume → Prop)
    (v : Volume) : Act → Prop
  | .data p _ _ io => (conditionalWrites p.other v → IndexMeets ok p.other io.index io.nested v) ∧ okData io
  | .index p io nested => IndexMeets ok p io nested v
  | .sync io nested => v.index.dirty = true → IndexMeets ok (syncTarget v) io nested v
  | .unmount io nested => v.isDirty = true ∨ v.selfptrIn .ip = false → IndexMeets ok .ip io nested v
  | .edit root atime => okEdit root atime v

theorem CallMeets.actMeets {C : Part → IndexIo → IndexIo → Volume → Prop}
    {ok : Part → IndexIo → Volume → Prop} {okData : DataIo → Prop} {okEdit : Dentry → Bool → Volume → Prop} {a : Act}
    (h : CallMeets C v a) (hc : ∀ {p io nested}, C p io nested v → IndexMeets ok p io nested v)
    (hd : ∀ io, okData io) (he : ∀ root atime, okEdit root atime v) : ActMeets ok okData okEdit v a := by
  cases a with
  | data p buf n io => exact ⟨fun hw => hc (h hw), hd io⟩
  | index p io nested => exact hc h
  | sync io nested => exact fun hw => hc (h hw)
  | unmount io nested => exact fun hw => hc (h hw)
  | edit root atime => exact he root atime

/-- A property of volumes is kept by every action if index writes, data writes and edits keep it. -/
theorem step_lift {Inv : Volume → Prop} (ok : Part → IndexIo → Volume → Prop) (okData : DataIo → Prop)
    (okEdit : Dentry → Bool → Volume → Prop) (hsane : ∀ v, Inv v → Sane v)
    (hbody : ∀ v p io, Inv v → ok p io v → Inv (writeIndexBody p io v).2)
    (hreval : ∀ v r, Inv v → Inv { v with reval := r }) (hfence : ∀ v w, Fenced v w → Inv v → Inv w)
    (hdata : ∀ v p buf n io, Inv v → v.indexFileEnd.get p.other = true → (p = .ip → needsDpIndex v = false) →
      okData io →
      Inv (writeDataAtAppend p buf n io { v with indexFileEnd := v.indexFileEnd.set p false }).2.2)
    (hedit : ∀ v root atime, Inv v → okEdit root atime v → Inv (editIndex root atime v))
    (v : Volume) (a : Act) (h : Inv v) (ha : ActMeets ok okData okEdit v a) : Inv (step v a) := by
  cases a with
  | data p buf n io =>
    have hcond : Inv (ltfsWriteIndexConditional p.other io.index io.nested v).2 := by
      obtain hx | ⟨hx, hc⟩ := ltfsWriteIndexConditional_cases v p.other io.index io.nested
      · rw [hx]
        exact h
      · rw [hx]
        exact ltfsWriteIndex_lift hbody hreval h (ha.1 hc)
    obtain ⟨hf, -⟩ | ⟨e, w, hx, -, hf⟩ | ⟨w, hx, hf⟩ := ltfsFsrawWriteDataUnlocked_cases p buf n io v
    · exact hfence _ _ hf h
    · rw [hx] at hcond
      exact hfence _ _ hf hcond
    · obtain ⟨hflag, hn⟩ := ltfsWriteIndexConditional_ok (hsane v h) hx
      rw [hx] at hcond
      simp only [step]
      rw [hf]
      exact hdata w p buf n io hcond hflag (fun hp => hn (by rw [hp]; rfl)) ha.2
  | index p io nested => exact ltfsWriteIndex_lift hbody hreval h ha
  | sync io nested =>
    simp only [step]
    obtain hx | ⟨hd, hx⟩ := ltfsSyncIndex_cases v io nested
    · rw [hx]
      exact h
    · have := ltfsWriteIndex_lift hbody hreval h (ha hd)
      obtain hx | hx := hx
      · rw [hx]
        exact this
      · rw [hx]
        exact hreval _ true this
  | unmount io nested =>
    simp only [step]
    obtain hx | ⟨hd, r, hx⟩ := ltfsUnmount_cases v io nested
    · rw [hx]
      exact h
    · rw [hx]
      exact hreval _ r (ltfsWriteIndex_lift hbody hreval h (ha hd))
  | edit root atime => exact hedit v root atime h ha

end Lift

end Ltfs.VolumeRun
