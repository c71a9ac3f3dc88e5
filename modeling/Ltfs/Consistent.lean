import Ltfs.GoodDrive

namespace Ltfs.Consistent

open Format Lib.Log Lib.Run Records Constructs TapeDevice TapeSpec WriteIndex WriteSession IndexSession
  IndexBody DataSession VolumeRun BackPointers GoodDrive

variable {p q : Part} {v u w : Volume} {io nested : IndexIo} {ws : List Record}

/-- Block `b` of `p` holds bytes of an extent. -/
def Referenced (l : Label) (x : ExtentInfo) (p : Part) (b : Nat) : Prop :=
  x.start.partition = l.id p ∧ x.start.block ≤ b ∧
    b < x.start.block + (x.byteoffset + x.bytecount + l.blocksize - 1) / l.blocksize

def OnData (l : Label) (m : Medium) (root : Dentry) : Prop :=
  ∀ x ∈ root.extents, ∀ p b, Referenced l x p b → ∃ d, (m.recs.get p)[b]? = some (.data d)

/-- A mounted volume with its medium: what the tree refers to stands below the append positions, and the
index in memory has its complete copy where its self pointer says. -/
structure Mounted (v : Volume) : Prop where
  sane : Sane v
  bound : ∀ p, appendBlock v.tape p ≤ (v.tape.recs p).length
  dpEnd : appendBlock v.tape .dp = (v.tape.recs .dp).length
  data : ∀ p b d, (v.tape.recs p)[b]? = some (.data d) → b < appendBlock v.tape p
  onData : OnData v.label v.tape.medium v.index.root
  newest : ∃ p img, v.index.selfptr.partition = v.label.id p ∧
    IndexAt (v.tape.recs p) v.index.selfptr.block img ∧ img.index.generation = v.completed ∧
    (p = .ip → v.indexFileEnd.ip = true)

theorem Mounted.referenced (h : Mounted v) {x : ExtentInfo} (hx : x ∈ v.index.root.extents) {b : Nat}
    (hr : Referenced v.label x p b) : b < appendBlock v.tape p := by
  obtain ⟨d, hd⟩ := h.onData x hx p b hr
  exact h.data p b d hd

theorem Mounted.dp_or_ip (h : Mounted v) :
    v.selfptrIn .dp = true ∨ v.selfptrIn .ip = true ∧ v.indexFileEnd.ip = true := by
  obtain ⟨p, img, hp, -, -, hip⟩ := h.newest
  cases p with
  | ip => exact .inr ⟨decide_eq_true hp, hip rfl⟩
  | dp => exact .inl (decide_eq_true hp)

/-- A write that is not about to destroy the newest index. -/
def Spares (p : Part) (v : Volume) : Prop :=
  p = .ip → v.selfptrIn .dp = true

/-- The records of a partition after a write: all of them below the append position are kept, and on the
data partition all of them. -/
theorem indexAt_mediumAfter (h : Mounted v) (hs : Spares p v)
    {b : Nat} {img : Image} (hq : v.index.selfptr.partition = v.label.id q) (hi : IndexAt (v.tape.recs q) b img) :
    IndexAt ((mediumAfter v.tape.medium p (appendBlock v.tape p) ws).recs.get q) b img := by
  obtain rfl | rfl := Part.eq_or_other p q
  · cases q with
    | ip =>
      have := hs rfl
      simp [Volume.selfptrIn, hq] at this
    | dp =>
      rw [mediumAfter_get_self, h.dpEnd]
      change IndexAt (record (v.tape.recs .dp) _ _) _ _
      rw [record_end]
      exact hi.append ws
  · rw [mediumAfter_get_other]
    exact hi

theorem data_mediumAfter (h : Mounted v) (p : Part) (ws : List Record) {b : Nat} {d : Bytes}
    (hd : (v.tape.recs q)[b]? = some (.data d)) :
    ((mediumAfter v.tape.medium p (appendBlock v.tape p) ws).recs.get q)[b]? = some (.data d) := by
  obtain rfl | rfl := Part.eq_or_other p q
  · rw [mediumAfter_get_self]
    exact getElem?_record hd (h.data q b d hd)
  · rw [mediumAfter_get_other]
    exact hd

theorem length_record_append {rs : List Record} {a : Nat} (h : a ≤ rs.length) (hw : ws ≠ []) :
    (record rs a ws).length = a + ws.length := by
  rw [record_ne_nil hw]
  exact overwrite_length h

theorem Wrote.bound (h : Mounted v) (hw : Wrote p v ws u) (q : Part) :
    appendBlock u.tape q ≤ (u.tape.recs q).length := by
  obtain rfl | rfl := Part.eq_or_other p q
  · rw [Wrote.appendBlock_self hw, Wrote.recs_self hw]
    exact length_record (h.bound q)
  · rw [Wrote.appendBlock_other hw, Wrote.recs_other hw]
    exact h.bound _

theorem Wrote.dpEnd (h : Mounted v) (hw : Wrote p v ws u) :
    appendBlock u.tape .dp = (u.tape.recs .dp).length :=
  Wrote.append hw h.dpEnd

/-- Data stands below the append position, also behind a write. -/
theorem Wrote.data (h : Mounted v) (hw : Wrote p v ws u) {b : Nat} {d : Bytes}
    (hd : (u.tape.recs q)[b]? = some (.data d)) : b < appendBlock u.tape q := by
  obtain rfl | rfl := Part.eq_or_other p q
  · rw [Wrote.appendBlock_self hw]
    rw [Wrote.recs_self hw] at hd
    by_cases hne : ws = []
    · subst hne
      have := h.data q b d hd
      omega
    · have hlt := (List.getElem?_eq_some_iff.mp hd).1
      rwa [length_record_append (h.bound q) hne] at hlt
  · rw [Wrote.appendBlock_other hw]
    rw [Wrote.recs_other hw] at hd
    exact h.data _ b d hd

theorem Wrote.onData (h : Mounted v) (hw : Wrote p v ws u) :
    OnData v.label u.tape.medium v.index.root := by
  intro x hx q b hr
  obtain ⟨d, hd⟩ := h.onData x hx q b hr
  refine ⟨d, ?_⟩
  rw [hw.medium]
  exact data_mediumAfter h p ws hd

/-- A data write. -/
theorem Mounted.wrote (h : Mounted v) (hs : Spares p v) (hw : Wrote p v ws u) (hi : u.index = v.index) :
    Mounted u where
  sane := Wrote.sane hw h.sane
  bound := Wrote.bound h hw
  dpEnd := Wrote.dpEnd h hw
  data := fun q b d => Wrote.data h hw
  onData := by
    rw [hi, (by rw [hw.same] : u.label = v.label)]
    exact Wrote.onData h hw
  newest := by
    obtain ⟨q, img, hq, hat, hg, hip⟩ := h.newest
    refine ⟨q, img, ?_, ?_, ?_, ?_⟩
    · rw [hi, hq, hw.same]
    · rw [hi]
      simp only [Tape.recs, hw.medium]
      exact indexAt_mediumAfter h hs hq hat
    · rw [hg, hw.same]
    · rw [hw.same]
      exact hip

theorem Mounted.idle (h : Mounted v) (hw : Idle p v u) : Mounted u where
  sane := Idle.sane hw h.sane
  bound := fun q => by
    rw [Idle.appendBlock hw, Tape.recs, hw.medium]
    exact h.bound q
  dpEnd := by
    rw [Idle.appendBlock hw, Tape.recs, hw.medium]
    exact h.dpEnd
  data := fun q b d hd => by
    rw [Tape.recs, hw.medium] at hd
    rw [Idle.appendBlock hw]
    exact h.data q b d hd
  onData := by
    rw [hw.medium, hw.same]
    exact h.onData
  newest := by
    simp only [Tape.recs, hw.medium]
    rw [hw.same]
    exact h.newest

/-- An index write leaves the append position of the index partition where it was. -/
theorem Written.append_le (hb : appendBlock v.tape p ≤ (v.tape.recs p).length) (hw : Written p io v w) :
    appendBlock v.tape p ≤ appendBlock w.tape p ∧ appendBlock w.tape p ≤ (w.tape.recs p).length := by
  have hlen : (w.tape.recs p).length = appendBlock v.tape p + (newImage p io v).blocks + 2 := by
    rw [hw.recs, length_record_append hb (by simp [construct]), construct_length, Nat.add_assoc]
  have ha : w.tape.dev.appendPos.get p =
      if p = .ip then appendBlock v.tape p else appendBlock v.tape p + (newImage p io v).blocks + 2 := by
    rw [hw.append]
    simp
  by_cases h0 : w.tape.dev.appendPos.get p = 0
  · simp only [appendBlock, h0, if_true] at ha hlen ⊢
    split at ha <;> omega
  · have hw' : appendBlock w.tape p = w.tape.dev.appendPos.get p := by
      simp only [appendBlock, h0, if_false]
    rw [hw', ha]
    split <;> omega

theorem Written.appendBlock_other (hw : Written p io v w) :
    appendBlock w.tape p.other = appendBlock v.tape p.other := by
  apply appendBlock_congr
  · rw [hw.append]
    simp
  · exact hw.other

theorem construct_no_data (img : Image) (d : Bytes) : .data d ∉ construct img := by
  simp [construct, Image.records]

theorem Written.root (hw : Written p io v w) : w.index.root = v.index.root := by
  obtain ⟨c, hc⟩ := hw.index
  rw [hc]
  exact bumpGeneration_root io.now v.isDirty v.index

/-- Below the old append position nothing changes, and behind it stands the new construct. -/
theorem Written.data (h : Mounted v) (hw : Written p io v w) {b : Nat} {d : Bytes}
    (hd : (w.tape.recs q)[b]? = some (.data d)) :
    b < appendBlock v.tape q ∧ (v.tape.recs q)[b]? = some (.data d) := by
  obtain rfl | rfl := Part.eq_or_other p q
  · rw [hw.recs, record_ne_nil (by simp [construct]), overwrite] at hd
    by_cases hb : b < appendBlock v.tape q
    · rw [List.getElem?_append_left (by simp; have := h.bound q; omega), List.getElem?_take_of_lt hb] at hd
      exact ⟨hb, hd⟩
    · rw [List.getElem?_append_right (by simp; omega)] at hd
      exact absurd (List.mem_of_getElem? hd) (construct_no_data _ d)
  · rw [hw.other] at hd
    exact ⟨h.data _ b d hd, hd⟩

theorem Written.indexAt (hb : appendBlock v.tape p ≤ (v.tape.recs p).length) (hw : Written p io v w) :
    IndexAt (w.tape.recs p) (appendBlock v.tape p + 1) (newImage p io v) := by
  rw [hw.recs, record_ne_nil (by simp [construct])]
  exact ⟨_, rfl, holds_overwrite_self hb⟩

theorem Written.ends (h : Mounted v) (hw : Written p io v w) :
    ∃ pre, w.tape.recs p = pre ++ construct (newImage p io v) ∧ pre.length = appendBlock v.tape p := by
  refine ⟨(v.tape.recs p).take (appendBlock v.tape p), ?_, ?_⟩
  · rw [hw.recs, record_ne_nil (by simp [construct])]
    rfl
  · have := h.bound p
    simp only [List.length_take]
    omega

theorem Written.selfptr (hw : Written p io v w) :
    w.index.selfptr = ⟨appendBlock v.tape p + 1, v.label.id p⟩ := by
  obtain ⟨c, hc⟩ := hw.index
  rw [hc]
  rfl

theorem Mounted.written (h : Mounted v) (hs : Sane w) (hw : Written p io v w) : Mounted w where
  sane := hs
  bound := fun q => by
    obtain rfl | rfl := Part.eq_or_other p q
    · exact (Written.append_le (h.bound q) hw).2
    · rw [Written.appendBlock_other hw, hw.other]
      exact h.bound _
  dpEnd := by
    cases p with
    | ip =>
      have := hw.other
      have ha := Written.appendBlock_other hw
      simp only [Part.other] at this ha
      rw [ha, this]
      exact h.dpEnd
    | dp =>
      apply appendBlock_of_append
      · rw [hw.append, hw.recs, length_record_append (h.bound .dp) (by simp [construct])]
        simp [Nat.add_assoc]
      · exact List.eq_nil_of_length_eq_zero
  data := fun q b d hd => by
    have hlt := (Written.data h hw hd).1
    obtain rfl | rfl := Part.eq_or_other p q
    · exact Nat.lt_of_lt_of_le hlt (Written.append_le (h.bound q) hw).1
    · rw [Written.appendBlock_other hw]
      exact hlt
  onData := by
    rw [hw.label, Written.root hw]
    intro x hx q b hr
    obtain ⟨d, hd⟩ := h.onData x hx q b hr
    refine ⟨d, ?_⟩
    obtain rfl | rfl := Part.eq_or_other p q
    · change (w.tape.recs q)[b]? = _
      rw [hw.recs]
      exact getElem?_record hd (h.data q b d hd)
    · change (w.tape.recs p.other)[b]? = _
      rw [hw.other]
      exact hd
  newest := by
    refine ⟨p, newImage p io v, ?_, ?_, hw.completed.symm, ?_⟩
    · rw [Written.selfptr hw, hw.label]
    · rw [Written.selfptr hw]
      exact Written.indexAt (h.bound p) hw
    · rintro rfl
      rw [hw.flags]
      rfl

/-- The drive carries out every command of an action, and an edit refers to recorded data only. -/
def GoodAct (v : Volume) : Act → Prop
  | .data _ _ _ io => AllGoodData io
  | .index _ io nested => AllGood io ∧ AllGood nested
  | .sync io nested => AllGood io ∧ AllGood nested
  | .unmount io nested => AllGood io ∧ AllGood nested
  | .edit root _ => OnData v.label v.tape.medium root

/-- What an index write meets in a run of such actions. -/
def GoodWrite (p : Part) (io : IndexIo) (v : Volume) : Prop :=
  AllGood io ∧ Writable v.tape ∧ Spares p v

theorem writable_of_indexReadonly (h : indexReadonly v = .ok ()) : Writable v.tape := by
  refine ⟨?_, ?_⟩
  · cases hp : v.tape.dev.writeProtect with
    | false => rfl
    | true => simp [indexReadonly, Volume.partitionReadonly, Tape.readOnly, hp] at h
  · cases hp : v.tape.dev.writeProtect with
    | true => simp [indexReadonly, Volume.partitionReadonly, Tape.readOnly, hp] at h
    | false =>
      cases he : v.tape.dev.writeError with
      | false => rfl
      | true => simp [indexReadonly, Volume.partitionReadonly, Tape.readOnly, hp, he] at h

theorem writeIndexBody_written (h : Mounted v) (hg : GoodWrite p io v) :
    ∃ w, writeIndexBody p io v = (.ok (), w) ∧ Written p io v w ∧ Mounted w := by
  obtain ⟨u, hx, hu, hi, hwu⟩ := writeIndexBody_good h.sane hg.2.1 (h.bound p) hg.1
  have hw := Wrote.written hu hwu hi hg.1
  have hs := writeIndexBody_sane io p h.sane
  rw [hx] at hs
  exact ⟨_, hx, hw, h.written hs hw⟩

theorem Written.spares (hw : Written .dp io v w) (p : Part) : Spares p w := by
  intro _
  apply decide_eq_true
  rw [Written.selfptr hw, hw.label]

/-- Every index write of such an action spares the newest index. -/
theorem indexMeets_good (h : Mounted v) (hg : AllGood io) (hn : AllGood nested) :
    IndexMeets GoodWrite p io nested v := by
  intro hr
  have hw := writable_of_indexReadonly hr
  split
  · have hdp : GoodWrite .dp nested v := ⟨hn, hw, fun h => by cases h⟩
    obtain ⟨w, hx, hww, -⟩ := writeIndexBody_written h hdp
    refine ⟨hdp, hg, ?_, ?_⟩
    · rw [hx]
      exact hww.writable
    · rw [hx]
      exact Written.spares hww .ip
  · rename_i hnd
    refine ⟨hg, hw, ?_⟩
    rintro rfl
    obtain hdp | ⟨hip, hend⟩ := h.dp_or_ip
    · exact hdp
    · exact absurd ⟨rfl, by simp [needsDpIndex, hip, hend]⟩ hnd

theorem GoodAct.meets (h : Mounted v) {a : Act} (ha : GoodAct v a) :
    ActMeets GoodWrite AllGoodData (fun root _ v => OnData v.label v.tape.medium root) v a := by
  cases a with
  | data p buf n io => exact ⟨fun _ => indexMeets_good h ha.index ha.nested, ha⟩
  | index p io nested => exact indexMeets_good h ha.1 ha.2
  | sync io nested => exact fun _ => indexMeets_good h ha.1 ha.2
  | unmount io nested => exact fun _ => indexMeets_good h ha.1 ha.2
  | edit root atime => exact ha

/-- Data for the index partition comes when the newest index is on the data partition. -/
theorem Mounted.spares (h : Mounted v) (hn : p = .ip → needsDpIndex v = false) : Spares p v := by
  intro hp
  obtain hdp | ⟨hip, hend⟩ := h.dp_or_ip
  · exact hdp
  · have := hn hp
    simp [needsDpIndex, hip, hend] at this

theorem Mounted.lowerFlag (h : Mounted v) (hs : Spares p v) :
    Mounted { v with indexFileEnd := v.indexFileEnd.set p false } where
  sane := ⟨h.sane.inBounds, h.sane.fits⟩
  bound := h.bound
  dpEnd := h.dpEnd
  data := h.data
  onData := h.onData
  newest := by
    obtain ⟨q, img, hq, hat, hg, hip⟩ := h.newest
    refine ⟨q, img, hq, hat, hg, ?_⟩
    rintro rfl
    cases p with
    | ip =>
      have := hs rfl
      simp [Volume.selfptrIn, hq] at this
    | dp => exact hip rfl

theorem Fenced.mounted (hf : Fenced u w) (h : Mounted u) : Mounted w := by
  have hs := Fenced.sane hf h.sane
  rw [hf] at hs ⊢
  exact ⟨hs, h.bound, h.dpEnd, h.data, h.onData, h.newest⟩

theorem writeDataAtAppend_mounted (buf : Bytes) (n : Nat) (dio : DataIo) (h : Mounted v) (hs : Spares p v) :
    Mounted (writeDataAtAppend p buf n dio v).2.2 := by
  obtain ⟨u, -, hu, hf, -⟩ | ⟨u, ds, -, hu, hi, hf, -⟩ := writeDataAtAppend_cases p buf n dio h.sane.inBounds
  · exact Fenced.mounted hf (h.idle hu)
  · exact Fenced.mounted hf (h.wrote hs hu hi)

theorem Mounted.edit (h : Mounted v) {root : Dentry} (atime : Bool)
    (hr : OnData v.label v.tape.medium root) : Mounted (editIndex root atime v) :=
  ⟨⟨h.sane.inBounds, h.sane.fits⟩, h.bound, h.dpEnd, h.data, hr, h.newest⟩

end Ltfs.Consistent
