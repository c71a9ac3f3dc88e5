import Ltfs.Consistent
import Ltfs.Mount

namespace Ltfs.MountSpec

open Format Lib.Log Records Constructs TapeDevice TapeSpec WriteIndex IndexSession IndexBody DataSession
  GoodDrive Consistent VolumeRun Revalidate Mount

variable {l : Label} {p : Part} {rs pre preI preD : List Record} {b : Nat} {img imgI imgD : Image} {m : Medium}

/-- An index whose pointers pass the checks of `ltfs_read_index` when it is read at block `b` of `p`. -/
structure WellPlaced (l : Label) (p : Part) (b : Nat) (i : Index) : Prop where
  self : i.selfptr = ⟨b, l.id p⟩
  first : 5 ≤ b
  back : i.backptr = .null ∨
    i.backptr.partition = l.id .dp ∧ 5 ≤ i.backptr.block ∧ (p = .dp → i.backptr.block + 3 ≤ b)

theorem xmlSchemaFromTape_indexAt (h : IndexAt rs b img) : xmlSchemaFromTape rs b = some (img, true) := by
  have hblock := IndexAt.block h
  obtain ⟨c, rfl, pre, post, rfl, rfl⟩ := h
  have hdrop : (pre ++ (construct img ++ post)).drop (pre.length + 1) = img.records ++ (.filemark :: post) := by
    rw [List.drop_append, List.drop_of_length_le (by omega)]
    simp [construct]
  have hfm : (pre ++ (construct img ++ post))[pre.length + 1 + img.blocks]? = some .filemark := by
    rw [List.getElem?_append_right (by omega), List.getElem?_append_left (by simp; omega)]
    have : pre.length + 1 + img.blocks - pre.length = img.blocks + 1 := by omega
    simp [this, construct]
  simp only [xmlSchemaFromTape, hblock, hdrop, hfm]
  simp

theorem WellPlaced.read (h : WellPlaced l p b img.index) (hi : IndexAt rs b img) :
    ltfsReadIndex l p rs b = .ok (img, true) := by
  obtain ⟨hself, hfirst, hback⟩ := h
  simp only [ltfsReadIndex, xmlSchemaFromTape_indexAt hi, hself, ne_eq, not_true_eq_false, if_false]
  obtain hnull | ⟨hp, h5, hdp⟩ := hback
  · have hne := (l.id_ne_nul p).symm
    simp [hnull, TapeOffset.null, hne]
  · have hnul := l.id_ne_nul .dp
    have hchain : ¬ (l.id .dp = l.id p ∧ b ≠ 5 ∧ ¬ img.index.backptr.block = b ∧
        b - 2 ≤ img.index.backptr.block) := by
      rintro ⟨hid, -, -, hle⟩
      have := hdp (l.id_inj.mp hid).symm
      omega
    simp only [hp, hnul, not_false_eq_true, not_true_eq_false, and_false, if_false]
    rw [if_neg hchain, if_neg (by omega)]

/-- A partition that ends in a well-placed index is searched in one step. -/
theorem ltfsSeekIndex_ends (hr : rs = pre ++ construct img) (hp : WellPlaced l p (pre.length + 1) img.index) :
    ltfsSeekIndex l p rs = .ok (some ⟨img, rs.length, true, false⟩) := by
  have hpre := hp.first
  have hpos := img.blocks_pos
  have hlen : rs.length = pre.length + 1 + img.blocks + 1 := by
    rw [hr, List.length_append, construct_length]
    omega
  have hat : IndexAt rs (pre.length + 1) img := by
    rw [hr]
    exact ⟨_, rfl, by simpa using holds_append_mid pre (construct img) []⟩
  have hclose : previousFilemark rs rs.length = some (pre.length + 1 + img.blocks) := by
    rw [hlen, hr]
    simp [previousFilemark, closing_filemark]
  have hopen : previousFilemark rs (pre.length + 1 + img.blocks) = some pre.length := by
    rw [hr]
    exact previousFilemark_skip (opening_filemark pre img) (document_block pre img)
  have hnext : nextFilemark rs pre.length = some pre.length := by
    rw [hr]
    exact nextFilemark_here (opening_filemark pre img)
  have hne : ¬ pre.length + 1 + img.blocks = 3 := by omega
  have heq : pre.length + 1 + img.blocks = rs.length - 1 := by omega
  simp only [ltfsSeekIndex, hclose]
  rw [if_neg (by omega), if_neg hne, if_pos heq]
  simp only [hopen, seekIndexFrom]
  rw [if_neg (by omega)]
  simp only [hnext, hp.read hat, if_true]
  rw [← hlen]
  simp

theorem indexAt_le_last {img' : Image} (h : IndexAt (pre ++ construct img) b img') : b ≤ pre.length + 1 := by
  have hb := IndexAt.block h
  obtain ⟨c, rfl, hc⟩ := h
  have hfm : (pre ++ construct img)[c]? = some .filemark := by
    rw [← Nat.add_zero c, hc.getElem? (by simp)]
    rfl
  by_contra hlt
  -- behind the opening filemark only the closing one is left, and nothing follows that
  obtain ⟨k, rfl⟩ : ∃ k, c = pre.length + 1 + k := ⟨c - pre.length - 1, by omega⟩
  have hk := (List.getElem?_eq_some_iff.mp hb).1
  simp only [List.length_append, construct_length] at hk
  exact document_block pre img k (by omega) hfm

/-- The index partition and the data partition both end in an index, the attributes describe these, and
the two fit together: one of them is the newest on the medium, and they differ only if their
generations do. -/
structure Paired (l : Label) (m : Medium) (preI preD : List Record) (imgI imgD : Image) : Prop where
  ip : m.recs.ip = preI ++ construct imgI
  dp : m.recs.dp = preD ++ construct imgD
  ipPlaced : WellPlaced l .ip (preI.length + 1) imgI.index
  dpPlaced : ∀ b img, IndexAt m.recs.dp b img → WellPlaced l .dp b img.index
  ipCount : m.coh.ip.count = imgI.index.generation.toNat
  dpCount : m.coh.dp.count = imgD.index.generation.toNat
  ipSet : m.coh.ip.setId = preI.length + 1
  dpSet : m.coh.dp.setId = preD.length + 1
  same : imgI.index.generation = imgD.index.generation → imgI.index.root = imgD.index.root
  order : (imgI.index.backptr = ⟨preD.length + 1, l.id .dp⟩ ∧
      ∀ p b img, IndexAt (m.recs.get p) b img → img.index.generation ≤ imgI.index.generation) ∨
    (imgI.index.backptr ≠ ⟨preD.length + 1, l.id .dp⟩ ∧
      (∀ p b img, IndexAt (m.recs.get p) b img → img.index.generation ≤ imgD.index.generation) ∧
      (imgI.index.backptr.block < imgD.index.backptr.block →
        ∃ img, IndexAt m.recs.dp imgD.index.backptr.block img ∧
          (imgI.index.backptr.partition = '\x00' → imgI.index.generation ≤ img.index.generation)))

/-- Whenever the attributes are up to date, they describe the medium. -/
def Sound (l : Label) (m : Medium) : Prop :=
  fastPath m → ∃ preI preD imgI imgD, Paired l m preI preD imgI imgD

/-- `i` is a complete index of the medium, and no other one is newer. -/
def Newest (m : Medium) (i : Index) : Prop :=
  (∃ p b img, IndexAt (m.recs.get p) b img ∧ img.index = i) ∧
    ∀ p b img, IndexAt (m.recs.get p) b img → img.index.generation ≤ i.generation

theorem indexAt_end (pre : List Record) (img : Image) : IndexAt (pre ++ construct img) (pre.length + 1) img :=
  ⟨_, rfl, by simpa using holds_append_mid pre (construct img) []⟩

theorem Paired.ip_at (h : Paired l m preI preD imgI imgD) : IndexAt m.recs.ip (preI.length + 1) imgI := by
  rw [h.ip]
  exact indexAt_end preI imgI

theorem Paired.dp_at (h : Paired l m preI preD imgI imgD) : IndexAt m.recs.dp (preD.length + 1) imgD := by
  rw [h.dp]
  exact indexAt_end preD imgD

/-- The full check chooses the newest index. -/
theorem Paired.check (h : Paired l m preI preD imgI imgD) (deep : Bool) :
    ∃ i, ltfsCheckMedium l deep m = .ok i ∧ Newest m i ∧
      (i = imgI.index ∧ imgD.index.generation ≤ imgI.index.generation ∨
        i = imgD.index ∧ imgI.index.generation ≤ imgD.index.generation) := by
  have hip := ltfsSeekIndex_ends h.ip h.ipPlaced
  have hdp := ltfsSeekIndex_ends h.dp (h.dpPlaced _ _ h.dp_at)
  have hself := (h.dpPlaced _ _ h.dp_at).self
  have hchoice : ∀ q i, ltfsCheckPointers l m.recs.dp (some imgI.index) (some imgD.index) = .ok (some q) →
      i = (Sides.mk imgI.index imgD.index).get q → ltfsCheckMedium l deep m = .ok i := by
    intro q i hq hi
    simp only [ltfsCheckMedium, hip, hdp, Option.isNone_some, Bool.false_eq_true, and_self, if_false,
      extraBlocks, or_self, and_false, indexFound, Option.map_some, hq]
    rw [hi]
    cases q <;> rfl
  obtain ⟨hback, hmax⟩ | ⟨hback, hmax, hprev⟩ := h.order
  · have hle := hmax .dp _ _ h.dp_at
    refine ⟨imgI.index, hchoice .ip _ ?_ rfl, ⟨⟨.ip, _, imgI, h.ip_at, rfl⟩, hmax⟩, .inl ⟨rfl, hle⟩⟩
    simp only [ltfsCheckPointers, hself]
    rw [if_pos ⟨hle, hback⟩]
  · have hle := hmax .ip _ _ h.ip_at
    refine ⟨imgD.index, hchoice .dp _ ?_ rfl, ⟨⟨.dp, _, imgD, h.dp_at, rfl⟩, hmax⟩, .inr ⟨rfl, hle⟩⟩
    have hlast : (checkPrevious l m.recs.dp imgI.index imgD.index).map some = .ok (some .dp) := by
      unfold checkPrevious
      by_cases hb : imgI.index.backptr.block < imgD.index.backptr.block
      · obtain ⟨img, hat, hgen⟩ := hprev hb
        rw [if_pos hb, (h.dpPlaced _ _ hat).read hat]
        simp only
        rw [if_neg]
        · rfl
        · rintro ⟨hnul, hlt⟩
          exact absurd hlt (UInt32.not_lt.mpr (hgen hnul))
      · rw [if_neg hb]
        rfl
    simp only [ltfsCheckPointers, hself]
    rw [if_neg (fun hx => hback hx.2), if_neg (UInt32.not_lt.mpr hle), hlast]
    split <;> rfl

/-- The device as `ltfs_start_mount` leaves it, with a cartridge that can be written. -/
structure Loaded (l : Label) (t : Tape) : Prop where
  append : t.dev.appendPos = ⟨0, 0⟩
  writable : Writable t
  fits : l.blocksize ≤ t.dev.maxBlockSize

theorem indexReadonly_writable {v : Volume} (h : Writable v.tape) : indexReadonly v = .ok () := by
  have hp : ∀ p, v.partitionReadonly p = .ok () ∨ v.partitionReadonly p = .error .lessSpace ∨
      v.partitionReadonly p = .error .noSpace := by
    intro p
    simp only [Volume.partitionReadonly, Tape.readOnly, h.1, h.2, Bool.false_eq_true, if_false]
    cases v.tape.dev.partitionSpace.get p <;> simp
  obtain hi | hi | hi := hp .ip <;> obtain hd | hd | hd := hp .dp <;> simp [indexReadonly, hi, hd]

theorem Written.clean {v w : Volume} {io : IndexIo} (hw : Written p io v w) (hd : v.isDirty = false) :
    w.index.generation = v.index.generation ∧ w.index.root = v.index.root ∧ w.isDirty = false := by
  obtain ⟨c, hc⟩ := hw.index
  have hgen : (newImage p io v).index.generation = v.index.generation := by
    change (bumpGeneration io.now v.isDirty v.index).generation = _
    rw [hd]
    rfl
  refine ⟨?_, Written.root hw, ?_⟩
  · rw [hc]
    exact hgen
  · simp [Volume.isDirty, hc]

/-- A clean index keeps its generation and its tree when it is written to both partitions. -/
theorem ltfsWriteIndex_clean {v : Volume} {io nested : IndexIo} (hs : Sane v) (hw : Writable v.tape)
    (ha : ∀ p, appendBlock v.tape p ≤ (v.tape.recs p).length) (hd : v.isDirty = false)
    (hf : v.indexFileEnd.dp = false) (hg : GoodDrive.AllGood io) (hn : GoodDrive.AllGood nested) :
    ∃ w, ltfsWriteIndex .ip io nested v = (.ok (), w) ∧ w.index.generation = v.index.generation ∧
      w.index.root = v.index.root := by
  obtain ⟨u, hx, hu, hi, hwu⟩ := writeIndexBody_good hs hw (ha .dp) hn
  have hdp := Wrote.written hu hwu hi hn
  have hsane := writeIndexBody_sane nested .dp hs
  rw [hx] at hsane
  generalize hw₁ : (finishIndex .dp nested u).complete _ = w₁ at hx hdp hsane
  have hip : appendBlock w₁.tape .ip ≤ (w₁.tape.recs .ip).length := by
    have happ : appendBlock w₁.tape .ip = appendBlock v.tape .ip := Written.appendBlock_other hdp
    have hrecs : w₁.tape.recs .ip = v.tape.recs .ip := hdp.other
    rw [happ, hrecs]
    exact ha .ip
  obtain ⟨u', hx', hu', hi', hwu'⟩ := writeIndexBody_good hsane hdp.writable hip hg
  have hip' := Wrote.written hu' hwu' hi' hg
  obtain ⟨hgen, hroot, hclean⟩ := Written.clean hdp hd
  obtain ⟨hgen', hroot', -⟩ := Written.clean hip' hclean
  refine ⟨_, ?_, hgen'.trans hgen, hroot'.trans hroot⟩
  simp only [ltfsWriteIndex, indexReadonly_writable hw, needsDpIndex, hf, Bool.not_false, Bool.true_or,
    and_self, if_true, hx]
  exact hx'

theorem readVolume_ready {t : Tape} (ht : Loaded l t) (creator : Bytes) (p : Part) {stop : Nat} (i : Index)
    (hstop : stop ≤ (t.recs p).length) :
    let v := readVolume l creator t p stop i
    Sane v ∧ Writable v.tape ∧ (∀ q, appendBlock v.tape q ≤ (v.tape.recs q).length) ∧ v.isDirty = false := by
  refine ⟨⟨hstop, ht.fits⟩, ht.writable, fun q => ?_, ?_⟩
  · have : (readVolume l creator t p stop i).tape.dev.appendPos.get q = 0 := by
      cases q <;> simp [readVolume, ht.append]
    simp [appendBlock, this]
  · simp [readVolume, Volume.isDirty]

/-- The fast path ends with the index whose generation is stamped higher, and with the one on the index
partition if they are equal. -/
theorem Paired.mount (h : Paired l m preI preD imgI imgD) {t : Tape} (htm : t.medium = m) (ht : Loaded l t)
    (creator : Bytes) {io nested : IndexIo} (hg : GoodDrive.AllGood io) (hn : GoodDrive.AllGood nested) :
    ∃ v, ltfsMountFast l creator io nested t = .mounted v ∧
      let i := if imgI.index.generation < imgD.index.generation then imgD.index else imgI.index
      v.index.generation = i.generation ∧ v.index.root = i.root := by
  subst htm
  have hcount : t.medium.coh.ip.count < t.medium.coh.dp.count ↔
      imgI.index.generation < imgD.index.generation := by
    rw [h.ipCount, h.dpCount]
    exact UInt32.lt_iff_toNat_lt.symm
  have hread : ∀ p pre img (next : Volume → MountEnd), t.recs p = pre ++ construct img →
      (t.medium.coh.get p).setId = pre.length + 1 → WellPlaced l p (pre.length + 1) img.index →
      ∃ stop, stop ≤ (t.recs p).length ∧
        readStamped l creator t p next = next (readVolume l creator t p stop img.index) := by
    intro p pre img next hr hset hp
    have hpos := img.blocks_pos
    refine ⟨pre.length + 1 + img.blocks + 1, ?_, ?_⟩
    · rw [hr, List.length_append, construct_length]
      omega
    · have hlen : ¬ (t.recs p).length < pre.length + 1 := by
        rw [hr, List.length_append, construct_length]
        omega
      have hat : IndexAt (t.recs p) (pre.length + 1) img := by
        rw [hr]
        exact indexAt_end pre img
      simp only [readStamped, hset, hlen, if_false, hp.read hat, if_true]
  unfold ltfsMountFast
  by_cases hlt : imgI.index.generation < imgD.index.generation
  · rw [if_pos (hcount.mpr hlt), if_pos hlt]
    obtain ⟨stop, hstop, hx⟩ := hread .dp preD imgD (copyToIp io nested) h.dp h.dpSet (h.dpPlaced _ _ h.dp_at)
    obtain ⟨hs, hw, ha, hd⟩ := readVolume_ready ht creator .dp imgD.index hstop
    obtain ⟨w, hwrite, hgen, hroot⟩ := ltfsWriteIndex_clean hs hw ha hd rfl hg hn
    refine ⟨w, ?_, hgen, hroot⟩
    rw [hx, copyToIp, hwrite]
  · rw [if_neg (fun hc => hlt (hcount.mp hc)), if_neg hlt]
    obtain ⟨stop, -, hx⟩ := hread .ip preI imgI .mounted h.ip h.ipSet h.ipPlaced
    exact ⟨_, hx, rfl, rfl⟩

/-- The fast path and the full check agree on the generation and the tree. -/
def Agree (l : Label) (m : Medium) : Prop :=
  fastPath m → ∀ (t : Tape) (creator : Bytes) (io nested : IndexIo) (deep : Bool), t.medium = m → Loaded l t →
    GoodDrive.AllGood io → GoodDrive.AllGood nested →
    ∃ v i, ltfsMountFast l creator io nested t = .mounted v ∧ ltfsCheckMedium l deep m = .ok i ∧ Newest m i ∧
      v.index.generation = i.generation ∧ v.index.root = i.root

theorem Sound.agree (h : Sound l m) : Agree l m := by
  intro hfast t creator io nested deep htm ht hg hn
  obtain ⟨preI, preD, imgI, imgD, hp⟩ := h hfast
  obtain ⟨v, hv, hgen, hroot⟩ := hp.mount htm ht creator hg hn
  obtain ⟨i, hi, hnew, hcase⟩ := hp.check deep
  refine ⟨v, i, hv, hi, hnew, ?_⟩
  by_cases hlt : imgI.index.generation < imgD.index.generation
  · rw [if_pos hlt] at hgen hroot
    obtain ⟨-, hle⟩ | ⟨rfl, -⟩ := hcase
    · exact absurd hlt (UInt32.not_lt.mpr hle)
    · exact ⟨hgen, hroot⟩
  · rw [if_neg hlt] at hgen hroot
    obtain ⟨rfl, -⟩ | ⟨rfl, hle⟩ := hcase
    · exact ⟨hgen, hroot⟩
    · have heq := UInt32.le_antisymm hle (UInt32.not_lt.mp hlt)
      exact ⟨hgen.trans heq, hroot.trans (hp.same heq)⟩

end Ltfs.MountSpec
