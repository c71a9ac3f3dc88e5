import Ltfs.CrashSafe
import Ltfs.MountSpec

namespace Ltfs.Coherent

open Format Lib.Log Lib.Run Records Constructs TapeDevice TapeSpec WriteIndex WriteSession IndexSession
  IndexBody DataSession VolumeRun BackPointers GoodDrive Consistent Mount MountSpec

variable {l : Label} {p q : Part} {v u w : Volume} {io nested : IndexIo} {ws : List Record} {b : Nat}
  {img : Image} {m : Medium}

/-- The back pointer of an index on the index partition: to an index of the data partition, or empty if
those are all later. -/
def BackTo (l : Label) (dp : List Record) (i : Index) : Prop :=
  (i.backptr = .null ∧ ∀ b img, IndexAt dp b img → i.generation ≤ img.index.generation) ∨
  (i.backptr.partition = l.id .dp ∧ ∃ img, IndexAt dp i.backptr.block img)

/-- A partition that ends in an index, as its attribute has it. -/
def Ended (l : Label) (q : Part) (v : Volume) : Prop :=
  ∃ pre img, v.tape.recs q = pre ++ construct img ∧ (v.coh.get q).count = img.index.generation.toNat ∧
    (v.coh.get q).setId = pre.length + 1 ∧ WellPlaced l q (pre.length + 1) img.index ∧
    (q = .ip → BackTo l (v.tape.recs .dp) img.index)

/-- One tree for each generation: all indexes of the current one have the tree that is in memory,
unless that has changed since. -/
def OneTree (v : Volume) : Prop :=
  ∃ root, (∀ p b img, IndexAt (v.tape.recs p) b img → img.index.generation = v.index.generation →
    img.index.root = root) ∧ (v.isDirty = false → v.index.root = root)

/-- A mounted volume whose attributes are in step with its medium. -/
structure InStep (l : Label) (v : Volume) : Prop where
  mounted : Mounted v
  label : v.label = l
  coh : v.tape.medium.coh = v.coh
  vcrs : ∀ q, (v.coh.get q).volumeChangeRef ≤ v.tape.medium.vcr
  labels : ∀ p, 4 ≤ appendBlock v.tape p
  closed : ∀ p, ¬ Dangling ((v.tape.recs p).take (appendBlock v.tape p))
  latest : LatestDp l (v.tape.recs .dp) (lastDp v)
  nul : (lastDp v).partition = '\x00' → lastDp v = .null
  placed : ∀ b img, IndexAt (v.tape.recs .dp) b img → WellPlaced l .dp b img.index
  gens : ∀ p b img, IndexAt (v.tape.recs p) b img → img.index.generation ≤ v.index.generation
  oneTree : OneTree v
  ends : ∀ q, v.indexFileEnd.get q = true → Ended l q v
  sound : Sound l v.tape.medium
  events : ∀ e ∈ v.history, Sound l e.before ∧ Sound l e.after

section Written

theorem Written.indexes (h : InStep l v) (hw : Written p io v w) (hi : IndexAt (w.tape.recs q) b img) :
    IndexAt (v.tape.recs q) b img ∨ q = p ∧ b = appendBlock v.tape p + 1 ∧ img = newImage p io v := by
  obtain rfl | rfl := Part.eq_or_other p q
  · rw [hw.recs] at hi
    obtain hi | hi := indexAt_record_construct (h.closed q) (h.mounted.bound q) hi
    · exact .inl hi
    · exact .inr ⟨rfl, hi⟩
  · rw [hw.other] at hi
    exact .inl hi

theorem Written.kept (h : Mounted v) (hw : Written p io v w) (hi : IndexAt (v.tape.recs .dp) b img) :
    IndexAt (w.tape.recs .dp) b img := by
  cases p with
  | ip =>
    have hrecs : w.tape.recs .dp = v.tape.recs .dp := hw.other
    rw [hrecs]
    exact hi
  | dp =>
    rw [hw.recs, h.dpEnd, record_end]
    exact hi.append _

theorem Written.generation (hw : Written p io v w) :
    w.index.generation = (newImage p io v).index.generation := by
  obtain ⟨c, hc⟩ := hw.index
  rw [hc]

theorem generation_grows (io : IndexIo) (p : Part) (hr : RoomForGeneration v) :
    v.index.generation ≤ (newImage p io v).index.generation ∧
      (v.isDirty = true → v.index.generation < (newImage p io v).index.generation) := by
  have hg := newImage_generation p io hr
  refine ⟨?_, fun hd => ?_⟩
  · rw [UInt32.le_iff_toNat_le]
    omega
  · rw [UInt32.lt_iff_toNat_lt]
    rw [hd] at hg
    simp only [if_true] at hg
    omega

theorem newImage_backptr (p : Part) (io : IndexIo) (v : Volume) :
    (newImage p io v).index.backptr = lastDp v := rfl

/-- The index that a write puts on tape passes the checks of the reader. -/
theorem InStep.newPlaced (h : InStep l v) (p : Part) (io : IndexIo) :
    WellPlaced l p (appendBlock v.tape p + 1) (newImage p io v).index := by
  refine ⟨?_, ?_, ?_⟩
  · rw [← h.label]
    rfl
  · have := h.labels p
    omega
  · rw [newImage_backptr]
    obtain ⟨hp, ⟨img, hat⟩, -⟩ | ⟨hp, -⟩ := h.latest
    · refine .inr ⟨hp, (h.placed _ _ hat).first, ?_⟩
      rintro rfl
      have hlen := hat.length_le
      have hpos := img.blocks_pos
      have hend := h.mounted.dpEnd
      omega
    · exact .inl (h.nul hp)

theorem InStep.newBackTo (h : InStep l v) (p : Part) (io : IndexIo) :
    BackTo l (v.tape.recs .dp) (newImage p io v).index := by
  rw [BackTo, newImage_backptr]
  obtain ⟨hp, hat, -⟩ | ⟨hp, hnone⟩ := h.latest
  · exact .inr ⟨hp, hat⟩
  · exact .inl ⟨h.nul hp, fun b img hi => absurd hi (hnone b img)⟩

theorem Written.dirty (hw : Written p io v w) : w.isDirty = false := by
  obtain ⟨c, hc⟩ := hw.index
  simp [Volume.isDirty, hc]

theorem Written.oneTree (h : InStep l v) (hr : RoomForGeneration v) (hw : Written p io v w) : OneTree w := by
  obtain ⟨root, hall, hclean⟩ := h.oneTree
  obtain ⟨hle, hlt⟩ := generation_grows io p hr
  refine ⟨v.index.root, fun q b img hi hg => ?_, fun _ => Written.root hw⟩
  rw [Written.generation hw] at hg
  obtain hi | ⟨-, -, rfl⟩ := Written.indexes h hw hi
  · have hold := h.gens q b img hi
    cases hd : v.isDirty with
    | true =>
      have := hlt hd
      rw [← hg] at this
      exact absurd this (UInt32.not_lt.mpr hold)
    | false =>
      have heq := UInt32.le_antisymm hold (hg ▸ hle)
      rw [hall q b img hi heq, hclean hd]
  · exact bumpGeneration_root io.now v.isDirty v.index

theorem Written.gens (h : InStep l v) (hr : RoomForGeneration v) (hw : Written p io v w) (q : Part) (b : Nat)
    (img : Image) (hi : IndexAt (w.tape.recs q) b img) : img.index.generation ≤ w.index.generation := by
  rw [Written.generation hw]
  obtain hi | ⟨-, -, rfl⟩ := Written.indexes h hw hi
  · exact UInt32.le_trans (h.gens q b img hi) (generation_grows io p hr).1
  · exact UInt32.le_refl _

theorem Written.placed (h : InStep l v) (hw : Written p io v w) (b : Nat) (img : Image)
    (hi : IndexAt (w.tape.recs .dp) b img) : WellPlaced l .dp b img.index := by
  obtain hi | ⟨rfl, rfl, rfl⟩ := Written.indexes h hw hi
  · exact h.placed b img hi
  · exact h.newPlaced .dp io

theorem Written.appendBlock_ip (h : InStep l v) (hw : Written .ip io v w) :
    appendBlock w.tape .ip = appendBlock v.tape .ip := by
  have hl := h.labels .ip
  have ha : w.tape.dev.appendPos.get .ip = appendBlock v.tape .ip := by
    rw [hw.append]
    simp
  exact appendBlock_of_append ha (fun h0 => by omega)

theorem Written.recs_dp_append (h : Mounted v) (hw : Written .dp io v w) :
    w.tape.recs .dp = v.tape.recs .dp ++ construct (newImage .dp io v) := by
  rw [hw.recs, h.dpEnd, record_end]

theorem take_overwrite {rs : List Record} {a : Nat} (h : a ≤ rs.length) (hne : ws ≠ []) :
    (record rs a ws).take a = rs.take a := by
  rw [record_ne_nil hne, overwrite, List.take_append_of_le_length (by simp [h]), List.take_take]
  simp

theorem Written.closed (h : InStep l v) (hm : Mounted w) (hw : Written p io v w) (q : Part) :
    ¬ Dangling ((w.tape.recs q).take (appendBlock w.tape q)) := by
  obtain rfl | rfl := Part.eq_or_other p q
  · cases q with
    | ip =>
      rw [Written.appendBlock_ip h hw, hw.recs, take_overwrite (h.mounted.bound .ip) (by simp [construct])]
      exact h.closed .ip
    | dp =>
      rw [hm.dpEnd, List.take_length, Written.recs_dp_append h.mounted hw]
      exact not_dangling_construct _ _
  · rw [Written.appendBlock_other hw, hw.other]
    exact h.closed _

theorem Written.labels (h : InStep l v) (hw : Written p io v w) (q : Part) : 4 ≤ appendBlock w.tape q := by
  obtain rfl | rfl := Part.eq_or_other p q
  · exact Nat.le_trans (h.labels q) (Written.append_le (h.mounted.bound q) hw).1
  · rw [Written.appendBlock_other hw]
    exact h.labels _

theorem Written.lastDp_ip (hw : Written .ip io v w) : lastDp w = lastDp v := by
  have hself : w.index.selfptr.partition ≠ w.label.id .dp := by
    simp [Written.selfptr hw, hw.label]
  obtain ⟨c, hc⟩ := hw.index
  rw [lastDp, if_neg hself, hc]
  rfl

theorem Written.lastDp_dp (hw : Written .dp io v w) :
    lastDp w = ⟨appendBlock v.tape .dp + 1, v.label.id .dp⟩ := by
  have hself : w.index.selfptr.partition = w.label.id .dp := by
    simp [Written.selfptr hw, hw.label]
  rw [lastDp, if_pos hself, Written.selfptr hw]

theorem Written.latest (h : InStep l v) (hw : Written p io v w) :
    LatestDp l (w.tape.recs .dp) (lastDp w) ∧ ((lastDp w).partition = '\x00' → lastDp w = .null) := by
  cases p with
  | ip =>
    have hrecs : w.tape.recs .dp = v.tape.recs .dp := hw.other
    rw [Written.lastDp_ip hw, hrecs]
    exact ⟨h.latest, h.nul⟩
  | dp =>
    have hd := h.closed .dp
    rw [h.mounted.dpEnd, List.take_length] at hd
    rw [Written.lastDp_dp hw, Written.recs_dp_append h.mounted hw, h.mounted.dpEnd, h.label]
    exact ⟨latestDp_construct l _ hd, fun hn => absurd hn (l.id_ne_nul .dp)⟩

theorem BackTo.written {i : Index} (h : InStep l v) (hr : RoomForGeneration v) (hw : Written p io v w)
    (hi : i.generation ≤ v.index.generation) (hb : BackTo l (v.tape.recs .dp) i) :
    BackTo l (w.tape.recs .dp) i := by
  obtain ⟨hnull, hall⟩ | ⟨hp, img, hat⟩ := hb
  · refine .inl ⟨hnull, fun b img hat => ?_⟩
    obtain hat | ⟨-, -, rfl⟩ := Written.indexes h hw hat
    · exact hall b img hat
    · exact UInt32.le_trans hi (generation_grows io p hr).1
  · exact .inr ⟨hp, img, Written.kept h.mounted hw hat⟩

theorem Written.ended (h : InStep l v) (hr : RoomForGeneration v) (hw : Written p io v w) (q : Part)
    (hf : w.indexFileEnd.get q = true) : Ended l q w := by
  obtain rfl | rfl := Part.eq_or_other p q
  · obtain ⟨pre, hpre, hlen⟩ := Written.ends h.mounted hw
    refine ⟨pre, _, hpre, ?_, ?_, ?_, ?_⟩
    · rw [hw.stampSelf]
    · rw [hw.stampSelf, hlen]
    · rw [hlen]
      exact h.newPlaced q io
    · rintro rfl
      have hrecs : w.tape.recs .dp = v.tape.recs .dp := hw.other
      rw [hrecs]
      exact h.newBackTo .ip io
  · rw [hw.flags, Sides.get_set_other] at hf
    obtain ⟨pre, img, hpre, hcount, hset, hplaced, hback⟩ := h.ends _ hf
    refine ⟨pre, img, hw.other.trans hpre, ?_, ?_, hplaced, fun hq => ?_⟩
    · rw [hw.stampOther, if_pos hf]
      exact hcount
    · rw [hw.stampOther, if_pos hf]
      exact hset
    · refine BackTo.written h hr hw (h.gens p.other (pre.length + 1) img ?_) (hback hq)
      rw [hpre]
      exact indexAt_end pre img

theorem Written.vcrs (h : InStep l v) (hw : Written p io v w) (q : Part) :
    (w.coh.get q).volumeChangeRef ≤ w.tape.medium.vcr := by
  have hv := hw.vcr
  obtain rfl | rfl := Part.eq_or_other p q
  · exact Nat.le_of_eq (by rw [hw.stampSelf])
  · rw [hw.stampOther]
    split
    · exact Nat.le_refl _
    · have := h.vcrs p.other
      omega

/-- A partition without a new attribute keeps an outdated one. -/
theorem Written.stamped (h : InStep l v) (hw : Written p io v w) {q : Part}
    (hq : (w.tape.medium.coh.get q).volumeChangeRef = w.tape.medium.vcr) : w.indexFileEnd.get q = true := by
  by_contra hf
  have hv := hw.vcr
  have hold := h.vcrs q
  rw [hw.stampMedium q, if_neg hf, h.coh] at hq
  rw [construct_length] at hv
  omega

theorem Written.paired_ip (h : InStep l v) (hr : RoomForGeneration v) (hw : Written .ip io v w)
    (hf : v.indexFileEnd.dp = true) :
    ∃ preI preD imgD, Paired l w.tape.medium preI preD (newImage .ip io v) imgD := by
  obtain ⟨preI, hpreI, hlenI⟩ := Written.ends h.mounted hw
  obtain ⟨preD, imgD, hpreD, hcount, hset, -, -⟩ := h.ends .dp hf
  have hdp : w.tape.recs .dp = v.tape.recs .dp := hw.other
  have hgen := Written.generation hw
  have hcoh : ∀ q, w.tape.medium.coh.get q = w.coh.get q := by
    intro q
    rw [hw.coh_eq h.coh]
  have hdpCoh := hw.stampOther
  simp only [Part.other, Sides.get_dp, hf, if_true] at hdpCoh
  have hat : IndexAt (w.tape.recs .dp) (preD.length + 1) imgD := by
    rw [hdp, hpreD]
    exact indexAt_end preD imgD
  refine ⟨preI, preD, imgD, hpreI, hdp.trans hpreD, ?_, Written.placed h hw, ?_, ?_, ?_, ?_, ?_, .inl ⟨?_, ?_⟩⟩
  · rw [hlenI]
    exact h.newPlaced .ip io
  · exact congrArg Coherency.count ((hcoh .ip).trans hw.stampSelf)
  · exact (congrArg Coherency.count ((hcoh .dp).trans hdpCoh)).trans hcount
  · exact (congrArg Coherency.setId ((hcoh .ip).trans hw.stampSelf)).trans (by rw [hlenI])
  · exact (congrArg Coherency.setId ((hcoh .dp).trans hdpCoh)).trans hset
  · intro heq
    obtain ⟨root, hall, -⟩ := Written.oneTree h hr hw
    rw [hall .dp _ imgD hat (heq.symm.trans hgen.symm)]
    refine hall .ip (preI.length + 1) _ ?_ hgen.symm
    rw [hpreI]
    exact indexAt_end preI _
  · rw [newImage_backptr]
    rw [hdp] at hat
    obtain ⟨hp, ⟨img, hi⟩, hmax⟩ | ⟨-, hnone⟩ := h.latest
    · have hle := hmax _ _ hat
      rw [hpreD] at hi
      have hge := indexAt_le_last hi
      have hb : (lastDp v).block = preD.length + 1 := by omega
      rw [← hb, ← hp]
    · exact absurd hat (hnone _ _)
  · intro q b img hi
    rw [← hgen]
    exact Written.gens h hr hw q b img hi

theorem Written.paired_dp (h : InStep l v) (hr : RoomForGeneration v) (hw : Written .dp io v w)
    (hf : v.indexFileEnd.ip = true) :
    ∃ preI preD imgI, Paired l w.tape.medium preI preD imgI (newImage .dp io v) := by
  obtain ⟨preI, imgI, hpreI, hcount, hset, hplaced, hback⟩ := h.ends .ip hf
  have hip : w.tape.recs .ip = v.tape.recs .ip := hw.other
  have hdp := Written.recs_dp_append h.mounted hw
  have hgen := Written.generation hw
  have hcoh : ∀ q, w.tape.medium.coh.get q = w.coh.get q := by
    intro q
    rw [hw.coh_eq h.coh]
  have hipCoh := hw.stampOther
  simp only [Part.other, Sides.get_ip, hf, if_true] at hipCoh
  have hat : IndexAt (w.tape.recs .ip) (preI.length + 1) imgI := by
    rw [hip, hpreI]
    exact indexAt_end preI imgI
  refine ⟨preI, v.tape.recs .dp, imgI, hip.trans hpreI, hdp, hplaced, Written.placed h hw, ?_, ?_, ?_, ?_, ?_,
    .inr ⟨?_, ?_, ?_⟩⟩
  · exact (congrArg Coherency.count ((hcoh .ip).trans hipCoh)).trans hcount
  · exact congrArg Coherency.count ((hcoh .dp).trans hw.stampSelf)
  · exact (congrArg Coherency.setId ((hcoh .ip).trans hipCoh)).trans hset
  · exact (congrArg Coherency.setId ((hcoh .dp).trans hw.stampSelf)).trans (by rw [h.mounted.dpEnd])
  · intro heq
    obtain ⟨root, hall, -⟩ := Written.oneTree h hr hw
    rw [hall .ip _ imgI hat (heq.trans hgen.symm)]
    refine (hall .dp ((v.tape.recs .dp).length + 1) _ ?_ hgen.symm).symm
    rw [hdp]
    exact indexAt_end _ _
  · intro heq
    obtain ⟨hnull, -⟩ | ⟨-, img, hi⟩ := hback rfl
    · rw [hnull] at heq
      exact l.id_ne_nul .dp (congrArg TapeOffset.partition heq).symm
    · have hlen := hi.length_le
      rw [heq] at hlen
      simp only at hlen
      omega
  · intro q b img hi
    rw [← hgen]
    exact Written.gens h hr hw q b img hi
  · rw [newImage_backptr]
    intro hlt
    obtain ⟨-, ⟨img, hi⟩, -⟩ | ⟨hnul, -⟩ := h.latest
    · refine ⟨img, Written.kept h.mounted hw hi, fun hpart => ?_⟩
      obtain ⟨-, hall⟩ | ⟨hp, -⟩ := hback rfl
      · exact hall _ _ hi
      · exact absurd (hp.symm.trans hpart) (l.id_ne_nul .dp)
    · rw [h.nul hnul] at hlt
      exact absurd hlt (Nat.not_lt_zero _)

theorem Written.sound (h : InStep l v) (hr : RoomForGeneration v) (hw : Written p io v w) :
    Sound l w.tape.medium := by
  rintro ⟨-, -, -, hip, hdp⟩
  have hfip := Written.stamped h hw (q := .ip) hip.symm
  have hfdp := Written.stamped h hw (q := .dp) hdp.symm
  rw [hw.flags] at hfip hfdp
  cases p with
  | ip =>
    obtain ⟨preI, preD, imgD, hpair⟩ := Written.paired_ip h hr hw hfdp
    exact ⟨preI, preD, _, imgD, hpair⟩
  | dp =>
    obtain ⟨preI, preD, imgI, hpair⟩ := Written.paired_dp h hr hw hfip
    exact ⟨preI, preD, imgI, _, hpair⟩

end Written

end Ltfs.Coherent
