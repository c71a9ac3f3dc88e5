import Ltfs.CrashSafe
import Ltfs.Revalidate

namespace Ltfs.RevalidateRun

open Format Lib.Log Lib.Run Records Constructs TapeDevice TapeSpec WriteIndex WriteSession IndexSession
  IndexBody DataSession VolumeRun BackPointers GoodDrive Consistent Revalidate

variable {p : Part} {v u w : Volume} {io nested : IndexIo} {ws : List Record}

structure Inv (v : Volume) : Prop where
  mounted : Mounted v
  settled : Settled v
  dpLabel : v.tape.recs .dp ≠ []

/-- The append position of the index partition never stands at its last block. -/
theorem Inv.ip_append (h : Inv v) : appendBlock v.tape .ip + 1 ≠ (v.tape.recs .ip).length := by
  cases hf : v.indexFileEnd.ip with
  | false => exact h.settled.ipOpen hf
  | true =>
    obtain ⟨pre, img, hpre, -, happ⟩ := h.settled.ipIndex hf
    by_cases h0 : v.tape.dev.appendPos.ip = 0
    · simp [appendBlock, h0]
    · have := happ h0
      simp only [appendBlock, Sides.get_ip, h0, if_false]
      rw [hpre, List.length_append, construct_length]
      omega

theorem dpPointerDiffers_of_selfptr {b : Nat} (hs : v.selfptrIn .dp = true) (hb : v.index.selfptr.block = b) :
    ¬ dpPointerDiffers v b := by
  rintro (⟨-, h⟩ | ⟨h, -⟩)
  · exact h hb
  · rw [hs] at h
    cases h

/-- The pointers after an index write to the index partition still name the last index of the data
partition. -/
theorem Written.dpPointer (hw : Written .ip io v w) {b : Nat} (h : ¬ dpPointerDiffers v b) :
    ¬ dpPointerDiffers w b := by
  obtain ⟨c, hc⟩ := hw.index
  have hself : w.selfptrIn .dp = false := by
    simp [Volume.selfptrIn, Written.selfptr hw, hw.label]
  have hback : w.index.backptr = lastDp v := by
    rw [hc]
    rfl
  rintro (⟨hd, -⟩ | ⟨-, hp, hb⟩)
  · rw [hself] at hd
    cases hd
  · rw [hback] at hp hb
    rw [hw.label] at hp
    apply h
    simp only [lastDp] at hp hb
    by_cases hs : v.index.selfptr.partition = v.label.id .dp
    · rw [if_pos hs] at hb
      exact .inl ⟨decide_eq_true hs, hb⟩
    · rw [if_neg hs] at hp hb
      exact .inr ⟨decide_eq_false hs, hp, hb⟩

theorem Settled.written_dp (h : Inv v) (hm : Mounted w) (hw : Written .dp io v w) : Settled w where
  coh := hw.coh_eq h.settled.coh
  dpAppend := hm.dpEnd
  dpOpen := fun hf => by
    rw [hw.flags] at hf
    cases hf
  dpIndex := fun _ => by
    obtain ⟨pre, hpre, hlen⟩ := Written.ends h.mounted hw
    refine ⟨pre, _, hpre, dpPointerDiffers_of_selfptr (Written.spares hw .ip rfl) ?_⟩
    rw [Written.selfptr hw, hlen]
  ipOpen := fun hf => by
    rw [hw.flags] at hf
    have hrecs : w.tape.recs .ip = v.tape.recs .ip := hw.other
    have happ : appendBlock w.tape .ip = appendBlock v.tape .ip := Written.appendBlock_other hw
    rw [happ, hrecs]
    exact h.settled.ipOpen hf
  ipIndex := fun hf => by
    rw [hw.flags] at hf
    obtain ⟨pre, img, hpre, -, happ⟩ := h.settled.ipIndex hf
    refine ⟨pre, img, hw.other.trans hpre, fun hs => ?_, ?_⟩
    · simp [Volume.selfptrIn, Written.selfptr hw, hw.label] at hs
    · rw [hw.append]
      exact happ

theorem Settled.written_ip (h : Inv v) (hm : Mounted w) (hw : Written .ip io v w) : Settled w where
  coh := hw.coh_eq h.settled.coh
  dpAppend := hm.dpEnd
  dpOpen := fun hf => by
    rw [hw.flags] at hf
    rw [hw.append]
    exact h.settled.dpOpen hf
  dpIndex := fun hf => by
    rw [hw.flags] at hf
    obtain ⟨pre, img, hpre, hptr⟩ := h.settled.dpIndex hf
    exact ⟨pre, img, hw.other.trans hpre, Written.dpPointer hw hptr⟩
  ipOpen := fun hf => by
    rw [hw.flags] at hf
    cases hf
  ipIndex := fun _ => by
    obtain ⟨pre, hpre, hlen⟩ := Written.ends h.mounted hw
    refine ⟨pre, _, hpre, fun _ => ?_, fun _ => ?_⟩
    · rw [Written.selfptr hw, hlen]
    · rw [hw.append, hlen]
      rfl

theorem writeIndexBody_inv (h : Inv v) (hg : GoodWrite p io v) : Inv (writeIndexBody p io v).2 := by
  obtain ⟨w, hx, hw, hm⟩ := writeIndexBody_written h.mounted hg
  rw [hx]
  cases p with
  | ip =>
    have hrecs : w.tape.recs .dp = v.tape.recs .dp := hw.other
    refine ⟨hm, Settled.written_ip h hm hw, ?_⟩
    change w.tape.recs .dp ≠ []
    rw [hrecs]
    exact h.dpLabel
  | dp =>
    refine ⟨hm, Settled.written_dp h hm hw, ?_⟩
    obtain ⟨pre, hpre, -⟩ := Written.ends h.mounted hw
    simp [hpre, construct]

theorem Fenced.inv (hf : Fenced u w) (h : Inv u) : Inv w := by
  have hm := Fenced.mounted hf h.mounted
  obtain ⟨hc, h1, h2, h3, h4, h5⟩ := h.settled
  have hd := h.dpLabel
  rw [hf] at hm ⊢
  exact ⟨hm, ⟨hc, h1, h2, h3, h4, h5⟩, hd⟩

/-- Data behind the last index of a partition. -/
theorem Settled.wrote (h : Inv v) (hm : Mounted u) (hi : u.index = v.index)
    (hu : Wrote p { v with indexFileEnd := v.indexFileEnd.set p false } ws u) : Settled u := by
  have hcoh : u.tape.medium.coh = u.coh := by
    rw [hu.medium, mediumAfter_coh, (by rw [hu.same] : u.coh = v.coh)]
    exact h.settled.coh
  have hflags : u.indexFileEnd = v.indexFileEnd.set p false := by rw [hu.same]
  have hself : ∀ q, u.selfptrIn q = v.selfptrIn q := by
    intro q
    simp only [Volume.selfptrIn, hi, (by rw [hu.same] : u.label = v.label)]
  have hother : ∀ q, q = p.other → u.tape.recs q = v.tape.recs q := by
    rintro q rfl
    have := Wrote.recs_other hu
    exact this
  have happend : ∀ q, q = p.other → u.tape.dev.appendPos.get q = v.tape.dev.appendPos.get q := by
    rintro q rfl
    rw [hu.append]
    simp
  have hself_append : appendBlock u.tape p = appendBlock v.tape p + ws.length := by
    have := Wrote.appendBlock_self hu
    exact this
  have hself_recs : u.tape.recs p = record (v.tape.recs p) (appendBlock v.tape p) ws := by
    have := Wrote.recs_self hu
    exact this
  cases p with
  | ip =>
    have hdp := happend .dp rfl
    simp only [Sides.get_dp] at hdp
    refine ⟨hcoh, hm.dpEnd, fun hf => ?_, fun hf => ?_, fun _ => ?_, fun hf => ?_⟩
    · rw [hdp]
      rw [hflags] at hf
      exact h.settled.dpOpen hf
    · rw [hflags] at hf
      obtain ⟨pre, img, hpre, hptr⟩ := h.settled.dpIndex hf
      refine ⟨pre, img, (hother .dp rfl).trans hpre, ?_⟩
      simp only [dpPointerDiffers, hself, hi, (by rw [hu.same] : u.label = v.label)]
      exact hptr
    · rw [hself_append, hself_recs]
      by_cases hne : ws = []
      · subst hne
        exact h.ip_append
      · rw [length_record_append (h.mounted.bound .ip) hne]
        omega
    · rw [hflags] at hf
      cases hf
  | dp =>
    have hip := happend .ip rfl
    simp only [Sides.get_ip] at hip
    refine ⟨hcoh, hm.dpEnd, fun _ h0 => ?_, fun hf => ?_, fun hf => ?_, fun hf => ?_⟩
    · -- the label is on the partition, so that its end is not block 0
      have hlen := List.length_pos_of_ne_nil h.dpLabel
      have hend := h.mounted.dpEnd
      have hpos : u.tape.dev.appendPos.dp = appendBlock v.tape .dp + ws.length := by
        rw [hu.append]
        rfl
      omega
    · rw [hflags] at hf
      cases hf
    · rw [hflags] at hf
      rw [appendBlock_congr (happend .ip rfl) (hother .ip rfl), hother .ip rfl]
      exact h.settled.ipOpen hf
    · rw [hflags] at hf
      obtain ⟨pre, img, hpre, hptr, happ⟩ := h.settled.ipIndex hf
      refine ⟨pre, img, (hother .ip rfl).trans hpre, ?_, ?_⟩
      · rw [hself, hi]
        exact hptr
      · rw [hip]
        exact happ

theorem writeDataAtAppend_inv (buf : Bytes) (n : Nat) {dio : DataIo} (h : Inv v) (hs : Spares p v)
    (hg : AllGoodData dio) :
    Inv (writeDataAtAppend p buf n dio { v with indexFileEnd := v.indexFileEnd.set p false }).2.2 := by
  have hlow := h.mounted.lowerFlag hs
  obtain ⟨u, -, -, -, hbad⟩ | ⟨u, ds, -, hu, hi, hf, -⟩ :=
    writeDataAtAppend_cases p buf n dio hlow.sane.inBounds
  · exact absurd (seekAppendPosition_good _ (hlow.bound p) hg.locate hg.allowOverwrite) hbad
  · have hm := hlow.wrote hs hu hi
    refine Fenced.inv hf ⟨hm, Settled.wrote h hm hi hu, ?_⟩
    intro hnil
    cases p with
    | ip => exact h.dpLabel ((Wrote.recs_dp_of_ip hu).symm.trans hnil)
    | dp =>
      rw [Wrote.recs_dp hu hlow.dpEnd] at hnil
      exact h.dpLabel (List.append_eq_nil_iff.mp hnil).1

theorem step_inv (v : Volume) (a : Act) (h : Inv v) (ha : GoodAct v a) : Inv (step v a) := by
  refine step_lift GoodWrite AllGoodData (fun root _ v => OnData v.label v.tape.medium root)
    (fun v h => h.mounted.sane) (fun v p io => writeIndexBody_inv) ?_ (fun v w => Fenced.inv) ?_ ?_ v a h
    (ha.meets h.mounted)
  · rintro v r ⟨hm, ⟨hc, h1, h2, h3, h4, h5⟩, hd⟩
    exact ⟨⟨⟨hm.sane.inBounds, hm.sane.fits⟩, hm.bound, hm.dpEnd, hm.data, hm.onData, hm.newest⟩,
      ⟨hc, h1, h2, h3, h4, h5⟩, hd⟩
  · intro v p buf n dio h _ hn hg
    exact writeDataAtAppend_inv buf n h (h.mounted.spares hn) hg
  · rintro v root atime ⟨hm, ⟨hc, h1, h2, h3, h4, h5⟩, hd⟩ hr
    exact ⟨hm.edit atime hr, ⟨hc, h1, h2, h3, h4, h5⟩, hd⟩

def goodReval : RevalIo :=
  ⟨good, good, false, ⟨.writable, .writable⟩, fun _ => good, fun _ => good, fun _ _ => good⟩

end Ltfs.RevalidateRun
