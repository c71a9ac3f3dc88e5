import Ltfs.Coherent

namespace Ltfs.MountRun

open Format Lib.Log Lib.Run Records Constructs TapeDevice TapeSpec WriteIndex WriteSession IndexSession
  IndexBody DataSession VolumeRun BackPointers GoodDrive Consistent Mount MountSpec Coherent

variable {l : Label} {p q : Part} {v u w : Volume} {io nested : IndexIo} {ws ws₁ : List Record} {b : Nat}
  {img : Image} {m : Medium} {e : Event}

/-- The attributes of `w` are those of `v`, or up to date. -/
def Restamped (v w : Volume) : Prop :=
  ∀ q, w.tape.medium.coh.get q = v.tape.medium.coh.get q ∨
    (w.tape.medium.coh.get q).volumeChangeRef = w.tape.medium.vcr

/-- On the way from `v` to `w` the attributes are outdated from the first record to the last stamp. -/
theorem Within.sound (h : InStep l v) (hs : Sound l w.tape.medium) (hr : Restamped v w)
    (hv : w.tape.medium.vcr = v.tape.medium.vcr + ws.length)
    (hm : w.tape.medium.recs = (mediumAfter v.tape.medium p (appendBlock v.tape p) ws).recs)
    (hnil : ws = [] → w.tape.medium.coh = v.tape.medium.coh) (hpre : ws₁ <+: ws) (hx : Within p v w ws₁ m) :
    Sound l m := by
  have hold : ∀ q, (v.tape.medium.coh.get q).volumeChangeRef ≤ v.tape.medium.vcr := by
    intro q
    rw [h.coh]
    exact h.vcrs q
  intro hfast
  have hcur : ∀ q, m.vcr = (m.coh.get q).volumeChangeRef := by
    obtain ⟨-, -, -, hip, hdp⟩ := hfast
    intro q
    cases q
    · exact hip
    · exact hdp
  by_cases hne : ws₁ = []
  · subst hne
    have hvcr : m.vcr = v.tape.medium.vcr := hx.vcr
    have hcoh : ∀ q, m.coh.get q = v.tape.medium.coh.get q := by
      intro q
      obtain hq | hq := hx.coh q
      · exact hq
      · obtain hw | hw := hr q
        · exact hq.trans hw
        · have hlen := hcur q
          rw [hq, hw, hvcr, hv] at hlen
          rw [hq, hnil (List.eq_nil_of_length_eq_zero (by omega))]
    have heq : m = v.tape.medium := Medium.eq_of (by rw [hx.recs, mediumAfter_nil]) hcoh hvcr
    subst heq
    exact h.sound hfast
  · have hpos := List.length_pos_of_ne_nil hne
    have hnew : ∀ q, m.coh.get q = w.tape.medium.coh.get q ∧ ws₁.length = ws.length := by
      intro q
      have hq := hcur q
      have hvcr := hx.vcr
      have hle := hold q
      obtain hc | hc := hx.coh q
      · rw [hc] at hq
        omega
      · refine ⟨hc, ?_⟩
        rw [hc] at hq
        obtain hw | hw := hr q
        · rw [hw] at hq
          omega
        · omega
    have hws : ws₁ = ws := hpre.eq_of_length (hnew .ip).2
    subst hws
    have heq : m = w.tape.medium :=
      Medium.eq_of (hx.recs.trans hm.symm) (fun q => (hnew q).1) (hx.vcr.trans hv.symm)
    subst heq
    exact hs hfast

/-- The history grows by commands between `v` and `w`. -/
theorem InStep.events_extend (h : InStep l v) (hs : Sound l w.tape.medium) (hr : Restamped v w)
    (hv : w.tape.medium.vcr = v.tape.medium.vcr + ws.length)
    (hm : w.tape.medium.recs = (mediumAfter v.tape.medium p (appendBlock v.tape p) ws).recs)
    (hnil : ws = [] → w.tape.medium.coh = v.tape.medium.coh)
    (hes : ∃ es, w.history = es ++ v.history ∧ ∀ e ∈ es, During p v w ws e) :
    ∀ e ∈ w.history, Sound l e.before ∧ Sound l e.after := by
  obtain ⟨es, hes, hall⟩ := hes
  intro e he
  rw [hes] at he
  obtain he | he := List.mem_append.mp he
  · obtain ⟨-, -, ws₁, ws₂, hpre, hb, ha⟩ := hall e he
    exact ⟨Within.sound h hs hr hv hm hnil ((List.prefix_append ws₁ ws₂).trans hpre) hb,
      Within.sound h hs hr hv hm hnil hpre ha⟩
  · exact h.events e he

theorem InStep.written (h : InStep l v) (hr : RoomForGeneration v) (hm : Mounted w) (hw : Written p io v w) :
    InStep l w := by
  have hsound := Written.sound h hr hw
  have hcoh := hw.coh_eq h.coh
  have hre : Restamped v w := by
    intro q
    by_cases hq : w.indexFileEnd.get q = true
    · right
      rw [hcoh]
      obtain rfl | rfl := Part.eq_or_other p q
      · rw [hw.stampSelf]
      · rw [hw.flags, Sides.get_set_other] at hq
        rw [hw.stampOther, if_pos hq]
    · left
      rw [hw.stampMedium q, if_neg hq]
  obtain ⟨hlatest, hnul⟩ := Written.latest h hw
  exact ⟨hm, hw.label.trans h.label, hcoh, Written.vcrs h hw, Written.labels h hw, Written.closed h hm hw, hlatest,
    hnul, Written.placed h hw, Written.gens h hr hw, Written.oneTree h hr hw, Written.ended h hr hw, hsound,
    InStep.events_extend h hsound hre hw.vcr hw.medium (fun h => by simp [construct] at h) hw.events⟩

section Data

theorem InStep.lowerFlag (h : InStep l v) (hs : Spares p v) :
    InStep l { v with indexFileEnd := v.indexFileEnd.set p false } := by
  refine ⟨h.mounted.lowerFlag hs, h.label, h.coh, h.vcrs, h.labels, h.closed, h.latest, h.nul, h.placed, h.gens,
    h.oneTree, fun q hq => ?_, h.sound, h.events⟩
  obtain rfl | rfl := Part.eq_or_other p q
  · simp at hq
  · simp only [Sides.get_set_other] at hq
    exact h.ends _ hq

theorem Wrote.indexes (h : InStep l v) (hu : Wrote p v ws u) (hd : ∀ r ∈ ws, ∃ d, r = .data d)
    (hi : IndexAt (u.tape.recs q) b img) : IndexAt (v.tape.recs q) b img := by
  obtain rfl | rfl := Part.eq_or_other p q
  · rw [Wrote.recs_self hu] at hi
    exact indexAt_record_data (h.closed q) (h.mounted.bound q) hd hi
  · rw [Wrote.recs_other hu] at hi
    exact hi

theorem Wrote.kept (h : Mounted v) (hu : Wrote p v ws u) (hi : IndexAt (v.tape.recs .dp) b img) :
    IndexAt (u.tape.recs .dp) b img := by
  cases p with
  | ip =>
    rw [Wrote.recs_dp_of_ip hu]
    exact hi
  | dp =>
    rw [Wrote.recs_dp hu h.dpEnd]
    exact hi.append ws

theorem Wrote.closed (h : InStep l v) (hu : Wrote p v ws u) (hd : ∀ r ∈ ws, ∃ d, r = .data d) (q : Part) :
    ¬ Dangling ((u.tape.recs q).take (appendBlock u.tape q)) := by
  obtain rfl | rfl := Part.eq_or_other p q
  · rw [Wrote.recs_self hu, Wrote.appendBlock_self hu]
    obtain rfl | ⟨ds, r, rfl⟩ := List.eq_nil_or_concat ws
    · exact h.closed q
    · obtain ⟨d, rfl⟩ := hd r (by simp)
      have hne : ds.concat (Record.data d) ≠ [] := by simp
      rw [← length_record_append (h.mounted.bound q) hne, List.take_length, record_ne_nil hne, overwrite,
        List.concat_eq_append, ← List.append_assoc]
      exact not_dangling_concat _ (fun img k h => by cases h)
  · rw [Wrote.recs_other hu, Wrote.appendBlock_other hu]
    exact h.closed _

theorem Wrote.ended (h : InStep l v) (hu : Wrote p v ws u) (hd : ∀ r ∈ ws, ∃ d, r = .data d)
    (hf : v.indexFileEnd.get p = false) (q : Part) (hq : u.indexFileEnd.get q = true) : Ended l q u := by
  rw [(by rw [hu.same] : u.indexFileEnd = v.indexFileEnd)] at hq
  obtain rfl | rfl := Part.eq_or_other p q
  · rw [hf] at hq
    cases hq
  · obtain ⟨pre, img, hpre, hcount, hset, hplaced, hback⟩ := h.ends _ hq
    have hcoh : u.coh = v.coh := by rw [hu.same]
    refine ⟨pre, img, (Wrote.recs_other hu).trans hpre, hcoh ▸ hcount, hcoh ▸ hset, hplaced, fun hq => ?_⟩
    obtain ⟨hnull, hall⟩ | ⟨hp, img', hat⟩ := hback hq
    · exact .inl ⟨hnull, fun b img hi => hall b img (Wrote.indexes h hu hd hi)⟩
    · exact .inr ⟨hp, img', Wrote.kept h.mounted hu hat⟩

theorem InStep.wrote (h : InStep l v) (hs : Spares p v) (hf : v.indexFileEnd.get p = false)
    (hu : Wrote p v ws u) (hi : u.index = v.index) (hd : ∀ r ∈ ws, ∃ d, r = .data d) : InStep l u := by
  have hlabel : u.label = v.label := by rw [hu.same]
  have hcoh : u.coh = v.coh := by rw [hu.same]
  have hlast : lastDp u = lastDp v := by rw [lastDp, lastDp, hi, hlabel]
  have hmcoh : u.tape.medium.coh = v.tape.medium.coh := by rw [hu.medium, mediumAfter_coh]
  have hvcr : u.tape.medium.vcr = v.tape.medium.vcr + ws.length := by rw [hu.medium, mediumAfter_vcr]
  have hsound : Sound l u.tape.medium := by
    by_cases hne : ws = []
    · rw [hu.medium, hne, mediumAfter_nil]
      exact h.sound
    · rintro ⟨-, -, -, hip, -⟩
      have hpos := List.length_pos_of_ne_nil hne
      have hle := h.vcrs .ip
      rw [hmcoh, h.coh, hvcr] at hip
      simp only [Sides.get_ip] at hle
      omega
  refine ⟨h.mounted.wrote hs hu hi, hlabel.trans h.label, hmcoh.trans (h.coh.trans hcoh.symm), fun q => ?_,
    fun q => ?_, Wrote.closed h hu hd, ?_, ?_, fun b img hat => h.placed b img (Wrote.indexes h hu hd hat),
    fun q b img hat => ?_, ?_, Wrote.ended h hu hd hf, hsound, ?_⟩
  · have := h.vcrs q
    rw [hcoh, hvcr]
    omega
  · have := h.labels q
    obtain rfl | rfl := Part.eq_or_other p q
    · rw [Wrote.appendBlock_self hu]
      omega
    · rw [Wrote.appendBlock_other hu]
      exact this
  · rw [hlast]
    cases p with
    | ip =>
      rw [Wrote.recs_dp_of_ip hu]
      exact h.latest
    | dp =>
      have hclosed := h.closed .dp
      rw [h.mounted.dpEnd, List.take_length] at hclosed
      rw [Wrote.recs_dp hu h.mounted.dpEnd]
      exact (h.latest.append_data hclosed hd).2
  · rw [hlast]
    exact h.nul
  · rw [hi]
    exact h.gens q b img (Wrote.indexes h hu hd hat)
  · obtain ⟨root, hall, hclean⟩ := h.oneTree
    refine ⟨root, fun q b img hat hg => hall q b img (Wrote.indexes h hu hd hat) (hg.trans (by rw [hi])), ?_⟩
    simp only [Volume.isDirty, hi]
    exact hclean
  · obtain ⟨es, hes, hall⟩ := hu.events
    exact InStep.events_extend h hsound (fun q => .inl (by rw [hmcoh])) hvcr (by rw [hu.medium]) (fun _ => hmcoh)
      ⟨es, hes, fun e he => Sent.during (hall e he) u⟩

theorem Fenced.inStep (hf : Fenced u w) (h : InStep l u) : InStep l w := by
  have hm := Fenced.mounted hf h.mounted
  rw [hf] at hm ⊢
  exact ⟨hm, h.label, h.coh, h.vcrs, h.labels, h.closed, h.latest, h.nul, h.placed, h.gens, h.oneTree, h.ends, h.sound,
    h.events⟩

theorem writeDataAtAppend_inStep (buf : Bytes) (n : Nat) {dio : DataIo} (h : InStep l v) (hs : Spares p v)
    (hg : AllGoodData dio) :
    InStep l (writeDataAtAppend p buf n dio { v with indexFileEnd := v.indexFileEnd.set p false }).2.2 := by
  have hlow := InStep.lowerFlag h hs
  obtain ⟨u, -, -, -, hbad⟩ | ⟨u, ds, hds, hu, hi, hf, -⟩ :=
    writeDataAtAppend_cases p buf n dio hlow.mounted.sane.inBounds
  · exact absurd (seekAppendPosition_good _ (hlow.mounted.bound p) hg.locate hg.allowOverwrite) hbad
  · exact Fenced.inStep hf (InStep.wrote hlow hs (by simp) hu hi (dataRecords_spec hds))

end Data

/-- A change of the tree that leaves the index dirty. -/
def Visible (root : Dentry) (atime : Bool) (v : Volume) : Prop :=
  (editIndex root atime v).isDirty = true ∨ root = v.index.root

/-- What an action has to meet beside the drive: an index is not written when its generation is about to
wrap, and a change of the tree leaves the index dirty. -/
def Traceable (v : Volume) (a : Act) : Prop :=
  GoodAct v a ∧ CallMeets (fun _ _ _ v => RoomForGeneration v) v a ∧
    match a with
    | .edit root atime => Visible root atime v
    | _ => True

theorem indexMeets_room (h : Mounted v) (hg : AllGood io) (hn : AllGood nested) (hr : RoomForGeneration v) :
    IndexMeets (fun p io v => GoodWrite p io v ∧ RoomForGeneration v) p io nested v := by
  intro hok
  have hmeets := indexMeets_good (p := p) h hg hn hok
  split
  · rename_i hnd
    rw [if_pos hnd] at hmeets
    exact ⟨⟨hmeets.1, hr⟩, hmeets.2, roomForGeneration_body h.sane hr⟩
  · rename_i hnd
    rw [if_neg hnd] at hmeets
    exact ⟨hmeets, hr⟩

theorem Traceable.meets (h : Mounted v) {a : Act} (ht : Traceable v a) :
    ActMeets (fun p io v => GoodWrite p io v ∧ RoomForGeneration v) AllGoodData
      (fun root atime v => OnData v.label v.tape.medium root ∧ Visible root atime v) v a := by
  obtain ⟨hg, hc, he⟩ := ht
  cases a with
  | data p buf n io => exact ⟨fun hw => indexMeets_room h hg.index hg.nested (hc hw), hg⟩
  | index p io nested => exact indexMeets_room h hg.1 hg.2 hc
  | sync io nested => exact fun hd => indexMeets_room h hg.1 hg.2 (hc hd)
  | unmount io nested => exact fun hd => indexMeets_room h hg.1 hg.2 (hc hd)
  | edit root atime => exact ⟨hg, he⟩

theorem InStep.edit (h : InStep l v) {root : Dentry} {atime : Bool}
    (hr : OnData v.label v.tape.medium root) (he : Visible root atime v) : InStep l (editIndex root atime v) := by
  refine ⟨h.mounted.edit atime hr, h.label, h.coh, h.vcrs, h.labels, h.closed, h.latest, h.nul, h.placed, h.gens, ?_,
    h.ends, h.sound, h.events⟩
  obtain ⟨old, hall, hclean⟩ := h.oneTree
  refine ⟨old, hall, fun hd => ?_⟩
  obtain hdirty | rfl := he
  · rw [hd] at hdirty
    cases hdirty
  · refine hclean ?_
    simp only [Volume.isDirty, editIndex] at hd ⊢
    simp only [Bool.or_eq_false_iff, Bool.and_eq_false_iff] at hd ⊢
    obtain ⟨⟨hd, -⟩, ha⟩ := hd
    exact ⟨hd, ha.imp id And.left⟩

theorem step_inStep (v : Volume) (a : Act) (h : InStep l v) (ha : Traceable v a) : InStep l (step v a) := by
  refine step_lift (fun p io v => GoodWrite p io v ∧ RoomForGeneration v) AllGoodData
    (fun root atime v => OnData v.label v.tape.medium root ∧ Visible root atime v)
    (fun v h => h.mounted.sane) ?_ ?_ (fun v w => Fenced.inStep) ?_ ?_ v a h (ha.meets h.mounted)
  · rintro v p io h ⟨hg, hr⟩
    obtain ⟨w, hx, hw, hm⟩ := writeIndexBody_written h.mounted hg
    rw [hx]
    exact InStep.written h hr hm hw
  · intro v r h
    have hm := h.mounted
    exact ⟨⟨⟨hm.sane.inBounds, hm.sane.fits⟩, hm.bound, hm.dpEnd, hm.data, hm.onData, hm.newest⟩, h.label, h.coh,
      h.vcrs, h.labels, h.closed, h.latest, h.nul, h.placed, h.gens, h.oneTree, h.ends, h.sound, h.events⟩
  · intro v p buf n dio h _ hn hg
    exact writeDataAtAppend_inStep buf n h (h.mounted.spares hn) hg
  · intro v root atime h he
    exact InStep.edit h he.1 he.2

/-- In every run in which the generation does not wrap and changes of the tree make the index dirty, a
crash at any time leaves a medium on which the fast path of the mount, if it is taken, ends with the
generation and the tree that the full check finds, those of the newest complete index. -/
theorem mount_agrees (v : Volume) (acts : List Act) (hv : InStep l v) (h : Meets step Traceable v acts) :
    (∀ e ∈ (run step v acts).history, Agree l e.before ∧ Agree l e.after) ∧
    Agree l (run step v acts).tape.medium := by
  have hinv : InStep l (run step v acts) := h.invariant step_inStep hv
  refine ⟨fun e he => ?_, hinv.sound.agree⟩
  obtain ⟨hb, ha⟩ := hinv.events e he
  exact ⟨hb.agree, ha.agree⟩

section Sample

theorem labelRecords_closed : ¬ Dangling labelRecords :=
  not_dangling_concat [.label, .filemark, .label] (fun img k h => by cases h)

theorem labelRecords_indexAt {img' : Image} (h : IndexAt (labelRecords ++ construct img) b img') :
    b = 5 ∧ img' = img := by
  have hrecord : labelRecords ++ construct img = record labelRecords 4 (construct img) := rfl
  rw [hrecord] at h
  have hclosed : ¬ Dangling (labelRecords.take 4) := labelRecords_closed
  obtain hold | ⟨rfl, rfl⟩ := indexAt_record_construct hclosed (Nat.le_refl 4) h
  · have hblock := IndexAt.block hold
    have hmem := List.mem_of_getElem? hblock
    simp [labelRecords] at hmem
  · exact ⟨rfl, rfl⟩

def sampleImage (g : UInt32) (id : Char) : Image :=
  ⟨sampleIndex g ⟨5, id⟩ .null, 1, Nat.one_pos⟩

def sampleGeneration : Part → UInt32
  | .ip => 1
  | .dp => 2

theorem sampleImage_placed (g : UInt32) (p : Part) :
    WellPlaced sampleLabel p 5 (sampleImage g (sampleLabel.id p)).index :=
  ⟨rfl, Nat.le_refl 5, .inl rfl⟩

theorem sample_recs (p : Part) :
    (sample 1).tape.recs p = labelRecords ++ construct (sampleImage (sampleGeneration p) (sampleLabel.id p)) := by
  cases p <;> rfl

theorem sample_indexAt {img' : Image} (h : IndexAt ((sample 1).tape.recs p) b img') :
    b = 5 ∧ img' = sampleImage (sampleGeneration p) (sampleLabel.id p) := by
  rw [sample_recs] at h
  exact labelRecords_indexAt h

theorem sample_paired :
    Paired sampleLabel (sample 1).tape.medium labelRecords labelRecords (sampleImage 1 'a') (sampleImage 2 'b') where
  ip := rfl
  dp := rfl
  ipPlaced := sampleImage_placed 1 .ip
  dpPlaced := fun b img hi => by
    obtain ⟨rfl, rfl⟩ := sample_indexAt (p := .dp) hi
    exact sampleImage_placed 2 .dp
  ipCount := rfl
  dpCount := rfl
  ipSet := rfl
  dpSet := rfl
  same := fun h => absurd h (by decide)
  order := by
    refine .inr ⟨by decide, fun p b img hi => ?_, fun h => absurd h (by decide)⟩
    obtain ⟨rfl, rfl⟩ := sample_indexAt hi
    cases p <;> decide

theorem sample_inStep : InStep sampleLabel (sample 1) where
  mounted := CrashSafe.sample_mounted 1
  label := rfl
  coh := rfl
  vcrs := fun q => by cases q <;> decide
  labels := fun p => by cases p <;> decide
  closed := fun p => by
    cases p with
    | ip => exact labelRecords_closed
    | dp => exact not_dangling_construct labelRecords (sampleImage 2 'b')
  latest := latestDp_construct sampleLabel (sampleImage 2 'b') labelRecords_closed
  nul := fun h => absurd h (by decide)
  placed := fun b img hi => by
    obtain ⟨rfl, rfl⟩ := sample_indexAt (p := .dp) hi
    exact sampleImage_placed 2 .dp
  gens := fun p b img hi => by
    obtain ⟨rfl, rfl⟩ := sample_indexAt hi
    cases p <;> decide
  oneTree := by
    refine ⟨sampleRoot, fun p b img hi _ => ?_, fun _ => rfl⟩
    obtain ⟨rfl, rfl⟩ := sample_indexAt hi
    rfl
  ends := fun q _ => by
    refine ⟨labelRecords, _, sample_recs q, ?_, ?_, sampleImage_placed _ q, fun hq => ?_⟩
    · cases q <;> rfl
    · cases q <;> rfl
    · subst hq
      refine .inl ⟨rfl, fun b img hi => ?_⟩
      obtain ⟨rfl, rfl⟩ := sample_indexAt (p := .dp) hi
      decide
  sound := fun _ => ⟨_, _, _, _, sample_paired⟩
  events := fun e he => by cases he

/-- The indexes that a changed tree leaves on both partitions. -/
def syncActs : List Act :=
  [.edit sampleRoot false, .index .dp goodIo goodIo, .index .ip goodIo goodIo]

theorem syncActs_traceable : Meets step Traceable (sample 1) syncActs := by
  have hempty : ∀ l m, OnData l m sampleRoot := fun l m x hx => by cases hx
  have hgood : AllGood goodIo ∧ AllGood goodIo := ⟨CrashSafe.goodIo_allGood, CrashSafe.goodIo_allGood⟩
  refine ⟨⟨hempty _ _, trivial, .inl rfl⟩, ⟨hgood, ?_, trivial⟩, ⟨hgood, ?_, trivial⟩, trivial⟩
  · intro _
    decide
  · intro _
    decide

theorem mount_agrees_sync :
    InStep sampleLabel (sample 1) ∧ Meets step Traceable (sample 1) syncActs ∧
      fastPath (run step (sample 1) syncActs).tape.medium ∧
      (∀ e ∈ (run step (sample 1) syncActs).history, Agree sampleLabel e.before ∧ Agree sampleLabel e.after) ∧
      Agree sampleLabel (run step (sample 1) syncActs).tape.medium :=
  ⟨sample_inStep, syncActs_traceable, by decide,
    mount_agrees (sample 1) syncActs sample_inStep syncActs_traceable⟩

/-- The tree after a read that only moved the access time. -/
def readRoot : Dentry :=
  .dir ⟨[], 1, false, ⟨0, 0⟩, ⟨0, 0⟩, ⟨0, 0⟩, ⟨1, 0⟩, ⟨0, 0⟩, [], []⟩ []

/-- An index, a read, and the next index of the same generation. -/
def readActs : List Act :=
  [.index .ip goodIo goodIo, .edit readRoot true, .index .dp goodIo goodIo]

def mountedRoot : MountEnd → Option Dentry
  | .mounted v => some v.index.root
  | _ => none

def chosenRoot : Except Errno Index → Option Dentry
  | .ok i => some i.root
  | .error _ => none

/-- The fast path takes the index before the read, the full check the one after it. -/
theorem mount_disagrees_read :
    InStep sampleLabel (sample 1) ∧ Meets step GoodAct (sample 1) readActs ∧
      fastPath (run step (sample 1) readActs).tape.medium ∧
      ¬ Agree sampleLabel (run step (sample 1) readActs).tape.medium := by
  have hempty : ∀ l m, OnData l m readRoot := fun l m x hx => by cases hx
  have hgood : AllGood goodIo ∧ AllGood goodIo := ⟨CrashSafe.goodIo_allGood, CrashSafe.goodIo_allGood⟩
  have hfast : fastPath (run step (sample 1) readActs).tape.medium := by decide
  refine ⟨sample_inStep, ⟨hgood, hempty _ _, hgood, trivial⟩, hfast, fun h => ?_⟩
  obtain ⟨v, i, hv, hi, -, -, hroot⟩ := h hfast
    { (sample 1).tape with
      dev := { (sample 1).tape.dev with appendPos := ⟨0, 0⟩ }
      medium := (run step (sample 1) readActs).tape.medium }
    [] goodIo goodIo false rfl ⟨rfl, ⟨rfl, rfl⟩, Nat.le_refl 1⟩ hgood.1 hgood.1
  have hm := congrArg mountedRoot hv
  have hc := congrArg chosenRoot hi
  simp only [mountedRoot, chosenRoot, hroot] at hm hc
  rw [← hc] at hm
  revert hm
  decide

end Sample

end Ltfs.MountRun
