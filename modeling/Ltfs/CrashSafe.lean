import Ltfs.Consistent

namespace Ltfs.CrashSafe

open Format Lib.Log Lib.Run Records Constructs TapeDevice TapeSpec WriteIndex WriteSession IndexSession
  IndexBody DataSession VolumeRun BackPointers GoodDrive Consistent

variable {p q : Part} {v u w : Volume} {io nested : IndexIo} {ws : List Record} {e : Event} {l : Label}

/-- A complete index of generation `g` or later is on the medium. -/
def HoldsIndex (m : Medium) (g : UInt32) : Prop :=
  ∃ p b img, IndexAt (m.recs.get p) b img ∧ g ≤ img.index.generation

/-- A command that can be the last one before a crash. -/
structure SafeEvent (l : Label) (e : Event) : Prop where
  before : HoldsIndex e.before e.completed
  after : HoldsIndex e.after e.completed
  indexes : ∀ b img, IndexAt (e.before.recs.get .dp) b img → IndexAt (e.after.recs.get .dp) b img
  blocks : ∀ x ∈ e.root.extents, ∀ p b, Referenced l x p b →
    (e.after.recs.get p)[b]? = (e.before.recs.get p)[b]?

/-- The indexes that a command left on the data partition are still there. -/
def KeptSince (e : Event) (m : Medium) : Prop :=
  ∀ b img, IndexAt (e.after.recs.get .dp) b img → IndexAt (m.recs.get .dp) b img

theorem Mounted.holdsIndex (h : Mounted v) (hs : Spares p v) (ws : List Record) :
    HoldsIndex (mediumAfter v.tape.medium p (appendBlock v.tape p) ws) v.completed := by
  obtain ⟨q, img, hq, hat, hg, -⟩ := h.newest
  exact ⟨q, _, img, indexAt_mediumAfter h hs hq hat, hg ▸ UInt32.le_refl _⟩

/-- On the data partition, more records only add to what is there. -/
theorem indexAt_more (h : Mounted v) (ws₁ ws₂ : List Record) {b : Nat} {img : Image}
    (hi : IndexAt ((mediumAfter v.tape.medium p (appendBlock v.tape p) ws₁).recs.get .dp) b img) :
    IndexAt ((mediumAfter v.tape.medium p (appendBlock v.tape p) (ws₁ ++ ws₂)).recs.get .dp) b img := by
  cases p with
  | ip =>
    have hsame := mediumAfter_get_other v.tape.medium .ip (appendBlock v.tape .ip)
    simp only [Part.other] at hsame
    rw [hsame] at hi ⊢
    exact hi
  | dp =>
    rw [mediumAfter_get_self, h.dpEnd, Tape.recs, record_end] at hi ⊢
    rw [← List.append_assoc]
    exact hi.append ws₂

theorem During.safe (h : Mounted v) (hs : Spares p v) (he : During p v w ws e) : SafeEvent v.label e := by
  obtain ⟨hc, hr, ws₁, ws₂, -, ⟨hb, -⟩, ⟨ha, -⟩⟩ := he
  have hcongr : ∀ {m m' : Medium} {g : UInt32}, m.recs = m'.recs → HoldsIndex m' g → HoldsIndex m g := by
    intro m m' g hm hi
    unfold HoldsIndex
    rw [hm]
    exact hi
  refine ⟨?_, ?_, ?_, ?_⟩
  · rw [hc]
    exact hcongr hb (Mounted.holdsIndex h hs ws₁)
  · rw [hc]
    exact hcongr ha (Mounted.holdsIndex h hs (ws₁ ++ ws₂))
  · intro b img hi
    rw [hb] at hi
    rw [ha]
    exact indexAt_more h ws₁ ws₂ hi
  · intro x hx q b hq
    rw [hr] at hx
    obtain ⟨d, hd⟩ := h.onData x hx q b hq
    rw [ha, hb, data_mediumAfter h p (ws₁ ++ ws₂) hd, data_mediumAfter h p ws₁ hd]

theorem During.keptSince (h : Mounted v) (he : During p v w ws e)
    (hw : w.tape.medium.recs = (mediumAfter v.tape.medium p (appendBlock v.tape p) ws).recs) :
    KeptSince e w.tape.medium := by
  obtain ⟨-, -, ws₁, ws₂, ⟨ws₃, rfl⟩, -, ⟨ha, -⟩⟩ := he
  intro b img hi
  rw [ha] at hi
  rw [hw]
  exact indexAt_more h (ws₁ ++ ws₂) ws₃ hi

/-- A mounted volume with a history of safe commands. -/
structure Inv (l : Label) (v : Volume) : Prop where
  mounted : Mounted v
  label : v.label = l
  events : ∀ e ∈ v.history, SafeEvent l e ∧ KeptSince e v.tape.medium

/-- The run goes on with the records `ws` on `p`. -/
theorem Inv.extend (h : Inv l v) (hs : Spares p v) (hm : Mounted w) (hl : w.label = v.label)
    (hw : w.tape.medium.recs = (mediumAfter v.tape.medium p (appendBlock v.tape p) ws).recs)
    (hes : ∃ es, w.history = es ++ v.history ∧ ∀ e ∈ es, During p v w ws e) : Inv l w := by
  obtain ⟨es, hes, hall⟩ := hes
  refine ⟨hm, hl.trans h.label, fun e he => ?_⟩
  rw [hes] at he
  obtain he | he := List.mem_append.mp he
  · rw [← h.label]
    exact ⟨During.safe h.mounted hs (hall e he), During.keptSince h.mounted (hall e he) hw⟩
  · obtain ⟨hsafe, hkept⟩ := h.events e he
    refine ⟨hsafe, fun b img hi => ?_⟩
    rw [hw]
    apply indexAt_more h.mounted [] ws
    rw [mediumAfter_nil]
    exact hkept b img hi

theorem writeIndexBody_inv (h : Inv l v) (hg : GoodWrite p io v) : Inv l (writeIndexBody p io v).2 := by
  obtain ⟨w, hx, hw, hm⟩ := writeIndexBody_written h.mounted hg
  rw [hx]
  exact h.extend hg.2.2 hm hw.label hw.medium hw.events

theorem Fenced.inv (hf : Fenced u w) (h : Inv l u) : Inv l w := by
  have hm := Fenced.mounted hf h.mounted
  rw [hf] at hm ⊢
  exact ⟨hm, h.label, h.events⟩

theorem writeDataAtAppend_inv (buf : Bytes) (n : Nat) (dio : DataIo) (h : Inv l v) (hs : Spares p v) :
    Inv l (writeDataAtAppend p buf n dio v).2.2 := by
  obtain ⟨u, -, hu, hf, -⟩ | ⟨u, ds, -, hu, hi, hf, -⟩ :=
    writeDataAtAppend_cases p buf n dio h.mounted.sane.inBounds
  · obtain ⟨es, hes, hall⟩ := hu.events
    exact Fenced.inv hf (h.extend hs (h.mounted.idle hu) (by rw [hu.same]) (by rw [hu.medium, mediumAfter_nil])
      ⟨es, hes, fun e he => Sent.during (hall e he) u⟩)
  · obtain ⟨es, hes, hall⟩ := hu.events
    exact Fenced.inv hf (h.extend hs (h.mounted.wrote hs hu hi) (by rw [hu.same]) (by rw [hu.medium])
      ⟨es, hes, fun e he => Sent.during (hall e he) u⟩)

theorem step_inv (v : Volume) (a : Act) (h : Inv l v) (ha : GoodAct v a) : Inv l (step v a) := by
  refine step_lift GoodWrite AllGoodData (fun root _ v => OnData v.label v.tape.medium root)
    (fun v h => h.mounted.sane) (fun v p io => writeIndexBody_inv) ?_ (fun v w => Fenced.inv) ?_ ?_ v a h
    (ha.meets h.mounted)
  · rintro v r ⟨hm, hl, he⟩
    exact ⟨⟨⟨hm.sane.inBounds, hm.sane.fits⟩, hm.bound, hm.dpEnd, hm.data, hm.onData, hm.newest⟩, hl, he⟩
  · intro v p buf n dio h _ hn _
    have hs := h.mounted.spares hn
    exact writeDataAtAppend_inv buf n dio ⟨h.mounted.lowerFlag hs, h.label, h.events⟩ hs
  · intro v root atime h hr
    exact ⟨h.mounted.edit atime hr, h.label, h.events⟩

/-- In every run of a mounted volume with a drive that carries out every command, a crash at any time
finds an index no older than the last one completed, every index of the data partition and every block
that the tree refers to. No index of the data partition is ever lost. -/
theorem crash_safe (v : Volume) (acts : List Act) (hv : Mounted v) (hh : v.history = [])
    (h : Meets step GoodAct v acts) :
    (∀ e ∈ (run step v acts).history, SafeEvent v.label e ∧ KeptSince e (run step v acts).tape.medium) ∧
    HoldsIndex (run step v acts).tape.medium (run step v acts).completed := by
  have hinv : Inv v.label (run step v acts) :=
    h.invariant step_inv ⟨hv, rfl, by simp [hh]⟩
  obtain ⟨q, img, -, hat, hg, -⟩ := hinv.mounted.newest
  exact ⟨hinv.events, q, _, img, hat, hg ▸ UInt32.le_refl _⟩

theorem goodIo_allGood : AllGood goodIo :=
  ⟨rfl, rfl, rfl, rfl, fun _ _ => rfl, rfl, rfl, rfl, rfl, fun _ => rfl⟩

theorem goodDataIo_allGood : AllGoodData goodDataIo :=
  ⟨goodIo_allGood, goodIo_allGood, rfl, rfl, fun _ => rfl⟩

theorem sample_mounted (g : UInt32) : Mounted (sample g) where
  sane := sample_sane g
  bound := fun p => by
    cases p with
    | ip => exact (by decide : 4 ≤ 7)
    | dp => exact (by decide : 7 ≤ 7)
  dpEnd := rfl
  data := by
    intro p b d hd
    have hmem := List.mem_of_getElem? hd
    cases p <;> simp [sample, Tape.recs, labelRecords, construct_no_data] at hmem
  onData := by
    intro x hx
    cases hx
  newest := ⟨.dp, ⟨sampleIndex (g + 1) ⟨5, 'b'⟩ .null, 1, Nat.one_pos⟩, rfl,
    ⟨4, rfl, labelRecords, [], rfl, rfl⟩, rfl, fun h => by cases h⟩

/-- A tree with one file of one byte, in block 4 of the index partition. -/
def oneFileRoot : Dentry :=
  .dir ⟨[], 1, false, ⟨0, 0⟩, ⟨0, 0⟩, ⟨0, 0⟩, ⟨0, 0⟩, ⟨0, 0⟩, [], []⟩
    [.file ⟨[0x66], 2, false, ⟨0, 0⟩, ⟨0, 0⟩, ⟨0, 0⟩, ⟨0, 0⟩, ⟨0, 0⟩, [], []⟩ 1
      (.extents [⟨⟨4, 'a'⟩, 0, 1, 0⟩])]

/-- Data on the index partition, and the index that records it. -/
def fileActs : List Act :=
  [.data .ip [0x41] 1 goodDataIo, .edit oneFileRoot false, .index .ip goodIo goodIo]

theorem fileActs_good : Meets step GoodAct (sample 1) fileActs := by
  refine ⟨goodDataIo_allGood, ?_, ⟨goodIo_allGood, goodIo_allGood⟩, trivial⟩
  intro x hx p b hr
  obtain rfl : x = ⟨⟨4, 'a'⟩, 0, 1, 0⟩ := by simpa [oneFileRoot, Dentry.extents, Dentry.extentsList,
    Content.extentlist] using hx
  obtain ⟨hp, hle, hlt⟩ := hr
  cases p with
  | ip =>
    have hlt : b < 5 := hlt
    obtain rfl : b = 4 := Nat.le_antisymm (Nat.le_of_lt_succ hlt) hle
    exact ⟨[0x41], by decide⟩
  | dp => exact absurd hp (by decide)

theorem crash_safe_file :
    Mounted (sample 1) ∧ (sample 1).history = [] ∧ Meets step GoodAct (sample 1) fileActs ∧
      (run step (sample 1) fileActs).history.length = 10 ∧
      (∀ e ∈ (run step (sample 1) fileActs).history,
        SafeEvent sampleLabel e ∧ KeptSince e (run step (sample 1) fileActs).tape.medium) ∧
      HoldsIndex (run step (sample 1) fileActs).tape.medium (run step (sample 1) fileActs).completed :=
  ⟨sample_mounted 1, rfl, fileActs_good, by decide,
    crash_safe (sample 1) fileActs (sample_mounted 1) rfl fileActs_good⟩

end Ltfs.CrashSafe
