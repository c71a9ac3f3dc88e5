import Ltfs.VolumeRun

namespace Ltfs.FileEnd

open Format Lib.Log Lib.Run Records TapeDevice TapeSpec WriteIndex WriteSession IndexSession IndexBody
  DataSession VolumeRun

variable {p q : Part} {v u w : Volume} {io nested : IndexIo}

/-- `ip_index_file_end` and `dp_index_file_end` tell the truth. -/
def FlagsTrue (v : Volume) : Prop :=
  ∀ p, v.indexFileEnd.get p = true → ∃ img, EndsInIndex (v.tape.recs p) img

/-- Every coherency attribute was written for a partition that ended in a complete index. -/
def StampsTrue (v : Volume) : Prop :=
  ∀ e ∈ v.history, ∀ p, e.command = .setCoherency p → ∃ img, EndsInIndex (e.before.recs.get p) img

/-- A command between the opening and the closing filemark fails, or the closing filemark does. -/
def BreaksOff (io : IndexIo) : Prop :=
  io.openFm.isGood = true ∧ ((∃ k < io.xml.full, (io.block k).isGood = false) ∨
    io.xml.rest.isSome = true ∧ io.rest.isGood = false ∨ io.closeFm.isGood = false)

instance : Decidable (BreaksOff io) :=
  inferInstanceAs (Decidable (_ ∧ (_ ∨ _ ∨ _)))

/-- The index write of a partition whose flag is `flag` does not make the flag wrong. -/
def KeepsFlag (flag : Bool) (io : IndexIo) : Prop :=
  ¬ LosesRest io ∧ (flag = true → ¬ BreaksOff io)

/-- The same for a whole call, with the nested write to the data partition. -/
def KeepsIndex (p : Part) (io nested : IndexIo) (v : Volume) : Prop :=
  indexReadonly v = .ok () → (p = .ip ∧ needsDpIndex v = true → KeepsFlag v.indexFileEnd.dp nested) ∧
    KeepsFlag (v.indexFileEnd.get p) io

/-- The same for the index write that an action leads to. -/
def KeepsFlags : Volume → Act → Prop :=
  CallMeets KeepsIndex

instance (flag : Bool) : Decidable (KeepsFlag flag io) :=
  inferInstanceAs (Decidable (_ ∧ (_ → _)))

instance : Decidable (KeepsIndex p io nested v) :=
  inferInstanceAs (Decidable (_ → (_ → _) ∧ _))

instance (v : Volume) (a : Act) : Decidable (KeepsFlags v a) :=
  inferInstanceAs (Decidable (CallMeets KeepsIndex v a))

structure Inv (v : Volume) : Prop where
  sane : Sane v
  flags : FlagsTrue v
  stamps : StampsTrue v

theorem stampsTrue_of_sent {b : Nat} {ws : List Record} (h : StampsTrue v)
    (he : ∃ es, u.history = es ++ v.history ∧ ∀ e ∈ es, Sent p b v ws e) : StampsTrue u := by
  obtain ⟨es, hes, hall⟩ := he
  intro e he q hq
  rw [hes] at he
  obtain he | he := List.mem_append.mp he
  · exact absurd hq ((hall e he).2.2.1 q)
  · exact h e he q hq

theorem stampsTrue_of_stamped (h : StampsTrue v) (hf : FlagsTrue v)
    (he : ∃ es, u.history = es ++ v.history ∧ ∀ e ∈ es, Stamped v e) : StampsTrue u := by
  obtain ⟨es, hes, hall⟩ := he
  intro e he q hq
  rw [hes] at he
  obtain he | he := List.mem_append.mp he
  · obtain ⟨-, -, q', hq', hflag, hb, -⟩ := hall e he
    obtain rfl : q' = q := by
      rw [hq'] at hq
      injection hq
    rw [hb]
    exact hf q' hflag
  · exact h e he q hq

theorem endsInIndex_record {rs : List Record} {b : Nat} (img : Image) :
    EndsInIndex (record rs b (construct img)) img :=
  ⟨rs.take b, rfl⟩

/-- Records on one partition leave the flag of the other one true. -/
theorem Wrote.flag_other {ws : List Record} (h : Wrote p v ws u) (hf : FlagsTrue v) {q : Part} (hq : q ≠ p)
    (hflag : u.indexFileEnd.get q = true) : ∃ img, EndsInIndex (u.tape.recs q) img := by
  have hrecs : u.tape.recs q = v.tape.recs q := by
    unfold Tape.recs
    rw [h.medium]
    exact Sides.get_set_ne _ hq _
  rw [hrecs]
  refine hf q ?_
  rw [h.same] at hflag
  exact hflag

theorem Wrote.flags {ws : List Record} (h : Wrote p v ws u) (hf : FlagsTrue v)
    (hp : u.indexFileEnd.get p = true → ∃ img, EndsInIndex (u.tape.recs p) img) : FlagsTrue u := by
  intro q hq
  by_cases hqp : q = p
  · subst hqp
    exact hp hq
  · exact Wrote.flag_other h hf hqp hq

theorem Wrote.recs {ws : List Record} (h : Wrote p v ws u) :
    u.tape.recs p = record (v.tape.recs p) (appendBlock v.tape p) ws := by
  unfold Tape.recs
  rw [h.medium, mediumAfter_get_self]

/-- A failed call has not touched the partition, has completed the construct, or was not allowed. -/
theorem Outcome.keepsFlag {img : Image} {t : Tape} {r : Result} {ws : List Record} {flag : Bool}
    (h : Outcome io img t r ws) (hk : KeepsFlag flag io) :
    ws = [] ∧ (∃ e, r = .error e) ∨ ws = construct img ∨ flag = false ∧ ∃ e, r = .error e := by
  cases h with
  | nothing e => exact .inl ⟨rfl, e, rfl⟩
  | torn e ds ho _ hbad =>
    refine .inr (.inr ⟨?_, e, rfl⟩)
    cases hf : flag with
    | false => rfl
    | true => exact absurd ⟨ho, hbad.imp_right .inl⟩ (hk.2 hf)
  | unclosed e ho hc _ =>
    refine .inr (.inr ⟨?_, e, rfl⟩)
    cases hf : flag with
    | false => rfl
    | true => exact absurd ⟨ho.1, .inr (.inr (by rw [hc]; rfl))⟩ (hk.2 hf)
  | unflushed e _ _ _ _ => exact .inr (.inl rfl)
  | lostRest r e ho hblk hr he hre hc =>
    exact absurd ⟨ho, hblk, hr, by rw [he]; exact hre, hc⟩ hk.1
  | complete _ => exact .inr (.inl rfl)

theorem writeIndexBody_inv (h : Inv v) (hk : KeepsFlag (v.indexFileEnd.get p) io) :
    Inv (writeIndexBody p io v).2 := by
  have hsane := writeIndexBody_sane io p h.sane
  obtain ⟨e, u, hx, hu, -⟩ | ⟨e, u, ws, hx, hu, -, hout, -⟩ | ⟨u, ws, hx, hu, -, hout⟩ :=
    writeIndexBody_cases io p h.sane.inBounds h.sane.fits
  · rw [hx] at hsane ⊢
    refine ⟨hsane, ?_, stampsTrue_of_sent h.stamps hu.events⟩
    intro q hq
    rw [hu.same] at hq
    unfold Tape.recs
    rw [hu.medium]
    exact h.flags q hq
  · rw [hx] at hsane ⊢
    refine ⟨hsane, Wrote.flags hu h.flags fun hp => ?_, stampsTrue_of_sent h.stamps hu.events⟩
    have hflag : v.indexFileEnd.get p = true := by
      rw [hu.same] at hp
      exact hp
    rw [Wrote.recs hu]
    obtain ⟨rfl, -⟩ | rfl | ⟨hf, -⟩ := Outcome.keepsFlag hout hk
    · exact h.flags p hflag
    · exact ⟨_, endsInIndex_record _⟩
    · rw [hflag] at hf
      cases hf
  · rw [hx] at hsane ⊢
    obtain ⟨-, e, he⟩ | rfl | ⟨-, e, he⟩ := Outcome.keepsFlag hout hk
    · cases he
    · have hfin := finishIndex_finished p io u
      have hend : EndsInIndex (u.tape.recs p) (newImage p io v) := by
        rw [Wrote.recs hu]
        exact endsInIndex_record _
      -- the flags that `ltfs_update_cart_coherency` goes by
      have hflags : FlagsTrue { u with indexFileEnd := u.indexFileEnd.set p true } := by
        intro q hq
        by_cases hqp : q = p
        · subst hqp
          exact ⟨_, hend⟩
        · rw [Sides.get_set_ne _ hqp] at hq
          exact Wrote.flag_other hu h.flags hqp hq
      refine ⟨hsane, ?_, ?_⟩
      · intro q hq
        have hrecs : (finishIndex p io u).tape.recs q = u.tape.recs q := by
          unfold Tape.recs
          rw [hfin.recs]
        have hq : (finishIndex p io u).indexFileEnd.get q = true := hq
        rw [hfin.flags] at hq
        have := hflags q hq
        rw [← hrecs] at this
        exact this
      · exact stampsTrue_of_stamped (v := { u with indexFileEnd := u.indexFileEnd.set p true })
          (stampsTrue_of_sent h.stamps hu.events) hflags hfin.events
    · cases he

theorem Fenced.inv (hf : Fenced u w) (hu : Inv u) : Inv w := by
  refine ⟨Fenced.sane hf hu.sane, ?_, ?_⟩
  · intro q
    rw [hf]
    exact hu.flags q
  · intro e he
    rw [hf] at he
    exact hu.stamps e he

theorem writeDataAtAppend_inv (buf : Bytes) (n : Nat) (dio : DataIo) (h : Inv v)
    (hp : v.indexFileEnd.get p = false) : Inv (writeDataAtAppend p buf n dio v).2.2 := by
  obtain ⟨u, -, hu, hf, -⟩ | ⟨u, ds, -, hu, -, hf, -⟩ := writeDataAtAppend_cases p buf n dio h.sane.inBounds
  · refine Fenced.inv hf ⟨Idle.sane hu h.sane, ?_, stampsTrue_of_sent h.stamps hu.events⟩
    intro q hq
    rw [hu.same] at hq
    unfold Tape.recs
    rw [hu.medium]
    exact h.flags q hq
  · refine Fenced.inv hf ⟨Wrote.sane hu h.sane, ?_, stampsTrue_of_sent h.stamps hu.events⟩
    refine Wrote.flags hu h.flags fun hq => ?_
    have hq : v.indexFileEnd.get p = true := by
      rw [hu.same] at hq
      exact hq
    rw [hp] at hq
    cases hq

/-- An index write leaves the flag of the other partition alone. -/
theorem writeIndexBody_flag_other (h : Sane v) (hq : q ≠ p) :
    (writeIndexBody p io v).2.indexFileEnd.get q = v.indexFileEnd.get q := by
  obtain ⟨e, u, hx, hu, -⟩ | ⟨e, u, ws, hx, hu, -⟩ | ⟨u, ws, hx, hu, -⟩ :=
    writeIndexBody_cases io p h.inBounds h.fits
  · rw [hx, hu.same]
  · rw [hx, hu.same]
  · rw [hx]
    change (finishIndex p io u).indexFileEnd.get q = _
    rw [(finishIndex_finished p io u).flags, Sides.get_set_ne _ hq, hu.same]

theorem KeepsIndex.meets (h : KeepsIndex p io nested v) (hs : Sane v) :
    IndexMeets (fun p io v => KeepsFlag (v.indexFileEnd.get p) io) p io nested v := by
  intro hr
  obtain ⟨hn, hp⟩ := h hr
  split
  · rename_i hip
    obtain ⟨rfl, hneed⟩ := hip
    refine ⟨hn ⟨rfl, hneed⟩, ?_⟩
    change KeepsFlag ((writeIndexBody .dp nested v).2.indexFileEnd.get .ip) io
    rw [writeIndexBody_flag_other hs (q := .ip) (by simp)]
    exact hp
  · exact hp

theorem step_inv (v : Volume) (a : Act) (h : Inv v) (hk : KeepsFlags v a) : Inv (step v a) := by
  refine step_lift (fun p io v => KeepsFlag (v.indexFileEnd.get p) io) (fun _ => True)
    (fun _ _ _ => True) (fun v h => h.sane) (fun v p io => writeIndexBody_inv) ?_
    (fun v w => Fenced.inv) ?_ ?_ v a h ?_
  · exact fun v r h => ⟨⟨h.sane.inBounds, h.sane.fits⟩, h.flags, h.stamps⟩
  · intro v p buf n dio h _ _ _
    refine writeDataAtAppend_inv buf n dio ⟨⟨h.sane.inBounds, h.sane.fits⟩, ?_, h.stamps⟩ (by simp)
    intro q hq
    refine h.flags q ?_
    by_cases hqp : q = p
    · subst hqp
      simp at hq
    · rwa [Sides.get_set_ne _ hqp] at hq
  · exact fun v root atime h _ => ⟨⟨h.sane.inBounds, h.sane.fits⟩, h.flags, h.stamps⟩
  · exact CallMeets.actMeets hk (fun hc => KeepsIndex.meets hc h.sane) (fun _ => trivial) (fun _ _ => trivial)

/-- In every run in which no index write loses its last block to a reset and none breaks off on a
partition whose flag is set, a flag that is set means a complete index at the end of the partition, and
coherency attributes are only written for such partitions. -/
theorem indexFileEnd_sound (v : Volume) (acts : List Act) (hs : Sane v) (hf : FlagsTrue v)
    (hh : v.history = []) (h : Meets step KeepsFlags v acts) :
    FlagsTrue (run step v acts) ∧ StampsTrue (run step v acts) := by
  have hinv : Inv (run step v acts) := by
    refine h.invariant step_inv ⟨hs, hf, ?_⟩
    intro e he
    rw [hh] at he
    cases he
  exact ⟨hinv.flags, hinv.stamps⟩

theorem sample_flagsTrue (g : UInt32) : FlagsTrue (sample g) := by
  intro p _
  cases p
  · exact ⟨_, labelRecords, rfl⟩
  · exact ⟨_, labelRecords, rfl⟩

/-- An index write that breaks off does no harm while the partition ends in data. -/
theorem indexFileEnd_sound_break :
    let acts := [.edit sampleRoot false, .data .dp [7] 1 goodDataIo, .index .dp brokenIo goodIo,
      .index .ip goodIo goodIo]
    Sane (sample 1) ∧ FlagsTrue (sample 1) ∧ Meets step KeepsFlags (sample 1) acts ∧
      FlagsTrue (run step (sample 1) acts) ∧ StampsTrue (run step (sample 1) acts) :=
  ⟨sample_sane 1, sample_flagsTrue 1, by decide,
    indexFileEnd_sound _ _ (sample_sane 1) (sample_flagsTrue 1) rfl (by decide)⟩

/-- Behind an index it leaves the flag set, and the next index write to the other partition writes the
coherency attribute for the torn construct. -/
theorem indexFileEnd_stale :
    let acts := [.edit sampleRoot false, .index .dp brokenIo goodIo, .index .ip goodIo goodIo]
    Sane (sample 1) ∧ FlagsTrue (sample 1) ∧ (sample 1).history = [] ∧
      ¬ FlagsTrue (run step (sample 1) acts) ∧ ¬ StampsTrue (run step (sample 1) acts) := by
  refine ⟨sample_sane 1, sample_flagsTrue 1, rfl, fun h => ?_, fun h => ?_⟩
  · obtain ⟨img, himg⟩ := h .dp (by decide)
    have hfm : ((run step (sample 1) [.edit sampleRoot false, .index .dp brokenIo goodIo,
        .index .ip goodIo goodIo]).tape.recs .dp).dropLast.getLast? = some .filemark := by decide
    rw [himg.penultimate] at hfm
    cases hfm
  · have hany : (run step (sample 1) [.edit sampleRoot false, .index .dp brokenIo goodIo,
        .index .ip goodIo goodIo]).history.any (fun e => e.command = .setCoherency .dp ∧
          (e.before.recs.get .dp).dropLast.getLast? = some .filemark) = true := by decide
    obtain ⟨e, he, hc⟩ := List.any_eq_true.mp hany
    obtain ⟨hc, hfm⟩ := of_decide_eq_true hc
    obtain ⟨img, himg⟩ := h e he .dp hc
    rw [himg.penultimate] at hfm
    cases hfm

end Ltfs.FileEnd
