import Ltfs.Constructs
import Ltfs.VolumeRun

namespace Ltfs.BackPointers

open Format Lib.Log Lib.Run Records Constructs TapeDevice TapeSpec WriteIndex WriteSession IndexSession
  IndexBody DataSession VolumeRun

variable {p : Part} {v v₀ u w : Volume} {io nested : IndexIo} {l : Label} {rs ws : List Record} {o : TapeOffset}

/-- The latest complete index of the data partition stands at `o`, or there is none and `o` is empty. -/
def LatestDp (l : Label) (dp : List Record) (o : TapeOffset) : Prop :=
  (o.partition = l.id .dp ∧ (∃ img, IndexAt dp o.block img) ∧ ∀ b img, IndexAt dp b img → b ≤ o.block) ∨
  (o.partition = '\x00' ∧ ∀ b img, ¬ IndexAt dp b img)

/-- Where the index in memory takes the latest index of the data partition to be. -/
def lastDp (v : Volume) : TapeOffset :=
  if v.index.selfptr.partition = v.label.id .dp then v.index.selfptr else v.index.backptr

/-- The last index written, `i` if there has been none. -/
def lastWritten (i : Index) : List Completion → Index
  | [] => i
  | c :: _ => c.image.index

/-- Generations go up by one with each dirty index and stay with each clean one. -/
def Successive (i : Index) : List Completion → Prop
  | [] => True
  | c :: cs => c.image.index.generation.toNat =
      (lastWritten i cs).generation.toNat + (if c.dirty then 1 else 0) ∧ Successive i cs

/-- The fields that `ltfs_write_index` sets before it writes and restores when it fails. -/
def header (i : Index) : UInt32 × Timespec × TapeOffset × TapeOffset :=
  (i.generation, i.modTime, i.selfptr, i.backptr)

/-- The return code of an index write to the data partition tells whether the construct is there: its
last block is not lost behind the back of the caller, and a reset does not hit the closing filemark or
the flush behind it. -/
def ReportsTruly (io : IndexIo) : Prop :=
  ¬ LosesRest io ∧ (WholeDocument io → io.closeFm.resets = false ∧
    (io.closeFm.isGood = true → io.flushFm.resets = false))

instance : Decidable (ReportsTruly io) :=
  inferInstanceAs (Decidable (_ ∧ (_ → _ ∧ (_ → _))))

/-- The generation does not wrap. -/
def RoomForGeneration (v : Volume) : Prop :=
  v.isDirty = true → v.index.generation.toNat + 1 < 2 ^ 32

/-- What a call has to meet: the generation does not wrap, and the writes to the data partition report
truly. -/
def KeepsChain (p : Part) (io nested : IndexIo) (v : Volume) : Prop :=
  indexReadonly v = .ok () → RoomForGeneration v ∧ (p = .dp → ReportsTruly io) ∧
    (p = .ip ∧ needsDpIndex v = true → ReportsTruly nested)

instance : Decidable (KeepsChain p io nested v) :=
  inferInstanceAs (Decidable (_ → (_ → _) ∧ (_ → _) ∧ (_ → _)))

theorem LatestDp.append (h : LatestDp l rs o) (hd : ¬ Dangling rs) (hf : Fresh ws)
    (hc : ws.count .filemark < 2) : LatestDp l (rs ++ ws) o := by
  have hback : ∀ b img, IndexAt (rs ++ ws) b img → IndexAt rs b img := by
    rintro b img ⟨c, rfl, hh⟩
    obtain hh | ⟨a, -, hh⟩ := holds_append hd hf hh
    · exact ⟨c, rfl, hh⟩
    · exact absurd hh (not_holds_of_count hc)
  obtain ⟨ho, ⟨img, hi⟩, hmax⟩ | ⟨ho, hnone⟩ := h
  · exact .inl ⟨ho, ⟨img, hi.append ws⟩, fun b img hb => hmax b img (hback b img hb)⟩
  · exact .inr ⟨ho, fun b img hb => hnone b img (hback b img hb)⟩

theorem fresh_filemark (ds : List Record) : Fresh (.filemark :: ds) := by
  intro img k h
  cases h

theorem latestDp_construct (l : Label) (img : Image) (hd : ¬ Dangling rs) :
    LatestDp l (rs ++ construct img) ⟨rs.length + 1, l.id .dp⟩ := by
  refine .inl ⟨rfl, ⟨img, rs.length, rfl, ?_⟩, ?_⟩
  · simpa using holds_append_mid rs (construct img) []
  · rintro b img' ⟨c, rfl, hh⟩
    obtain hin | ⟨a, rfl, hin⟩ := holds_append hd (fresh_filemark _) hh
    · have := hin.length_le
      simp only [construct_length] at this
      simp only
      omega
    · obtain ⟨rfl, -⟩ := holds_construct hin
      simp

theorem torn_filemarks {img : Image} {ds : List Record} (h : Torn img ds) :
    (.filemark :: ds).count Record.filemark < 2 := by
  obtain ⟨k, -, rfl | rfl⟩ := h
  · simp [List.count_eq_zero_of_not_mem (filemark_not_mem_take img k)]
  · simp [List.count_eq_zero_of_not_mem (filemark_not_mem_take img k)]

theorem torn_not_dangling {img : Image} {ds : List Record} (h : Torn img ds) (rs : List Record) :
    ¬ Dangling (rs ++ .filemark :: ds) := by
  obtain ⟨k, hk, rfl | rfl⟩ := h
  · exact not_dangling_take rs hk
  · rw [← List.cons_append, ← List.append_assoc]
    exact not_dangling_concat _ (fun img k h => by cases h)

/-- What holds between two calls. After a write error nothing is written any more, and the state of the
data partition no longer matters. -/
structure Inv (v₀ v : Volume) : Prop where
  sane : Sane v
  label : v.label = v₀.label
  append : appendBlock v.tape .dp = (v.tape.recs .dp).length
  latest : v.tape.dev.writeError = false →
    ¬ Dangling (v.tape.recs .dp) ∧ LatestDp v.label (v.tape.recs .dp) (lastDp v)
  backptrs : ∀ c ∈ v.ledger, LatestDp v.label c.dp c.image.index.backptr
  generations : Successive v₀.index v.ledger
  current : header v.index = header (lastWritten v₀.index v.ledger)

theorem appendBlock_of_eq {t : Tape} (h : t.dev.appendPos.get p = (t.recs p).length) :
    appendBlock t p = (t.recs p).length := by
  unfold appendBlock
  split
  · rfl
  · exact h

theorem lastDp_congr (hl : u.label = v.label) (hi : header u.index = header v.index) : lastDp u = lastDp v := by
  simp only [header, Prod.mk.injEq] at hi
  obtain ⟨-, -, hs, hb⟩ := hi
  simp only [lastDp, hl, hs, hb]

theorem Idle.append (h : Idle p v u) (ha : appendBlock v.tape .dp = (v.tape.recs .dp).length) :
    appendBlock u.tape .dp = (u.tape.recs .dp).length := by
  have hr : u.tape.recs .dp = v.tape.recs .dp := by
    unfold Tape.recs
    rw [h.medium]
  obtain happ | happ := h.append
  · unfold appendBlock at ha ⊢
    rw [happ, hr]
    exact ha
  · cases p with
    | ip =>
      unfold appendBlock at ha ⊢
      rw [happ, hr]
      exact ha
    | dp =>
      refine appendBlock_of_eq ?_
      rw [happ, hr, ← ha]
      simp

theorem Wrote.recs_dp (h : Wrote .dp v ws u) (ha : appendBlock v.tape .dp = (v.tape.recs .dp).length) :
    u.tape.recs .dp = v.tape.recs .dp ++ ws := by
  unfold Tape.recs
  rw [h.medium, mediumAfter_get_self, ha]
  exact record_end _ _

theorem Wrote.recs_dp_of_ip (h : Wrote .ip v ws u) : u.tape.recs .dp = v.tape.recs .dp := by
  unfold Tape.recs
  rw [h.medium]
  exact mediumAfter_get_other _ .ip _ _

theorem Wrote.append (h : Wrote p v ws u) (ha : appendBlock v.tape .dp = (v.tape.recs .dp).length) :
    appendBlock u.tape .dp = (u.tape.recs .dp).length := by
  cases p with
  | ip =>
    have hr := Wrote.recs_dp_of_ip h
    unfold appendBlock at ha ⊢
    rw [h.append, hr]
    exact ha
  | dp =>
    refine appendBlock_of_eq ?_
    rw [h.append, Wrote.recs_dp h ha, ha]
    simp

/-- An index write that failed, or a data write, leaves the ledger alone. -/
theorem Inv.unchanged (h : Inv v₀ v) (hs : Sane u) (hl : u.label = v.label) (hg : u.ledger = v.ledger)
    (hi : header u.index = header v.index) (ha : appendBlock u.tape .dp = (u.tape.recs .dp).length)
    (hd : u.tape.dev.writeError = false →
      ¬ Dangling (u.tape.recs .dp) ∧ LatestDp v.label (u.tape.recs .dp) (lastDp v)) : Inv v₀ u where
  sane := hs
  label := hl.trans h.label
  append := ha
  latest := by
    rw [lastDp_congr hl hi, hl]
    exact hd
  backptrs := by
    rw [hg, hl]
    exact h.backptrs
  generations := by
    rw [hg]
    exact h.generations
  current := by
    rw [hg, hi]
    exact h.current

/-- What a failed write to the data partition leaves is no complete index, or writing is over. -/
theorem Outcome.latest {img : Image} {t : Tape} {e : Errno} (h : Outcome io img t (.error e) ws)
    (hr : ReportsTruly io) (ht : t.dev.writeError = false) (hd : ¬ Dangling rs) (ho : LatestDp l rs o) :
    ¬ Dangling (rs ++ ws) ∧ LatestDp l (rs ++ ws) o := by
  cases h with
  | nothing e =>
    rw [List.append_nil]
    exact ⟨hd, ho⟩
  | torn e ds _ htorn _ =>
    exact ⟨torn_not_dangling htorn rs, ho.append hd (fresh_filemark ds) (torn_filemarks htorn)⟩
  | unclosed e hw hc hre =>
    have := (hr.2 hw).1
    rw [hc] at this
    rw [ht] at hre
    simp only [Answer.resets] at this
    simp [this] at hre
  | unflushed e hw hc hf hre =>
    have := (hr.2 hw).2 hc
    rw [hf] at this
    rw [ht] at hre
    simp only [Answer.resets] at this
    simp [this] at hre
  | lostRest r e ho hblk hrest he hre hc =>
    exact absurd ⟨ho, hblk, hrest, by rw [he]; exact hre, hc⟩ hr.1

theorem Wrote.writeError_false (h : Wrote p v ws u) (hu : u.tape.dev.writeError = false) :
    v.tape.dev.writeError = false := by
  cases he : v.tape.dev.writeError with
  | false => rfl
  | true => exact (h.writeError he).symm.trans hu

theorem newImage_generation (p : Part) (io : IndexIo) (hroom : RoomForGeneration v) :
    (newImage p io v).index.generation.toNat = v.index.generation.toNat + (if v.isDirty then 1 else 0) := by
  have hg : (newImage p io v).index.generation = (bumpGeneration io.now v.isDirty v.index).generation := rfl
  rw [hg]
  cases hd : v.isDirty with
  | false => rfl
  | true =>
    have := hroom hd
    simp only [bumpGeneration, if_true, UInt32.toNat_add, UInt32.toNat_one]
    omega

/-- The volume after a call that returned 0. -/
theorem Inv.completed (h : Inv v₀ v) (hroom : RoomForGeneration v) (hw : Wrote p v ws u) (hne : ws ≠ [])
    (hdp : p = .dp → ws = construct (newImage p io v))
    (hi : u.index = { (newImage p io v).index with creator := u.index.creator }) :
    Inv v₀ ((finishIndex p io u).complete ⟨p, newImage p io v, v.isDirty, v.tape.recs .dp⟩) := by
  have hfin := finishIndex_finished p io u
  have hsane := Finished.sane hfin (Wrote.sane hw h.sane)
  have hlatest := h.latest (hw.writable hne).2
  have hlabel : (finishIndex p io u).label = v.label := hfin.label.trans (by rw [hw.same])
  have hledger : (finishIndex p io u).ledger = v.ledger := hfin.ledger.trans (by rw [hw.same])
  have hheader : header (finishIndex p io u).index = header (newImage p io v).index := by
    rw [hfin.index, hi]
    rfl
  have hrecs : (finishIndex p io u).tape.recs .dp = u.tape.recs .dp := by
    unfold Tape.recs
    rw [hfin.recs]
  have hcur := h.current
  simp only [header, Prod.mk.injEq] at hcur hheader
  refine ⟨⟨hsane.inBounds, hsane.fits⟩, hlabel.trans h.label, ?_, ?_, ?_, ?_, ?_⟩
  · have happ := Wrote.append hw h.append
    unfold appendBlock at happ ⊢
    simp only [Volume.complete, hrecs, hfin.append]
    cases p <;> exact happ
  · intro _
    simp only [Volume.complete, hrecs, lastDp, hheader.2.2.1, hheader.2.2.2, hlabel]
    cases p with
    | ip =>
      have hne : (newImage .ip io v).index.selfptr.partition ≠ v.label.id .dp := by
        change v.label.id .ip ≠ v.label.id .dp
        simp
      rw [if_neg hne, Wrote.recs_dp_of_ip hw]
      exact hlatest
    | dp =>
      have heq : (newImage .dp io v).index.selfptr.partition = v.label.id .dp := rfl
      rw [if_pos heq, Wrote.recs_dp hw h.append, hdp rfl]
      refine ⟨not_dangling_construct _ _, ?_⟩
      have hself : (newImage .dp io v).index.selfptr = ⟨(v.tape.recs .dp).length + 1, v.label.id .dp⟩ := by
        change (⟨appendBlock v.tape .dp + 1, v.label.id .dp⟩ : TapeOffset) = _
        rw [h.append]
      rw [hself]
      exact latestDp_construct v.label _ hlatest.1
  · intro c hc
    simp only [Volume.complete, hledger, List.mem_cons] at hc
    simp only [Volume.complete, hlabel]
    obtain rfl | hc := hc
    · exact hlatest.2
    · exact h.backptrs c hc
  · simp only [Volume.complete, hledger, Successive]
    refine ⟨?_, h.generations⟩
    rw [newImage_generation p io hroom, hcur.1]
  · simp only [Volume.complete, hledger, lastWritten, header, Prod.mk.injEq]
    exact hheader

theorem writeIndexBody_inv (h : Inv v₀ v) (hroom : RoomForGeneration v) (hr : p = .dp → ReportsTruly io) :
    Inv v₀ (writeIndexBody p io v).2 := by
  have hsane := writeIndexBody_sane io p h.sane
  obtain ⟨e, u, hx, hu, -⟩ | ⟨e, u, ws, hx, hu, hi, hout, -⟩ | ⟨u, ws, hx, hu, hi, hout⟩ :=
    writeIndexBody_cases io p h.sane.inBounds h.sane.fits
  · rw [hx] at hsane ⊢
    have hrecs : u.tape.recs .dp = v.tape.recs .dp := by
      unfold Tape.recs
      rw [hu.medium]
    refine h.unchanged hsane (by rw [hu.same]) (by rw [hu.same]) (by rw [hu.same]) (Idle.append hu h.append) ?_
    intro he
    rw [hrecs]
    exact h.latest (hu.writeError.symm.trans he)
  · rw [hx] at hsane ⊢
    refine h.unchanged hsane (by rw [hu.same]) (by rw [hu.same]) (by rw [hi]; rfl)
      (Wrote.append hu h.append) ?_
    intro he
    obtain ⟨hd, ho⟩ := h.latest (Wrote.writeError_false hu he)
    cases p with
    | ip =>
      rw [Wrote.recs_dp_of_ip hu]
      exact ⟨hd, ho⟩
    | dp =>
      rw [Wrote.recs_dp hu h.append]
      exact Outcome.latest hout (hr rfl) he hd ho
  · rw [hx]
    cases hout with
    | complete _ => exact h.completed hroom hu (by simp [construct]) (fun _ => rfl) hi
    | lostRest r e ho hblk hrest he hre hc =>
      refine h.completed hroom hu (by simp) (fun hp => ?_) hi
      exact absurd ⟨ho, hblk, hrest, by rw [he]; exact hre, hc⟩ (hr hp).1

theorem dataRecords_spec {buf : Bytes} {n : Nat} (h : ws <+: dataRecords v buf n) :
    ∀ r ∈ ws, ∃ b, r = .data b := by
  intro r hr
  have := h.subset hr
  simp only [dataRecords, List.mem_map] at this
  obtain ⟨b, -, rfl⟩ := this
  exact ⟨b, rfl⟩

/-- Data blocks make up no index. -/
theorem LatestDp.append_data (h : LatestDp l rs o) (hd : ¬ Dangling rs) (hw : ∀ r ∈ ws, ∃ b, r = .data b) :
    ¬ Dangling (rs ++ ws) ∧ LatestDp l (rs ++ ws) o := by
  have hcount : ws.count .filemark = 0 := by
    refine List.count_eq_zero_of_not_mem fun hm => ?_
    obtain ⟨b, hb⟩ := hw _ hm
    cases hb
  refine ⟨?_, h.append hd ?_ (by omega)⟩
  · obtain rfl | ⟨ds, r, rfl⟩ := List.eq_nil_or_concat ws
    · simpa using hd
    · obtain ⟨b, rfl⟩ := hw r (by simp)
      rw [List.concat_eq_append, ← List.append_assoc]
      exact not_dangling_concat _ (fun img k h => by cases h)
  · intro img k hk
    obtain ⟨b, hb⟩ := hw _ (List.mem_of_mem_head? hk)
    cases hb

theorem Fenced.inv (hf : Fenced u w) (hu : Inv v₀ u) : Inv v₀ w := by
  have hs := Fenced.sane hf hu.sane
  rw [hf] at hs ⊢
  exact ⟨hs, hu.label, hu.append, hu.latest, hu.backptrs, hu.generations, hu.current⟩

theorem writeDataAtAppend_inv (buf : Bytes) (n : Nat) (dio : DataIo) (h : Inv v₀ v) :
    Inv v₀ (writeDataAtAppend p buf n dio v).2.2 := by
  obtain ⟨u, -, hu, hf, -⟩ | ⟨u, ds, hds, hu, hi, hf, -⟩ := writeDataAtAppend_cases p buf n dio h.sane.inBounds
  · refine Fenced.inv hf (h.unchanged (Idle.sane hu h.sane) (by rw [hu.same]) (by rw [hu.same]) (by rw [hu.same])
      (Idle.append hu h.append) fun he => ?_)
    have := h.latest (hu.writeError.symm.trans he)
    simpa only [Tape.recs, hu.medium] using this
  · refine Fenced.inv hf (h.unchanged (Wrote.sane hu h.sane) (by rw [hu.same]) (by rw [hu.same]) (by rw [hi])
      (Wrote.append hu h.append) fun he => ?_)
    obtain ⟨hd, ho⟩ := h.latest (Wrote.writeError_false hu he)
    cases p with
    | ip =>
      rw [Wrote.recs_dp_of_ip hu]
      exact ⟨hd, ho⟩
    | dp =>
      rw [Wrote.recs_dp hu h.append]
      exact ho.append_data hd (dataRecords_spec hds)

/-- Neither a failed nor a complete index write uses up the room for the next generation. -/
theorem roomForGeneration_body (hs : Sane v) (h : RoomForGeneration v) :
    RoomForGeneration (writeIndexBody p io v).2 := by
  obtain ⟨e, u, hx, hu, -⟩ | ⟨e, u, ws, hx, hu, hi, -⟩ | ⟨u, ws, hx, -⟩ :=
    writeIndexBody_cases io p hs.inBounds hs.fits
  · rw [hx, hu.same]
    exact h
  · rw [hx]
    unfold RoomForGeneration Volume.isDirty at h ⊢
    simp only
    rw [hi]
    exact h
  · rw [hx]
    intro hd
    have hi := (finishIndex_finished p io u).index
    unfold Volume.isDirty at hd
    simp [Volume.complete, hi] at hd

theorem KeepsChain.meets (h : KeepsChain p io nested v) (hs : Sane v) :
    IndexMeets (fun p io v => RoomForGeneration v ∧ (p = .dp → ReportsTruly io)) p io nested v := by
  intro hr
  obtain ⟨hroom, hp, hn⟩ := h hr
  split
  · rename_i hip
    exact ⟨⟨hroom, fun _ => hn hip⟩, roomForGeneration_body hs hroom, fun h => by cases h⟩
  · exact ⟨hroom, hp⟩

theorem step_inv (v : Volume) (a : Act) (h : Inv v₀ v) (hk : CallMeets KeepsChain v a) : Inv v₀ (step v a) := by
  refine step_lift (fun p io v => RoomForGeneration v ∧ (p = .dp → ReportsTruly io))
    (fun _ => True) (fun _ _ _ => True) (fun v h => h.sane)
    (fun v p io h hok => writeIndexBody_inv h hok.1 hok.2) ?_ (fun v w => Fenced.inv) ?_ ?_ v a h ?_
  · exact fun v r h => ⟨⟨h.sane.inBounds, h.sane.fits⟩, h.label, h.append, h.latest, h.backptrs, h.generations,
      h.current⟩
  · intro v p buf n dio h _ _ _
    exact writeDataAtAppend_inv buf n dio ⟨⟨h.sane.inBounds, h.sane.fits⟩, h.label, h.append, h.latest,
      h.backptrs, h.generations, h.current⟩
  · exact fun v root atime h _ => ⟨⟨h.sane.inBounds, h.sane.fits⟩, h.label, h.append, h.latest, h.backptrs,
      h.generations, h.current⟩
  · exact CallMeets.actMeets hk (fun hc => KeepsChain.meets hc h.sane) (fun _ => trivial) (fun _ _ => trivial)

/-- A mounted volume: it appends to the data partition, and its index knows the latest index there. -/
structure Linked (v : Volume) : Prop where
  sane : Sane v
  append : appendBlock v.tape .dp = (v.tape.recs .dp).length
  closed : ¬ Dangling (v.tape.recs .dp)
  latest : LatestDp v.label (v.tape.recs .dp) (lastDp v)

/-- In every run in which the generation does not wrap and the index writes to the data partition report
truly, each index that was written points back to the latest index then on the data partition, the
generations follow one another, and what is in memory is what was last written. -/
theorem backPointers_sound (v : Volume) (acts : List Act) (hv : Linked v) (hl : v.ledger = [])
    (h : Meets step (CallMeets KeepsChain) v acts) :
    (∀ c ∈ (run step v acts).ledger, LatestDp v.label c.dp c.image.index.backptr) ∧
    Successive v.index (run step v acts).ledger ∧
    header (run step v acts).index = header (lastWritten v.index (run step v acts).ledger) := by
  have hinv : Inv v (run step v acts) := by
    refine h.invariant step_inv ⟨hv.sane, rfl, hv.append, fun _ => ⟨hv.closed, hv.latest⟩, ?_, ?_, ?_⟩
    · simp [hl]
    · simp [hl, Successive]
    · simp [hl, lastWritten]
  have hlabel := hinv.label
  refine ⟨fun c hc => ?_, hinv.generations, hinv.current⟩
  rw [← hlabel]
  exact hinv.backptrs c hc

theorem sample_linked (g : UInt32) : Linked (sample g) := by
  have hlabels : ¬ Dangling labelRecords :=
    not_dangling_concat [.label, .filemark, .label] (fun img k h => by cases h)
  exact ⟨sample_sane g, rfl, not_dangling_construct labelRecords _, latestDp_construct sampleLabel _ hlabels⟩

/-- A document of two blocks whose second one is lost to a reset. -/
def lostIo : IndexIo :=
  { goodIo with
    xml := ⟨1, some 0, fun _ => none, .inl Nat.one_pos⟩
    rest := .fail .porOrBusReset }

/-- A write that breaks off in the document keeps the chain. -/
theorem backPointers_sound_broken :
    let acts := [.edit sampleRoot false, .index .dp brokenIo goodIo, .index .ip goodIo goodIo, .index .dp goodIo goodIo]
    Linked (sample 1) ∧ Meets step (CallMeets KeepsChain) (sample 1) acts ∧
      (∀ c ∈ (run step (sample 1) acts).ledger, LatestDp sampleLabel c.dp c.image.index.backptr) ∧
      Successive (sample 1).index (run step (sample 1) acts).ledger ∧
      header (run step (sample 1) acts).index =
        header (lastWritten (sample 1).index (run step (sample 1) acts).ledger) :=
  ⟨sample_linked 1, by decide, backPointers_sound _ _ (sample_linked 1) rfl (by decide)⟩

/-- After the loss of the last block the next index points back to a torn one. -/
theorem backPointers_lost :
    let acts := [.edit sampleRoot false, .index .dp lostIo goodIo, .index .ip goodIo goodIo]
    Linked (sample 1) ∧ (sample 1).ledger = [] ∧
      ¬ ∀ c ∈ (run step (sample 1) acts).ledger, LatestDp sampleLabel c.dp c.image.index.backptr := by
  refine ⟨sample_linked 1, rfl, fun h => ?_⟩
  have hany : (run step (sample 1) [.edit sampleRoot false, .index .dp lostIo goodIo,
      .index .ip goodIo goodIo]).ledger.any (fun c => c.image.index.backptr.partition = 'b' ∧
        constructAt c.dp c.image.index.backptr.block = none) = true := by decide
  obtain ⟨c, hc, hbad⟩ := List.any_eq_true.mp hany
  obtain ⟨hpart, hnone⟩ := of_decide_eq_true hbad
  obtain ⟨-, ⟨img, himg⟩, -⟩ | ⟨hnul, -⟩ := h c hc
  · rw [constructAt_eq_some.mpr himg] at hnone
    cases hnone
  · rw [hpart] at hnul
    exact absurd hnul (by decide)

end Ltfs.BackPointers
