import Ltfs.WriteSession

namespace Ltfs.IndexSession

open Format Lib.Log Records TapeDevice TapeSpec WriteIndex WriteSession

variable {p : Part} {b : Nat} {v u : Volume} {ws : List Record} {io : IndexIo} {img : Image}

/-- The block size of the volume passes the check of `tape_write`. -/
def FitsDevice (v : Volume) : Prop :=
  v.label.blocksize ≤ v.tape.dev.maxBlockSize

theorem Session.label (h : Session p b v ws u) : u.label = v.label := by
  rw [h.same]

theorem Session.fitsDevice (h : Session p b v ws u) (hv : FitsDevice v) : FitsDevice u := by
  have hl := h.limits
  simp only [TapeSpec.limits, Prod.mk.injEq] at hl
  unfold FitsDevice
  rw [Session.label h, hl.2.2.2]
  exact hv

theorem Session.write (h : Session p b v ws u) (hv : FitsDevice v) (r : Record) {n : Nat}
    (hn : n ≤ v.label.blocksize) (a : Answer) :
    (∃ e w, u.issue .write (·.write r n true true a) = (.error e, w) ∧ Session p b v ws w ∧
      (Writable u.tape → a = .fail e ∧ (e.needReval = true ∨ w.tape.dev.writeError = true))) ∨
    (∃ w, u.issue .write (·.write r n true true a) = (.ok (), w) ∧ a.isGood = true ∧ Writable u.tape ∧
      Writable w.tape ∧ Session p b v (ws ++ [r]) w) := by
  have hu := Session.fitsDevice h hv
  have hl := Session.label h
  refine h.attempt (fun q hq => by cases hq) (attempt_write u.tape r ?_ a) (by simp)
  unfold FitsDevice at hu
  rw [hl] at hu
  omega

theorem Session.writeFilemark (h : Session p b v ws u) {k : Nat} (hk : k ≤ 1) (a : Answer) :
    (∃ e w, u.issue (.writeFilemark k) (·.writeFilemark k true true a) = (.error e, w) ∧ Session p b v ws w ∧
      (Writable u.tape → a = .fail e ∧ (e.needReval = true ∨ w.tape.dev.writeError = true))) ∨
    (∃ w, u.issue (.writeFilemark k) (·.writeFilemark k true true a) = (.ok (), w) ∧ a.isGood = true ∧
      Writable u.tape ∧ Writable w.tape ∧ Session p b v (ws ++ List.replicate k .filemark) w) :=
  h.attempt (fun q hq => by cases hq) (attempt_writeFilemark u.tape hk a) (by simpa using hk)

/-- The close callback adds its block or, if that fails, nothing. -/
theorem xmlOutputTapeCloseCallback_session (h : Session p b v ws u) (hv : FitsDevice v) (r : Record)
    (free : Option Nat) (a : Answer) :
    (free = none ∧ xmlOutputTapeCloseCallback r free a u = u) ∨
    (∃ w, free.isSome = true ∧ xmlOutputTapeCloseCallback r free a u = w ∧ Session p b v ws w ∧
      (Writable u.tape → ∃ e, a = .fail e ∧ (e.needReval = true ∨ w.tape.dev.writeError = true))) ∨
    (∃ w, free.isSome = true ∧ xmlOutputTapeCloseCallback r free a u = w ∧ a.isGood = true ∧
      Writable w.tape ∧ Session p b v (ws ++ [r]) w) := by
  cases free with
  | none => exact .inl ⟨rfl, rfl⟩
  | some n =>
    have hn : u.label.blocksize - n ≤ v.label.blocksize := by
      rw [Session.label h]
      omega
    obtain ⟨e, w, hx, hw, hr⟩ | ⟨w, hx, ha, -, hww, hw⟩ := Session.write h hv r hn a
    · exact .inr (.inl ⟨w, rfl, congrArg Prod.snd hx, hw, fun hu => ⟨e, hr hu⟩⟩)
    · exact .inr (.inr ⟨w, rfl, congrArg Prod.snd hx, ha, hww, hw⟩)

/-- What the XML writer leaves on tape in the place of a whole document. -/
def Torn (img : Image) (ds : List Record) : Prop :=
  ∃ k < img.blocks, ds = img.records.take k ∨ ds = img.records.take k ++ [.fragment]

/-- The full blocks of a document go down one after the other, up to the first failure. -/
theorem xmlOutputTapeWrite_session (io : IndexIo) (h : Session p b v ws u) (hv : FitsDevice v) (hu : Writable u.tape)
    {k : Nat} (hk : k ≤ img.blocks) :
    (∃ w, xmlOutputTapeWrite img io k u = (.ok (), w) ∧ (∀ j < k, (io.block j).isGood = true) ∧
      Writable w.tape ∧ Session p b v (ws ++ img.records.take k) w) ∨
    (∃ w ds j, xmlOutputTapeWrite img io k u = (.error .xmlWriter, w) ∧ j < k ∧ (io.block j).isGood = false ∧
      Torn img ds ∧ Session p b v (ws ++ ds) w) := by
  induction k with
  | zero => exact .inl ⟨u, rfl, by simp, hu, by simpa using h⟩
  | succ k ih =>
    obtain ⟨w, hx, hall, hww, hw⟩ | ⟨w, ds, j, hx, hj, hb, ht, hw⟩ := ih (by omega)
    · simp only [xmlOutputTapeWrite, hx, andThen]
      have hn : w.label.blocksize ≤ v.label.blocksize := Nat.le_of_eq (by rw [Session.label hw])
      obtain ⟨e, w', hx', hw', hr⟩ | ⟨w', hx', hk', -, hww', hw'⟩ :=
        Session.write hw hv (.index img k) hn (io.block k)
      · right
        have hb : (io.block k).isGood = false := by
          rw [(hr hww).1]
          rfl
        simp only [hx']
        obtain ⟨-, hc⟩ | ⟨w'', -, hc, hw'', -⟩ | ⟨w'', -, hc, -, -, hw''⟩ :=
          xmlOutputTapeCloseCallback_session hw' hv .fragment (io.xml.held k) io.rest
        · refine ⟨_, _, k, rfl, by omega, hb, ⟨k, hk, .inl rfl⟩, ?_⟩
          rw [hc]
          exact hw'
        · refine ⟨_, _, k, rfl, by omega, hb, ⟨k, hk, .inl rfl⟩, ?_⟩
          rw [hc]
          exact hw''
        · refine ⟨_, _, k, rfl, by omega, hb, ⟨k, hk, .inr rfl⟩, ?_⟩
          rw [hc, ← List.append_assoc]
          exact hw''
      · left
        refine ⟨w', by rw [hx'], fun j hj => ?_, hww', ?_⟩
        · obtain hj | rfl := Nat.lt_succ_iff_lt_or_eq.mp hj
          · exact hall j hj
          · exact hk'
        · rw [records_take_succ img hk, ← List.append_assoc]
          exact hw'
    · right
      exact ⟨w, ds, j, by simp only [xmlOutputTapeWrite, hx, andThen], by omega, hb, ht, hw⟩

/-- The drive takes the opening filemark and every block of the document. -/
def WholeDocument (io : IndexIo) : Prop :=
  io.openFm.isGood = true ∧ (∀ k < io.xml.full, (io.block k).isGood = true) ∧
    (io.xml.rest.isSome = true → io.rest.isGood = true)

/-- The last block of the document is lost to a reset, and the closing filemark still goes down. -/
def LosesRest (io : IndexIo) : Prop :=
  io.openFm.isGood = true ∧ (∀ k < io.xml.full, (io.block k).isGood = true) ∧ io.xml.rest.isSome = true ∧
    io.rest.resets = true ∧ io.closeFm.isGood = true

instance : Decidable (WholeDocument io) :=
  inferInstanceAs (Decidable (_ ∧ _ ∧ (_ → _)))

instance : Decidable (LosesRest io) :=
  inferInstanceAs (Decidable (_ ∧ _ ∧ _ ∧ _ ∧ _))

/-- The ways in which the commands of one index write can end, with the records they leave. -/
inductive Outcome (io : IndexIo) (img : Image) (t : Tape) : Result → List Record → Prop where
  | nothing (e : Errno) : Outcome io img t (.error e) []
  | torn (e : Errno) (ds : List Record) : io.openFm.isGood = true → Torn img ds →
      ((∃ k < io.xml.full, (io.block k).isGood = false) ∨ io.xml.rest.isSome = true ∧ io.rest.isGood = false) →
      Outcome io img t (.error e) (.filemark :: ds)
  | unclosed (e : Errno) : WholeDocument io → io.closeFm = .fail e →
      (e.needReval = true ∨ t.dev.writeError = true) →
      Outcome io img t (.error e) (.filemark :: img.records)
  | unflushed (e : Errno) : WholeDocument io → io.closeFm.isGood = true → io.flushFm = .fail e →
      (e.needReval = true ∨ t.dev.writeError = true) →
      Outcome io img t (.error e) (construct img)
  | lostRest (r : Result) (e : Errno) : io.openFm.isGood = true →
      (∀ k < io.xml.full, (io.block k).isGood = true) → io.xml.rest.isSome = true →
      io.rest = .fail e → e.needReval = true → io.closeFm.isGood = true →
      Outcome io img t r (.filemark :: (img.records.take io.xml.full ++ [.filemark]))
  | complete : Writable t → Outcome io img t (.ok ()) (construct img)

theorem Session.updateCreator (h : Session p b v ws u) :
    Session p b (updateCreator v) ws (updateCreator u) := by
  obtain ⟨hb, hs, hm, hp, hk, ha, hl, hw, hn, he⟩ := h
  refine ⟨hb, ?_, hm, hp, hk, ha, hl, hw, hn, he⟩
  rw [hs]
  rfl

theorem fitsDevice_updateCreator (h : FitsDevice v) : FitsDevice (updateCreator v) := h

theorem schemaImage_blocks (v : Volume) : (schemaImage io v).blocks = io.xml.blocks := rfl

theorem full_le_blocks (x : XmlLayout) : x.full ≤ x.blocks := by
  unfold XmlLayout.blocks
  omega

/-- The document: on tape in full, torn, or without its last block although no error is reported. -/
theorem xmlSchemaToTape_session (h : Session p b v ws u) (hv : FitsDevice v) (hu : Writable u.tape)
    (hi : schemaImage io u = img) :
    (∃ w, xmlSchemaToTape io u = (.ok (), w) ∧ (∀ j < io.xml.full, (io.block j).isGood = true) ∧
      (io.xml.rest.isSome = true → io.rest.isGood = true) ∧ Writable w.tape ∧
      Session p b (updateCreator v) (ws ++ img.records) w) ∨
    (∃ w e, xmlSchemaToTape io u = (.ok (), w) ∧ (∀ j < io.xml.full, (io.block j).isGood = true) ∧
      io.xml.rest.isSome = true ∧ io.rest = .fail e ∧ (e.needReval = true ∨ w.tape.dev.writeError = true) ∧
      Session p b (updateCreator v) (ws ++ img.records.take io.xml.full) w) ∨
    (∃ w e ds, xmlSchemaToTape io u = (.error e, w) ∧ (∃ k < io.xml.full, (io.block k).isGood = false) ∧
      Torn img ds ∧ Session p b (updateCreator v) (ws ++ ds) w) := by
  have hblocks : img.blocks = io.xml.blocks := hi ▸ rfl
  have hfull : io.xml.full ≤ img.blocks := hblocks ▸ full_le_blocks io.xml
  unfold xmlSchemaToTape
  simp only [hi]
  obtain ⟨w, hx, hblk, hww, hw⟩ | ⟨w, ds, j, hx, hj, hb, ht, hw⟩ :=
    xmlOutputTapeWrite_session io h hv hu hfull
  · simp only [hx]
    obtain ⟨hr, hc⟩ | ⟨w', hr, hc, hw', hf⟩ | ⟨w', hr, hc, hg, hww', hw'⟩ :=
      xmlOutputTapeCloseCallback_session hw hv (.index img io.xml.full) io.xml.rest io.rest
    · have hall : img.blocks = io.xml.full := by simp [hblocks, XmlLayout.blocks, hr]
      rw [← hall, records_take_blocks] at hw
      rw [hc]
      exact .inl ⟨_, rfl, hblk, by simp [hr], hww, Session.updateCreator hw⟩
    · obtain ⟨e, he, hre⟩ := hf hww
      rw [hc]
      exact .inr (.inl ⟨_, e, rfl, hblk, hr, he, hre, Session.updateCreator hw'⟩)
    · have hall : img.blocks = io.xml.full + 1 := by simp [hblocks, XmlLayout.blocks, hr]
      have hrec : img.records = img.records.take io.xml.full ++ [.index img io.xml.full] := by
        rw [← records_take_succ img (by omega), ← hall, records_take_blocks]
      rw [List.append_assoc, ← hrec] at hw'
      rw [hc]
      exact .inl ⟨_, rfl, hblk, fun _ => hg, hww', Session.updateCreator hw'⟩
  · simp only [hx]
    exact .inr (.inr ⟨_, _, ds, rfl, ⟨j, hj, hb⟩, ht, Session.updateCreator hw⟩)

theorem torn_take (img : Image) {k : Nat} (hk : k < img.blocks) : Torn img (img.records.take k) :=
  ⟨k, hk, .inl rfl⟩

/-- The closing filemark and the flush behind a complete document. -/
theorem closeConstruct_session (h : Session p b v (.filemark :: img.records) u) (hu : Writable u.tape)
    (ho : WholeDocument io) :
    let x := andThen (u.issue (.writeFilemark 1) (·.writeFilemark 1 true true io.closeFm)) fun v =>
      v.issue (.writeFilemark 0) (·.writeFilemark 0 true true io.flushFm)
    ∃ ws, Session p b v ws x.2 ∧ Outcome io img x.2.tape x.1 ws ∧ ws ≠ [] := by
  obtain ⟨e, w, hx, hw, hr⟩ | ⟨w, hx, hc, -, hww, hw⟩ := Session.writeFilemark h (Nat.le_refl 1) io.closeFm
  · simp only [hx, andThen]
    obtain ⟨he, hre⟩ := hr hu
    exact ⟨_, hw, .unclosed e ho he hre, by simp⟩
  · simp only [hx, andThen]
    have hws : (.filemark :: img.records) ++ List.replicate 1 .filemark = construct img := rfl
    rw [hws] at hw
    obtain ⟨e, w', hx', hw', hr⟩ | ⟨w', hx', -, -, hww', hw'⟩ :=
      Session.writeFilemark hw (Nat.zero_le 1) io.flushFm
    · obtain ⟨he, hre⟩ := hr hww
      rw [hx']
      exact ⟨_, hw', .unflushed e ho hc he hre, by simp [construct]⟩
    · rw [hx']
      simp only [List.replicate_zero, List.append_nil] at hw'
      exact ⟨_, hw', .complete hww', by simp [construct]⟩

/-- The closing filemark and the flush behind a document whose last block is missing. -/
theorem closeLost_session (h : Session p b v (.filemark :: img.records.take io.xml.full) u)
    (hi : io.xml.full < img.blocks) (ho : io.openFm.isGood = true)
    (hblk : ∀ k < io.xml.full, (io.block k).isGood = true) (hr : io.xml.rest.isSome = true) {e : Errno} (he : io.rest = .fail e) (hre : e.needReval = true ∨ u.tape.dev.writeError = true) :
    let x := andThen (u.issue (.writeFilemark 1) (·.writeFilemark 1 true true io.closeFm)) fun v =>
      v.issue (.writeFilemark 0) (·.writeFilemark 0 true true io.flushFm)
    ∃ ws, Session p b v ws x.2 ∧ Outcome io img x.2.tape x.1 ws ∧ ws ≠ [] := by
  have hbad : io.rest.isGood = false := he ▸ rfl
  obtain ⟨e', w, hx, hw, -⟩ | ⟨w, hx, hgood, huw, -, hw⟩ :=
    Session.writeFilemark h (Nat.le_refl 1) io.closeFm
  · simp only [hx, andThen]
    exact ⟨_, hw, .torn e' _ ho (torn_take img hi) (.inr ⟨hr, hbad⟩), by simp⟩
  · simp only [hx, andThen]
    have hre : e.needReval = true := hre.resolve_right (by simp [huw.2])
    -- the flush can fail or not: the filemark is down in both cases
    obtain ⟨e', w', hx', hw', -⟩ | ⟨w', hx', -, -, -, hw'⟩ :=
      Session.writeFilemark hw (Nat.zero_le 1) io.flushFm
    · rw [hx']
      exact ⟨_, hw', .lostRest _ e ho hblk hr he hre hgood, by simp⟩
    · rw [hx']
      simp only [List.replicate_zero, List.append_nil] at hw'
      exact ⟨_, hw', .lostRest _ e ho hblk hr he hre hgood, by simp⟩

/-- The commands of one index write, started at the append position. -/
theorem writeConstruct_session (h : Session p b v [] v) (hv : FitsDevice v)
    (hi : schemaImage io v = img) :
    ∃ v₁ ws, (v₁ = v ∨ v₁ = updateCreator v) ∧ Session p b v₁ ws (writeConstruct p io v).2 ∧
      Outcome io img (writeConstruct p io v).2.tape (writeConstruct p io v).1 ws ∧
      (ws = [] → Writable v.tape → io.flushData.isGood = false ∨ io.openFm.isGood = false) := by
  unfold writeConstruct
  have hflush : (∃ e w, (if p = .ip ∧ v.indexFileEnd.ip = false then
        v.issue (.writeFilemark 0) (·.writeFilemark 0 true true io.flushData) else (.ok (), v)) = (.error e, w) ∧
        Session p b v [] w ∧ (Writable v.tape → io.flushData.isGood = false)) ∨
      ∃ w, (if p = .ip ∧ v.indexFileEnd.ip = false then
        v.issue (.writeFilemark 0) (·.writeFilemark 0 true true io.flushData) else (.ok (), v)) = (.ok (), w) ∧
        Session p b v [] w ∧ (Writable v.tape → Writable w.tape) := by
    split
    · obtain ⟨e, w, hx, hw, hr⟩ | ⟨w, hx, -, -, hww, hw⟩ :=
        Session.writeFilemark h (Nat.zero_le 1) io.flushData
      · exact .inl ⟨e, w, hx, hw, fun hv => by rw [(hr hv).1]; rfl⟩
      · exact .inr ⟨w, hx, by simpa using hw, fun _ => hww⟩
    · exact .inr ⟨v, rfl, h, id⟩
  obtain ⟨e, w, hx, hw, hbad⟩ | ⟨w, hx, hw, hwr⟩ := hflush
  · simp only [hx, andThen_error]
    exact ⟨v, _, .inl rfl, hw, .nothing e, fun _ hv => .inl (hbad hv)⟩
  · simp only [hx, andThen_ok]
    obtain ⟨e, u, hx, hu, hr⟩ | ⟨u, hx, ho, -, huw, hu⟩ := Session.writeFilemark hw (Nat.le_refl 1) io.openFm
    · simp only [hx, andThen_error]
      exact ⟨v, _, .inl rfl, hu, .nothing e, fun _ hv => .inr (by rw [(hr (hwr hv)).1]; rfl)⟩
    · have hiu : schemaImage io u = img := by
        rw [← hi, hu.same]
        rfl
      have hws : ∀ ds, [] ++ List.replicate 1 .filemark ++ ds = Record.filemark :: ds := fun _ => rfl
      simp only [hx, andThen_ok]
      obtain ⟨s, hx, hblk, hrest, hsw, hs⟩ | ⟨s, e, hx, hblk, hr, he, hre, hs⟩ | ⟨s, e, ds, hx, hb, ht, hs⟩ :=
        xmlSchemaToTape_session hu hv huw hiu
      · rw [hws] at hs
        obtain ⟨ws, hws, hout, hne⟩ := closeConstruct_session hs hsw ⟨ho, hblk, hrest⟩
        simp only [hx, andThen_ok]
        exact ⟨_, ws, .inr rfl, hws, hout, fun h => absurd h hne⟩
      · have hlt : io.xml.full < img.blocks := by
          rw [← hi]
          simp [schemaImage_blocks, XmlLayout.blocks, hr]
        rw [hws] at hs
        obtain ⟨ws, hws, hout, hne⟩ := closeLost_session hs hlt ho hblk hr he hre
        simp only [hx, andThen_ok]
        exact ⟨_, ws, .inr rfl, hws, hout, fun h => absurd h hne⟩
      · rw [hws] at hs
        simp only [hx, andThen_error]
        exact ⟨_, _, .inr rfl, hs, .torn e ds ho ht (.inl hb), fun h => by cases h⟩

end Ltfs.IndexSession
