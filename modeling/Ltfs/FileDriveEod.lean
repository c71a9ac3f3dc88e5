import Ltfs.FileDriveCrash

namespace Ltfs.FileDriveEod

open Format FileDrive FileDriveSpec FileDriveStores FileDriveLoad FileDriveRun FileDriveCrash Cassette Lib

/-- The loop of `tape_recover_eod_status`: records are read until the drive refuses. `none` if `fuel` is not enough. -/
def readOn (count : Nat) : Nat → Drive → Option Drive
  | 0, _ => none
  | fuel + 1, d =>
    match d.read count with
    | (.ok _, e) => readOn count fuel e
    | (.error _, e) => some e

/-- What `tape_recover_eod_status` returns: an error of the drive, or `LTFS_BAD_LOCATE`. -/
inductive RecoverErrno where
  | drive (e : Edev)
  | badLocate
  deriving DecidableEq, Repr

/-- `tape_seek`, where the position that `tape.c` has noted is that of the drive. -/
def tapeSeek (d : Drive) (p b : Nat) : Except RecoverErrno Unit × Drive :=
  if p = d.part ∧ b = d.block then (.ok (), d)
  else
    match d.locate p b with
    | (.error x, e) => (.error (.drive x), e)
    | (.ok _, e) => if e.part = p ∧ e.block = b then (.ok (), e) else (.error .badLocate, e)

/-- `tape_recover_eod_status` of the generic build, which takes the last block reported for the unreadable one and
loads the cartridge again without an unload. -/
def tapeRecoverEodStatus (fuel : Nat) (d : Drive) : Option (Except RecoverErrno Unit × Drive) := do
  let d ← readOn d.maxBlockSize fuel d
  let block := before d.block
  let r ← d.load fuel
  match tapeSeek r.2 r.2.part block with
  | (.error x, e) => return (.error x, e)
  | (.ok _, e) =>
    match e.erase with
    | (.error x, e) => return (.error (.drive x), e)
    | (.ok _, e) => return (.ok (), e)

variable {d e f g : Drive} {p q : Fin 2} {rs cs : List Cell} {b n fuel greatest : Nat} {t : Reel}

/-- A loaded cassette whose head is in a partition without an end of data. -/
structure Missing (d : Drive) (p : Fin 2) (rs : List Cell) : Prop where
  ready : d.ready = true
  begins : Begins d p rs false
  eod : d.eod p = missingEod
  lastBlock : d.lastBlock p = rs.length
  fits : rs.length < missingEod

theorem missing_of_loaded (h : Loaded d p rs false) (hne : rs ≠ []) (hready : d.ready = true)
    (hfits : rs.length < missingEod) : Missing d p rs := by
  unfold Loaded at h
  rw [if_neg (by simp [hne])] at h
  exact ⟨hready, h.1, h.2.1, h.2.2, hfits⟩

theorem Missing.isReady (h : Missing d p rs) : ¬ (!d.ready) = true := by
  rw [h.ready]
  exact Bool.false_ne_true

/-- The head is sent to the end of data, or to any block behind the first free one: it stops one block behind that. -/
theorem Missing.locate (h : Missing d p rs) (hb : rs.length < b) :
    ∃ r, (d.locate p b).1 = .ok r ∧ (d.locate p b).2.block = rs.length + 1 ∧ (d.locate p b).2.part = p := by
  have hdest : d.destination p b = rs.length + 1 := by
    unfold Drive.destination
    rw [h.eod, h.lastBlock, if_pos ⟨rfl, hb⟩]
  unfold Drive.locate
  rw [if_neg h.isReady, dif_pos p.isLt]
  exact ⟨_, rfl, hdest, rfl⟩

/-- The blocks in front of the gap are as they were, and the gap is where it was. The files of the other partition are
those of `g`. -/
structure Gap (g d : Drive) (p : Fin 2) (rs : List Cell) : Prop where
  ready : d.ready = true
  begins : Begins d p rs false
  beside : ∀ q, q ≠ p → d.file q = g.file q
  part : d.part = p
  block : rs.length < d.block

theorem Missing.gap (h : Missing d p rs) (hb : rs.length < b) : Gap d (d.locate p b).2 p rs := by
  obtain ⟨r, hr, hblock, hpart⟩ := h.locate hb
  refine ⟨?_, h.begins.congr (congrFun (file_locate d p b) p), fun q _ => congrFun (file_locate d p b) q, hpart,
    by omega⟩
  unfold Drive.locate
  rw [if_neg h.isReady, dif_pos p.isLt]
  exact h.ready

/-- What is recorded behind the gap leaves it open. -/
theorem Gap.recorded {c : Cell} (h : Gap g d p rs) (hr : Records d e c) : Gap g e.writeEod p rs := by
  have hblock := h.block
  have hpart : e.part = p := hr.part.trans h.part
  have hkeep : ∀ k ≤ rs.length, e.writeEod.file p k = d.file p k := by
    intro k hk
    funext s
    have heb := hr.block
    rw [file_writeEod, if_neg (by omega), if_neg (by omega), hr.files, if_neg (by omega)]
  obtain ⟨x, y, heq⟩ := writeEod_eq e
  refine ⟨?_, ⟨?_, ?_⟩, ?_, ?_, ?_⟩
  · rw [heq]
    exact hr.ready.trans h.ready
  · intro k hk
    rw [hkeep k (Nat.le_of_lt hk)]
    exact h.begins.cells k hk
  · rw [hkeep _ le_rfl]
    exact h.begins.stop
  · intro q hq
    funext k s
    have hdp := h.part
    rw [file_writeEod, hpart, if_neg (fun hc => hq hc.1), if_neg (fun hc => hq hc.1), hr.files, hdp,
      if_neg (fun hc => hq hc.1), h.beside q hq]
  · rw [heq]
    exact hpart
  · rw [heq]
    have heb := hr.block
    change rs.length < e.block
    omega

theorem Gap.steady (h : Gap g d p rs) (hs : Steady d e) (hfile : e.file = d.file) : Gap g e p rs :=
  ⟨hs.ready.trans h.ready, h.begins.congr (congrFun hfile p),
    fun q hq => (congrFun hfile q).trans (h.beside q hq), hs.part.trans h.part, by
      rw [hs.block]
      exact h.block⟩

theorem Gap.isReady (h : Gap g d p rs) : ¬ (!d.ready) = true := by
  rw [h.ready]
  exact Bool.false_ne_true

theorem Gap.writeMarks (h : Gap g d p rs) (n : Nat) : Gap g (Drive.writeMarks n d) p rs := by
  induction n generalizing d with
  | zero => exact h
  | succ n ih => exact ih (h.recorded (records_mark rfl (removeCurrentRecord_steady d)))

/-- A recording is acknowledged behind the gap, and the gap stays. -/
theorem Gap.recording (fuel : Nat) (h : Gap g d p rs) (x : Recording)
    (hsize : ∀ content, x = .write content → content.length ≤ d.maxBlockSize) :
    ∃ o r, command fuel d x.command = some o ∧ o.1 = .ok r ∧ Gap g o.2 p rs ∧ o.2.maxBlockSize = d.maxBlockSize := by
  cases x with
  | write content =>
    have hle := hsize content rfl
    change ∃ o r, some (d.write content) = some o ∧ _
    unfold Drive.write
    rw [if_neg h.isReady]
    by_cases hne : content = []
    · rw [if_pos hne]
      exact ⟨_, _, rfl, rfl, h, rfl⟩
    · rw [if_neg hne, if_neg (by omega)]
      have hrec := records_data content (file_raiseWritePass d.removeCurrentRecord)
        ((removeCurrentRecord_steady d).trans (Steady.raiseWritePass _))
      obtain ⟨x, y, heq⟩ := writeEod_eq (dataWritten d.removeCurrentRecord.raiseWritePass content)
      refine ⟨_, _, rfl, rfl, h.recorded hrec, ?_⟩
      refine (congrArg Drive.maxBlockSize heq).trans hrec.maxBlockSize
  | writefm count =>
    change ∃ o r, some (d.writefm count) = some o ∧ _
    unfold Drive.writefm
    rw [if_neg h.isReady]
    by_cases hn : count = 0
    · rw [if_pos hn]
      exact ⟨_, _, rfl, rfl, h, rfl⟩
    · rw [if_neg hn]
      refine ⟨_, _, rfl, rfl,
        (h.steady (Steady.raiseWritePass d) (file_raiseWritePass d)).writeMarks count, ?_⟩
      have hmarks : ∀ (n : Nat) (g : Drive), (Drive.writeMarks n g).maxBlockSize = g.maxBlockSize := by
        intro n
        induction n with
        | zero => exact fun _ => rfl
        | succ n ih =>
          intro g
          have hrec := records_mark (d := g) rfl (removeCurrentRecord_steady g)
          obtain ⟨x, y, heq⟩ := writeEod_eq (markWritten g.removeCurrentRecord)
          exact (ih _).trans ((congrArg Drive.maxBlockSize heq).trans hrec.maxBlockSize)
      exact (hmarks count _).trans (Steady.raiseWritePass d).maxBlockSize

/-- Recordings that are all acknowledged. -/
theorem Gap.recordings (fuel : Nat) (xs : List Recording) (h : Gap g d p rs)
    (hsize : ∀ content, .write content ∈ xs → content.length ≤ d.maxBlockSize) :
    ∃ as e, commands fuel (xs.map Recording.command) d = some (as, e) ∧ (∀ a ∈ as, ∃ r, a.1 = .ok r) ∧
      Gap g e p rs := by
  induction xs generalizing d with
  | nil =>
    refine ⟨[], d, rfl, ?_, h⟩
    intro a ha
    cases ha
  | cons x xs ih =>
    obtain ⟨o, r, ho, hok, hgap, hmax⟩ := h.recording fuel x
      (fun content hx => hsize content (hx ▸ List.mem_cons_self ..))
    obtain ⟨as, e, hrun, hall, hend⟩ := ih hgap (fun content hx => by
      rw [hmax]
      exact hsize content (List.mem_cons_of_mem _ hx))
    refine ⟨(o.1.map Reply.bytes, positionOf o.2) :: as, e, ?_, ?_, hend⟩
    · rw [List.map_cons, commands, ho, Option.bind_some, hrun]
      rfl
    · intro a ha
      rcases List.mem_cons.1 ha with rfl | ha
      · exact ⟨r.bytes, by rw [hok]; rfl⟩
      · exact hall a ha

/-- Appending where the end of data is missing: everything is acknowledged, and after the next load all of it is gone.
The end of data is missing where it was. -/
theorem append_lost (xs : List Recording) (h : Missing d p rs) (hne : rs ≠ [])
    (hother : ∀ q, q ≠ p → Stores d q (t.cells q)) (hb : rs.length < b)
    (hsize : ∀ content, .write content ∈ xs → content.length ≤ d.maxBlockSize) (hfuel : missingEod ≤ fuel) :
    ∃ as e f, commands fuel (.locate p b :: xs.map Recording.command) d = some (as, e) ∧
      (∀ a ∈ as, ∃ r, a.1 = .ok r) ∧ e.unload.2.load fuel = some (.ok ⟨[], false, false⟩, f) ∧ Missing f p rs ∧
      ∀ q, q ≠ p → Stores f q (t.cells q) := by
  obtain ⟨r, hr, hblock, hpart⟩ := h.locate hb
  have hgap := h.gap hb
  have hmax : (d.locate p b).2.maxBlockSize = d.maxBlockSize := by
    unfold Drive.locate
    rw [if_neg h.isReady, dif_pos p.isLt]
    rfl
  obtain ⟨as, e, hrun, hall, hend⟩ := hgap.recordings fuel xs (fun content hx => by
    rw [hmax]
    exact hsize content hx)
  have hbegin : ∀ q, Begins e.unload.2 q (if q = p then rs else t.cells q) (if q = p then false else true) := by
    intro q
    by_cases hq : q = p
    · rw [if_pos hq, if_pos hq, hq]
      exact hend.begins.congr rfl
    · rw [if_neg hq, if_neg hq]
      exact (begins_of_stores (hother q hq)).congr (hend.beside q hq)
  have hfits : ∀ q, (if q = p then rs else t.cells q).length < missingEod := by
    intro q
    split
    · exact h.fits
    · rename_i hq
      exact (hother q hq).fits
  obtain ⟨f, hload, hf⟩ := load_loads rfl hbegin hfits hfuel
  refine ⟨(.ok r.bytes, positionOf (d.locate p b).2) :: as, e, f, ?_, ?_, hload, ?_, ?_⟩
  · have hcommand : command fuel d (.locate p b) = some (d.locate p b) := rfl
    rw [commands, hcommand, Option.bind_some, hrun, hr]
    rfl
  · intro a ha
    rcases List.mem_cons.1 ha with rfl | ha
    · exact ⟨r.bytes, rfl⟩
    · exact hall a ha
  · have hl := hf.loaded p
    rw [if_pos rfl, if_pos rfl] at hl
    exact missing_of_loaded hl hne hf.ready h.fits
  · intro q hq
    have hl := hf.loaded q
    unfold Loaded at hl
    rw [if_neg hq, if_neg hq, if_pos (Or.inl rfl)] at hl
    exact hl

theorem Missing.checkFile (h : Missing d p rs) (hb : b < rs.length) :
    (d.checkFile p b .filemark = true ↔ Marks.MarkAt Cell.isMark rs b) ∧ d.checkFile p b .eod = false ∧
      (d.checkFile p b .filemark = false → ∃ content, d.file p b .record = some content) := by
  have hget : rs[b]? = some rs[b] := List.getElem?_eq_getElem hb
  unfold Drive.checkFile
  rw [h.begins.cells b hb, layout_cell hget]
  cases hc : rs[b] with
  | mark =>
    refine ⟨?_, rfl, ?_⟩
    · simpa [cellFile] using ⟨.mark, by rw [hget, hc], rfl⟩
    · intro hm
      cases hm
  | data content => simp [cellFile, Marks.MarkAt, hget, hc, Cell.isMark]

theorem Missing.moved {m : Nat} (h : Missing d p rs) : Missing { d with block := b, filemarks := m } p rs :=
  ⟨h.ready, h.begins.congr rfl, h.eod, h.lastBlock, h.fits⟩

/-- The records are read up to the first block that has none. -/
theorem Missing.readOn (fuel : Nat) (h : Missing d d.part rs) (count : Nat) (hb : d.block ≤ rs.length)
    (hfuel : rs.length - d.block < fuel) :
    ∃ m, FileDriveEod.readOn count fuel d = some { d with block := rs.length, filemarks := m } := by
  induction fuel generalizing d with
  | zero => omega
  | succ fuel ih =>
    have hfits := h.fits
    have hne : ¬ d.eod d.part = d.block := by
      rw [h.eod]
      omega
    unfold FileDriveEod.readOn Drive.read
    rw [if_neg h.isReady, if_neg hne]
    rcases Nat.lt_or_eq_of_le hb with hlt | heq
    · obtain ⟨hmark, heod, hrec⟩ := h.checkFile hlt
      rw [heod, if_neg Bool.false_ne_true]
      cases hm : d.checkFile d.part d.block .filemark with
      | true =>
        rw [if_pos rfl]
        have hnext : Missing { d with block := d.block + 1, filemarks := d.filemarks + 1 } d.part rs := h.moved
        obtain ⟨m, hres⟩ := ih hnext hlt (by change _ - (d.block + 1) < _; omega)
        exact ⟨m, hres⟩
      | false =>
        obtain ⟨content, hcontent⟩ := hrec hm
        rw [if_neg Bool.false_ne_true, hcontent]
        have hnext : Missing { d with block := d.block + 1, filemarks := d.filemarks } d.part rs := h.moved
        obtain ⟨m, hres⟩ := ih hnext hlt (by change _ - (d.block + 1) < _; omega)
        exact ⟨m, hres⟩
    · have hstop := h.begins.stop
      have hfile : ∀ s, d.file d.part d.block s = none := by
        intro s
        rw [heq, hstop]
        simp
      have hcheck : ∀ s, d.checkFile d.part d.block s = false := by
        intro s
        unfold Drive.checkFile
        rw [hfile]
        rfl
      rw [hcheck, if_neg Bool.false_ne_true, hcheck, if_neg Bool.false_ne_true, hfile]
      refine ⟨d.filemarks, ?_⟩
      rw [← heq]

theorem Missing.countFilemarks (h : Missing d p rs) (hn : n ≤ rs.length) :
    d.countFilemarks p n = Marks.marks Cell.isMark rs n := by
  induction n with
  | zero => simp [Drive.countFilemarks]
  | succ n ih =>
    obtain ⟨hmark, -, -⟩ := h.checkFile (b := n) (by omega)
    unfold Drive.countFilemarks
    by_cases hm : Marks.MarkAt Cell.isMark rs n
    · rw [ih (by omega), Marks.marks_succ_mark hm, if_pos (hmark.2 hm)]
    · rw [ih (by omega), Marks.marks_succ_other hm, if_neg (fun hf => hm (hmark.1 hf))]
      rfl

theorem before_pos (hpos : 0 < n) (hn : n < missingEod) : before n = n - 1 := by
  unfold before
  unfold missingEod at hn
  omega

/-- The head behind the last readable record is sent back by one. -/
theorem Missing.tapeSeek (h : Missing d d.part rs) (hblock : d.block = rs.length) (hne : rs ≠ []) :
    ∃ m, FileDriveEod.tapeSeek d d.part (before d.block) =
      (.ok (), { d with block := rs.length - 1, filemarks := m }) ∧
        m = Marks.marks Cell.isMark rs (rs.length - 1) := by
  have hpos : 0 < rs.length := List.length_pos_of_ne_nil hne
  have hfits := h.fits
  have hback : before d.block = rs.length - 1 := by
    rw [hblock]
    exact before_pos hpos hfits
  have hdest : d.destination d.part (rs.length - 1) = rs.length - 1 := by
    unfold Drive.destination
    rw [h.eod, h.lastBlock, if_neg (by omega), if_neg (by omega)]
  have hmoved : Missing { d with part := d.part, block := rs.length - 1 } d.part rs := h.moved
  refine ⟨_, ?_, hmoved.countFilemarks (Nat.sub_le _ _)⟩
  unfold FileDriveEod.tapeSeek Drive.locate
  rw [hback, if_neg (by omega), if_neg h.isReady, dif_pos d.part.isLt]
  change (if d.part.val = d.part.val ∧ d.destination d.part (rs.length - 1) = rs.length - 1 then _ else _) = _
  rw [if_pos ⟨rfl, hdest⟩]
  change (Except.ok (), ({ d with block := d.destination d.part (rs.length - 1) } : Drive).recount) = _
  rw [hdest]
  rfl

/-- A directory in which the host has stopped before the end of data stood behind the first record. -/
def oneRecord : Dir := Function.update (fun _ => none) (makeFilename part0 0 Suffix.record.char) (some [7])

theorem oneRecord_missing :
    ∃ d, (openDir oneRecord (fun _ => 0) (fun _ => 0)).load missingEod = some (.ok ⟨[], false, false⟩, d) ∧
      Missing d part0 [.data [7]] ∧ Stores d part1 [] ∧ d.part = part0 ∧ d.block = 0 ∧
      d.maxBlockSize = greatestBlock := by
  have hview : ∀ q k s, (openDir oneRecord (fun _ => 0) (fun _ => 0)).file q k s =
      if q = part0 ∧ k = 0 ∧ s = .record then some [7] else none := fun q k s =>
    view_update (fun _ => none) part0 0 .record (some [7]) q k s
  have hbegin : ∀ q, Begins (openDir oneRecord (fun _ => 0) (fun _ => 0)) q
      (if q = part0 then [.data [7]] else []) false := by
    intro q
    rcases part_cases q with rfl | rfl
    · rw [if_pos rfl]
      refine ⟨?_, ?_⟩
      · intro k hk
        obtain rfl : k = 0 := Nat.lt_one_iff.1 hk
        funext s
        rw [hview]
        cases s <;> rfl
      · funext s
        rw [hview]
        simp
    · rw [if_neg part1_ne]
      refine ⟨fun k hk => absurd hk (Nat.not_lt_zero k), ?_⟩
      funext s
      rw [hview, if_neg (fun hc => part1_ne hc.1)]
      simp
  have hone : 1 < missingEod := by decide
  have hfits : ∀ q : Fin 2, (if q = part0 then [Cell.data [7]] else []).length < missingEod := by
    intro q
    split
    · exact hone
    · exact Nat.lt_of_succ_lt hone
  obtain ⟨d, hload, hd⟩ := load_loads rfl hbegin hfits le_rfl
  have h0 := hd.loaded part0
  have h1 := hd.loaded part1
  rw [if_pos rfl] at h0
  unfold Loaded at h1
  rw [if_neg part1_ne, if_pos (Or.inr rfl)] at h1
  exact ⟨d, hload, missing_of_loaded h0 (List.cons_ne_nil _ _) hd.ready hone, h1, hd.part, hd.block,
    hd.maxBlockSize⟩

theorem append_lost_oneRecord :
    ∃ d, (openDir oneRecord (fun _ => 0) (fun _ => 0)).load missingEod = some (.ok ⟨[], false, false⟩, d) ∧
      ∃ as e f, commands missingEod (.locate part0 5 :: [Recording.write [8], .writefm 1].map Recording.command) d =
          some (as, e) ∧
        (∀ a ∈ as, ∃ r, a.1 = .ok r) ∧ e.unload.2.load missingEod = some (.ok ⟨[], false, false⟩, f) ∧
        Missing f part0 [.data [7]] ∧ ∀ q, q ≠ part0 → Stores f q [] := by
  obtain ⟨d, hload, hmissing, hother, -, -, hmax⟩ := oneRecord_missing
  have hone : 1 ≤ greatestBlock := by decide
  refine ⟨d, hload, append_lost (t := ⟨fun _ => [], part0, 0, Nat.le_refl 0⟩) [.write [8], .writefm 1] hmissing
    (List.cons_ne_nil _ _) ?_ (by decide) ?_ le_rfl⟩
  · intro q hq
    rcases part_cases q with rfl | rfl
    · exact absurd rfl hq
    · exact hother
  · intro content hx
    rw [hmax]
    rcases List.mem_cons.1 hx with hx | hx
    · cases hx
      exact hone
    · rcases List.mem_cons.1 hx with hx | hx <;> cases hx

/-- Recovering the end of data takes the last readable record for the first unreadable one: it drops a record that had
been acknowledged. What is left is a cassette as any other. -/
theorem recover_drops_last (h : Missing d t.part t.here) (hne : t.here ≠ []) (hpart : d.part = t.part)
    (hblock : d.block = t.block) (hsize : d.maxBlockSize = greatest)
    (hother : ∀ q, q ≠ t.part → Stores d q (t.cells q)) (hfuel : missingEod ≤ fuel) :
    ∃ e u, tapeRecoverEodStatus fuel d = some (.ok (), e) ∧ Stands greatest e u ∧
      u.cells = Function.update t.cells t.part t.here.dropLast ∧ u.part = t.part ∧ u.block = t.here.length - 1 := by
  have hfits := h.fits
  have hmissing : Missing d d.part t.here := by
    rw [hpart]
    exact h
  have hlen : t.here.dropLast.length = t.here.length - 1 := List.length_dropLast
  obtain ⟨m, hread⟩ := hmissing.readOn fuel d.maxBlockSize (by rw [hblock]; exact t.block_le_here) (by omega)
  have hend : Missing { d with block := t.here.length, filemarks := m } d.part t.here := hmissing.moved
  obtain ⟨n, hseek, hn⟩ := Missing.tapeSeek hend rfl hne
  have herase : (Drive.erase { d with block := t.here.length - 1, filemarks := n }) =
      (.ok ⟨[], false, false⟩, Drive.writeEod { d with block := t.here.length - 1, filemarks := n }) := by
    unfold Drive.erase
    rw [if_neg h.isReady]
  have hrun : tapeRecoverEodStatus fuel d =
      some (.ok (), Drive.writeEod { d with block := t.here.length - 1, filemarks := n }) := by
    have hload : Drive.load { d with block := t.here.length, filemarks := m } fuel =
        some (.ok ⟨[], false, false⟩, { d with block := t.here.length, filemarks := m }) := if_pos h.ready
    unfold tapeRecoverEodStatus
    simp only [hread, hload, Option.bind_eq_bind, Option.bind_some, hseek, herase]
    rfl
  have hstores : Stores (Drive.writeEod { d with block := t.here.length - 1, filemarks := n }) t.part
      t.here.dropLast := by
    rw [← hpart]
    apply writeEod_stores hlen.symm (by omega)
    intro k hk
    rw [List.dropLast_eq_take, layout_take (by omega) (Nat.sub_le _ _)]
    exact hmissing.begins.cells k (by omega)
  obtain ⟨x, y, heq⟩ := writeEod_eq { d with block := t.here.length - 1, filemarks := n }
  have hbeside := beside_writeEod { d with block := t.here.length - 1, filemarks := n }
  let u : Reel := {
    cells := Function.update t.cells t.part t.here.dropLast
    part := t.part
    block := t.here.length - 1
    block_le := by
      rw [Function.update_self, hlen] }
  refine ⟨_, u, hrun, ⟨?_, ?_, ?_, ?_, ?_, ?_⟩, rfl, rfl, rfl⟩
  · exact hbeside.ready.trans h.ready
  · exact hbeside.maxBlockSize.trans hsize
  · intro q
    by_cases hq : q = t.part
    · subst hq
      change Stores _ t.part (Function.update t.cells t.part t.here.dropLast t.part)
      rw [Function.update_self]
      exact hstores
    · change Stores _ q (Function.update t.cells t.part t.here.dropLast q)
      rw [Function.update_of_ne hq]
      have hqd : q ≠ d.part := fun hc => hq (hc.trans hpart)
      exact (hother q hq).congr (hbeside.file q hqd) (hbeside.eod q hqd) (hbeside.lastBlock q hqd)
  · rw [heq]
    exact hpart
  · rw [heq]
  · rw [heq]
    have hhere : u.here = t.here.dropLast := Function.update_self _ _ _
    change n = Marks.marks Cell.isMark u.here (t.here.length - 1)
    rw [hhere, hn]
    unfold Marks.marks
    rw [List.dropLast_eq_take, List.take_take, Nat.min_self]

theorem recover_drops_last_oneRecord :
    ∃ d, (openDir oneRecord (fun _ => 0) (fun _ => 0)).load missingEod = some (.ok ⟨[], false, false⟩, d) ∧
      ∃ e u, tapeRecoverEodStatus missingEod d = some (.ok (), e) ∧ Stands greatestBlock e u ∧
        u.cells = Function.update (fun q => if q = part0 then [.data [7]] else []) part0
          ([.data [7]] : List Cell).dropLast ∧ u.part = part0 ∧ u.block = 0 := by
  obtain ⟨d, hload, hmissing, hother, hpart, hblock, hmax⟩ := oneRecord_missing
  refine ⟨d, hload, recover_drops_last
    (t := ⟨fun q => if q = part0 then [.data [7]] else [], part0, 0, Nat.zero_le _⟩) hmissing
    (List.cons_ne_nil _ _) hpart hblock hmax ?_ le_rfl⟩
  intro q hq
  rcases part_cases q with rfl | rfl
  · exact absurd rfl hq
  · exact hother

end Ltfs.FileDriveEod
