import Ltfs.Cassette
import Ltfs.FileDriveSpec

namespace Ltfs.FileDriveStores

open Format FileDrive FileDriveSpec Cassette Lib Lib.Marks

/-- The files that a cell takes. -/
def cellFile : Cell → Suffix → Option Bytes
  | .mark, .filemark => some []
  | .data content, .record => some content
  | _, _ => none

/-- The files of a partition: one for each cell, and the end of data behind the last. -/
def layout (cs : List Cell) (b : Nat) (s : Suffix) : Option Bytes :=
  match cs[b]? with
  | some c => cellFile c s
  | none => if b = cs.length ∧ s = .eod then some [] else none

/-- The files and the state of a drive stand for the cells of a partition. Files that may lie behind the end of data
do not matter. -/
structure Stores (d : Drive) (p : Fin 2) (cs : List Cell) : Prop where
  files : ∀ k ≤ cs.length, d.file p k = layout cs k
  eod : d.eod p = cs.length
  lastBlock : d.lastBlock p = before cs.length
  fits : cs.length < missingEod

/-- The drive stands for the cassette in it. -/
structure Stands (greatest : Nat) (d : Drive) (t : Reel) : Prop where
  ready : d.ready = true
  greatest : d.maxBlockSize = greatest
  stores : ∀ p, Stores d p (t.cells p)
  part : d.part = t.part
  block : d.block = t.block
  filemarks : d.filemarks = marks Cell.isMark t.here t.block

variable {d e : Drive} {t : Reel} {p q : Fin 2} {cs ds : List Cell} {c : Cell} {b n greatest : Nat} {content : Bytes}

section Layout

theorem layout_cell (h : cs[b]? = some c) : layout cs b = cellFile c := by
  funext s
  simp [layout, h]

theorem layout_end (cs : List Cell) : layout cs cs.length = fun s => if s = .eod then some [] else none := by
  funext s
  simp [layout]

theorem layout_behind (h : cs.length < b) : layout cs b = fun _ => none := by
  funext s
  have hb : b ≠ cs.length := by omega
  simp [layout, List.getElem?_eq_none (Nat.le_of_lt h), hb]

theorem layout_append (cs ds : List Cell) (h : b < cs.length) : layout (cs ++ ds) b = layout cs b := by
  have hget : cs[b]? = some cs[b] := List.getElem?_eq_getElem h
  rw [layout_cell hget, layout_cell ((List.getElem?_append_left h).trans hget)]

theorem layout_take (h : b < n) (hn : n ≤ cs.length) : layout (cs.take n) b = layout cs b := by
  have happ := layout_append (cs.take n) (cs.drop n) (b := b) (by simp; omega)
  rw [List.take_append_drop] at happ
  exact happ.symm

end Layout

namespace Stores

variable (h : Stores d p cs)
include h

theorem mark_iff (hb : b ≤ cs.length) : d.checkFile p b .filemark = true ↔ MarkAt Cell.isMark cs b := by
  unfold Drive.checkFile
  rw [h.files b hb]
  rcases Nat.lt_or_eq_of_le hb with hlt | rfl
  · have hget : cs[b]? = some cs[b] := List.getElem?_eq_getElem hlt
    rw [layout_cell hget]
    cases hc : cs[b] with
    | mark => simpa [cellFile] using ⟨.mark, by rw [hget, hc], rfl⟩
    | data content => simp [cellFile, MarkAt, hget, hc, Cell.isMark]
  · simp [layout_end, MarkAt]

theorem eod_iff (hb : b ≤ cs.length) : d.checkFile p b .eod = true ↔ b = cs.length := by
  unfold Drive.checkFile
  rw [h.files b hb]
  rcases Nat.lt_or_eq_of_le hb with hlt | rfl
  · rw [layout_cell (List.getElem?_eq_getElem hlt)]
    have hne : b ≠ cs.length := by omega
    cases cs[b] <;> simp [cellFile, hne]
  · simp [layout_end]

theorem record_of (hb : b < cs.length) (hc : cs[b]? = some (.data content)) :
    d.file p b .record = some content := by
  rw [h.files b (Nat.le_of_lt hb), layout_cell hc]
  rfl

theorem known : d.eod p ≠ missingEod := by
  rw [h.eod]
  exact Nat.ne_of_lt h.fits

theorem countFilemarks (hn : n ≤ cs.length) : d.countFilemarks p n = marks Cell.isMark cs n := by
  induction n with
  | zero => simp [Drive.countFilemarks]
  | succ n ih =>
    have hle : n ≤ cs.length := Nat.le_of_succ_le hn
    unfold Drive.countFilemarks
    by_cases hm : MarkAt Cell.isMark cs n
    · rw [ih hle, marks_succ_mark hm, if_pos ((h.mark_iff hle).2 hm)]
    · rw [ih hle, marks_succ_other hm, if_neg (fun hf => hm ((h.mark_iff hle).1 hf))]
      rfl

/-- What a partition stores is not touched by a change of state elsewhere. -/
theorem congr {e : Drive} (hfile : e.file p = d.file p) (heod : e.eod p = d.eod p)
    (hlast : e.lastBlock p = d.lastBlock p) : Stores e p cs := by
  refine ⟨?_, heod.trans h.eod, hlast.trans h.lastBlock, h.fits⟩
  intro k hk
  exact (congrFun hfile k).trans (h.files k hk)

end Stores

/-- The end of data is written behind the cells `cs`. -/
theorem writeEod_stores (hlen : d.block = cs.length) (hfits : cs.length < missingEod)
    (hlow : ∀ k < cs.length, d.file d.part k = layout cs k) : Stores d.writeEod d.part cs := by
  obtain ⟨x, y, heq⟩ := writeEod_eq d
  refine ⟨?_, ?_, ?_, hfits⟩
  · intro k hk
    funext s
    rw [file_writeEod]
    rcases Nat.lt_or_eq_of_le hk with hlt | rfl
    · rw [if_neg (by omega), if_neg (by omega), hlow k hlt]
    · rw [if_pos ⟨rfl, hlen.symm⟩, layout_end]
  · rw [heq]
    exact (Function.update_self _ _ _).trans hlen
  · rw [heq]
    exact (Function.update_self _ _ _).trans (congrArg before hlen)

theorem writeEod_other (hq : q ≠ d.part) (h : Stores d q cs) : Stores d.writeEod q cs := by
  obtain ⟨x, y, heq⟩ := writeEod_eq d
  apply h.congr
  · funext k s
    rw [file_writeEod, if_neg (fun hc => hq hc.1), if_neg (fun hc => hq hc.1)]
  · rw [heq]
    exact Function.update_of_ne hq _ _
  · rw [heq]
    exact Function.update_of_ne hq _ _

/-- What a write leaves of the files: the new cell at the block, everything else as it was. -/
def Recorded (d e : Drive) (c : Cell) : Prop :=
  ∀ q k s, e.file q k s = if q = d.part ∧ k = d.block then cellFile c s else d.file q k s

theorem recorded_data {content : Bytes} (hfile : e.file = d.removeCurrentRecord.file) (he : Steady d e) :
    Recorded d (e.create (makeFilename e.part e.block 'R') content) (.data content) := by
  intro q k s
  have hcreate := file_create e.part e.block .record content e
  refine (congrFun (congrFun (congrFun hcreate q) k) s).trans ?_
  unfold setFile
  rw [hfile, he.part, he.block, Drive.removeCurrentRecord, file_removeRecord]
  cases s <;> simp [cellFile]; grind

theorem recorded_mark (hfile : e.file = d.removeCurrentRecord.file) (he : Steady d e) :
    Recorded d (e.create (makeFilename e.part e.block 'F') []) .mark := by
  intro q k s
  have hcreate := file_create e.part e.block .filemark [] e
  refine (congrFun (congrFun (congrFun hcreate q) k) s).trans ?_
  unfold setFile
  rw [hfile, he.part, he.block, Drive.removeCurrentRecord, file_removeRecord]
  cases s <;> simp [cellFile]; grind

/-- A cell has been recorded, and the head has moved on. -/
structure Records (d e : Drive) (c : Cell) : Prop where
  files : Recorded d e c
  ready : e.ready = d.ready
  part : e.part = d.part
  block : e.block = d.block + 1
  filemarks : e.filemarks = d.filemarks + if c.isMark then 1 else 0
  maxBlockSize : e.maxBlockSize = d.maxBlockSize
  eod : e.eod = d.eod
  lastBlock : e.lastBlock = d.lastBlock

theorem Records.here (hr : Records d e c) (h : Stores d d.part cs) (hb : d.block ≤ cs.length)
    (hfits : cs.length + 1 < missingEod) : Stores e.writeEod d.part (Log.overwrite cs d.block [c]) := by
  have hlen : (Log.overwrite cs d.block [c]).length = d.block + 1 := Log.overwrite_length hb
  have hget : (Log.overwrite cs d.block [c])[d.block]? = some c := Log.getElem?_overwrite_ge hb 0
  rw [← hr.part]
  apply writeEod_stores
  · rw [hr.block, hlen]
  · omega
  · intro k hk
    funext s
    rw [hr.part, hr.files]
    by_cases hkb : k = d.block
    · rw [if_pos ⟨rfl, hkb⟩, hkb, layout_cell hget]
    · have hlt : k < (cs.take d.block).length := by
        rw [List.length_take]
        omega
      rw [if_neg (fun hc => hkb hc.2), h.files k (by omega)]
      unfold Log.overwrite
      rw [layout_append _ _ hlt, layout_take (by omega) hb]

theorem Records.elsewhere (hr : Records d e c) (hq : q ≠ d.part) (h : Stores d q cs) : Stores e.writeEod q cs := by
  have hne : q ≠ e.part := fun heq => hq (heq.trans hr.part)
  apply writeEod_other hne
  apply h.congr
  · funext k s
    rw [hr.files, if_neg (fun hc => hq hc.1)]
  · rw [hr.eod]
  · rw [hr.lastBlock]

/-- One cell is recorded: the drive goes on to stand for the cassette with this cell. -/
theorem Records.stands (hr : Records d e c) (h : Stands greatest d t) (hfits : t.here.length + 1 < missingEod) :
    Stands greatest e.writeEod (t.put [c]) := by
  have hle : t.block ≤ t.here.length := t.block_le
  have hhere : Stores d d.part t.here := by
    rw [h.part]
    exact h.stores t.part
  have hnow := hr.here hhere (by rw [h.block]; exact hle) hfits
  obtain ⟨x, y, heq⟩ := writeEod_eq e
  refine ⟨?_, ?_, ?_, ?_, ?_, ?_⟩
  · rw [heq]
    exact hr.ready.trans h.ready
  · rw [heq]
    exact hr.maxBlockSize.trans h.greatest
  · intro p
    by_cases hp : p = t.part
    · subst hp
      have hput : (t.put [c]).cells t.part = Log.overwrite t.here t.block [c] := Function.update_self _ _ _
      rw [hput, ← h.part, ← h.block]
      exact hnow
    · have hcells : (t.put [c]).cells p = t.cells p := Function.update_of_ne hp _ _
      rw [hcells]
      apply hr.elsewhere _ (h.stores p)
      rw [h.part]
      exact hp
  · rw [heq]
    exact hr.part.trans h.part
  · rw [heq]
    exact hr.block.trans (congrArg (· + 1) h.block)
  · rw [heq]
    refine Eq.trans ?_ (t.marks_put c).symm
    rw [← h.filemarks]
    exact hr.filemarks

/-- The record has been written to its file, the end of data not yet. -/
def dataWritten (d : Drive) (content : Bytes) : Drive :=
  let e := d.create (makeFilename d.part d.block 'R') content
  { e with block := e.block + 1 }

def markWritten (d : Drive) : Drive :=
  let e := d.create (makeFilename d.part d.block 'F') []
  { e with block := e.block + 1, filemarks := e.filemarks + 1 }

theorem records_data (content : Bytes) (hfile : e.file = d.removeCurrentRecord.file) (he : Steady d e) :
    Records d (dataWritten e content) (.data content) := by
  have hs := he.trans (OnlyFiles.create e (makeFilename e.part e.block 'R') content).steady
  exact ⟨recorded_data hfile he, hs.ready, hs.part, congrArg (· + 1) hs.block, hs.filemarks, hs.maxBlockSize,
    hs.eod, hs.lastBlock⟩

theorem records_mark (hfile : e.file = d.removeCurrentRecord.file) (he : Steady d e) :
    Records d (markWritten e) .mark := by
  have hs := he.trans (OnlyFiles.create e (makeFilename e.part e.block 'F') []).steady
  exact ⟨recorded_mark hfile he, hs.ready, hs.part, congrArg (· + 1) hs.block, congrArg (· + 1) hs.filemarks,
    hs.maxBlockSize, hs.eod, hs.lastBlock⟩

theorem removeCurrentRecord_steady (d : Drive) : Steady d d.removeCurrentRecord :=
  (OnlyFiles.removeRecord d d.part d.block).steady

theorem write_stands {content : Bytes} (h : Stands greatest d t) (hne : content ≠ [])
    (hsize : content.length ≤ greatest) (hfits : t.here.length + 1 < missingEod) :
    (d.write content).1.map Reply.bytes = .ok [] ∧ Stands greatest (d.write content).2 (t.put [.data content]) := by
  have hlt : ¬ d.maxBlockSize < content.length := by
    rw [h.greatest]
    omega
  have hrec := records_data content (file_raiseWritePass d.removeCurrentRecord)
    ((removeCurrentRecord_steady d).trans (Steady.raiseWritePass _))
  unfold Drive.write
  rw [h.ready, if_neg (by decide), if_neg hne, if_neg hlt]
  exact ⟨rfl, hrec.stands h hfits⟩

theorem writeMarks_stands (n : Nat) (h : Stands greatest d t) (hfits : t.here.length + n < missingEod) :
    Stands greatest (Drive.writeMarks n d) (t.put (List.replicate n .mark)) := by
  induction n generalizing d t with
  | zero =>
    rw [List.replicate_zero, Reel.put_nil]
    exact h
  | succ n ih =>
    have hrec := records_mark (e := d.removeCurrentRecord) rfl (removeCurrentRecord_steady d)
    have hone := hrec.stands h (by omega)
    have hlen := t.length_put [Cell.mark]
    have hrest := ih hone (by simp at hlen; omega)
    rw [Reel.put_put] at hrest
    exact hrest

theorem Steady.stands (hs : Steady d e) (hfile : e.file = d.file) (h : Stands greatest d t) :
    Stands greatest e t := by
  refine ⟨hs.ready.trans h.ready, hs.maxBlockSize.trans h.greatest, ?_, hs.part.trans h.part,
    hs.block.trans h.block, hs.filemarks.trans h.filemarks⟩
  intro p
  exact (h.stores p).congr (congrFun hfile p) (congrFun hs.eod p) (congrFun hs.lastBlock p)

theorem writefm_stands (n : Nat) (h : Stands greatest d t) (hfits : t.here.length + n < missingEod) :
    (d.writefm n).1.map Reply.bytes = .ok [] ∧
      Stands greatest (d.writefm n).2 (t.put (List.replicate n .mark)) := by
  unfold Drive.writefm
  rw [h.ready, if_neg (by decide)]
  by_cases hn : n = 0
  · subst hn
    rw [if_pos rfl, List.replicate_zero, Reel.put_nil]
    exact ⟨rfl, h⟩
  · rw [if_neg hn]
    have hraise := Steady.stands (Steady.raiseWritePass d) (file_raiseWritePass d) h
    exact ⟨rfl, writeMarks_stands n hraise hfits⟩

/-- The head is moved, and the filemarks before it are counted. -/
theorem Stands.moved (h : Stands greatest d t) (hb : b ≤ (t.cells p).length) :
    Stands greatest { d with part := p, block := b, filemarks := marks Cell.isMark (t.cells p) b } (t.moveTo p b) := by
  have hmin : min b (t.cells p).length = b := Nat.min_eq_left hb
  refine ⟨h.ready, h.greatest, ?_, rfl, hmin.symm, ?_⟩
  · intro q
    exact (h.stores q).congr rfl rfl rfl
  · change _ = marks Cell.isMark (t.cells p) (min b (t.cells p).length)
    rw [hmin]

theorem Stands.recount (h : Stands greatest d t) (hb : b ≤ (t.cells p).length) :
    Stands greatest ({ d with part := p, block := b } : Drive).recount (t.moveTo p b) := by
  have hstores : Stores { d with part := p, block := b } p (t.cells p) := (h.stores p).congr rfl rfl rfl
  have hmoved := h.moved hb
  rw [← hstores.countFilemarks hb] at hmoved
  exact hmoved

theorem Stands.isReady (h : Stands greatest d t) : ¬ (!d.ready) = true := by
  rw [h.ready]
  decide

theorem Stands.here (h : Stands greatest d t) : Stores d d.part t.here := by
  rw [h.part]
  exact h.stores t.part

theorem read_stands (n : Nat) (h : Stands greatest d t) :
    ∃ u, t.Does greatest (.read n) ((d.read n).1.map Reply.bytes) u ∧ Stands greatest (d.read n).2 u := by
  have hhere := h.here
  have hle := t.block_le_here
  unfold Drive.read
  rw [if_neg h.isReady, hhere.eod, h.block]
  by_cases hend : t.here.length = t.block
  · rw [if_pos hend]
    exact ⟨t, .readEod n hend.symm, h⟩
  · have hlt : t.block < t.here.length := by omega
    have hget : t.here[t.block]? = some t.here[t.block] := List.getElem?_eq_getElem hlt
    have heod : ¬ d.checkFile d.part t.block .eod = true := by
      rw [hhere.eod_iff hle]
      omega
    rw [if_neg hend, if_neg heod]
    have hmoved := h.moved (p := t.part) (b := t.block + 1) hlt
    cases hc : t.here[t.block] with
    | mark =>
      rw [hc] at hget
      have hmark : MarkAt Cell.isMark t.here t.block := ⟨.mark, hget, rfl⟩
      rw [if_pos ((hhere.mark_iff hle).2 hmark)]
      refine ⟨_, .readMark n hget, ?_⟩
      have hcount : marks Cell.isMark (t.cells t.part) (t.block + 1) = d.filemarks + 1 := by
        rw [h.filemarks]
        exact marks_succ_mark hmark
      rw [hcount, ← h.part] at hmoved
      rw [← h.part]
      exact hmoved
    | data content =>
      rw [hc] at hget
      have hmark : ¬ MarkAt Cell.isMark t.here t.block := by
        rintro ⟨a, ha, hm⟩
        rw [hget] at ha
        obtain rfl := Option.some.inj ha
        exact absurd hm Bool.false_ne_true
      rw [if_neg (fun hf => hmark ((hhere.mark_iff hle).1 hf)), hhere.record_of hlt hget]
      refine ⟨_, .readData n hget, ?_⟩
      have hcount : marks Cell.isMark (t.cells t.part) (t.block + 1) = d.filemarks := by
        rw [h.filemarks]
        exact marks_succ_other hmark
      rw [hcount, ← h.part] at hmoved
      rw [← h.part]
      exact hmoved

theorem rewind_stands (h : Stands greatest d t) :
    d.rewind.1.map Reply.bytes = .ok [] ∧ Stands greatest d.rewind.2 (t.moveTo t.part 0) := by
  unfold Drive.rewind
  rw [if_neg h.isReady]
  have hmoved := h.moved (p := t.part) (b := 0) (Nat.zero_le _)
  rw [marks_zero, ← h.part] at hmoved
  rw [← h.part]
  exact ⟨rfl, hmoved⟩

theorem destination_eq (h : Stores d p cs) (b : Nat) : d.destination p b = min b cs.length := by
  unfold Drive.destination
  rw [if_neg (fun hc => h.known hc.1), h.eod]
  split
  · omega
  · omega

theorem moveTo_min (t : Reel) (p : Fin 2) (b : Nat) : t.moveTo p (min b (t.cells p).length) = t.moveTo p b := by
  refine Reel.ext rfl rfl ?_
  change min (min b _) _ = min b _
  rw [Nat.min_assoc, Nat.min_self]

theorem locate_stands (p b : Nat) (h : Stands greatest d t) :
    ∃ u, t.Does greatest (.locate p b) ((d.locate p b).1.map Reply.bytes) u ∧ Stands greatest (d.locate p b).2 u := by
  unfold Drive.locate
  rw [if_neg h.isReady]
  by_cases hp : p < 2
  · rw [dif_pos hp, destination_eq (h.stores ⟨p, hp⟩)]
    refine ⟨t.moveTo ⟨p, hp⟩ b, .locate ⟨p, hp⟩ b, ?_⟩
    have hrec := h.recount (p := ⟨p, hp⟩) (Nat.min_le_right b (t.cells ⟨p, hp⟩).length)
    rw [moveTo_min] at hrec
    exact hrec
  · rw [dif_neg hp]
    exact ⟨t, .noPartition b (by omega), h⟩

theorem before_succ (h : n < missingEod) : (before n + 1) % 2 ^ 64 = n := by
  unfold before
  unfold missingEod at h
  omega

/-- The search forwards ends behind the filemark that was asked for, or at the end of data. -/
theorem spaceFmForward_spec (fuel n : Nat) (h : Stores d d.part cs) (hn : 0 < n) (hb : d.block ≤ cs.length)
    (hfuel : cs.length - d.block < fuel) :
    (∃ k ≤ cs.length, Behind Cell.isMark cs d.block n k ∧
        Drive.spaceFmForward fuel n d = some (.ok (), { d with block := k })) ∨
      (cs.countP Cell.isMark < marks Cell.isMark cs d.block + n ∧
        Drive.spaceFmForward fuel n d = some (.error .eodDetected, { d with block := cs.length })) := by
  induction fuel generalizing d n with
  | zero => omega
  | succ fuel ih =>
    unfold Drive.spaceFmForward
    rw [h.eod, h.lastBlock, before_succ h.fits]
    by_cases hend : d.block = cs.length
    · right
      rw [if_pos hend, hend, marks_length]
      refine ⟨by omega, ?_⟩
      rw [← hend]
    · rw [if_neg hend, if_neg hend]
      have hnext : Stores { d with block := d.block + 1 } d.part cs := h.congr rfl rfl rfl
      by_cases hm : MarkAt Cell.isMark cs d.block
      · have hcount := marks_succ_mark hm
        rw [if_pos ((h.mark_iff hb).2 hm)]
        by_cases h1 : n = 1
        · rw [if_pos h1]
          left
          exact ⟨d.block + 1, by omega, ⟨d.block, rfl, le_rfl, hm, by rw [hcount, h1]⟩, rfl⟩
        · rw [if_neg h1]
          rcases ih (n - 1) hnext (by omega) (by change d.block + 1 ≤ _; omega)
            (by change _ - (d.block + 1) < _; omega) with ⟨k, hk, ⟨j, hj, hle, hmj, hcj⟩, hres⟩ | ⟨hfew, hres⟩
          · left
            change d.block + 1 ≤ j at hle
            change _ = marks Cell.isMark cs (d.block + 1) + (n - 1) at hcj
            exact ⟨k, hk, ⟨j, hj, by omega, hmj, by omega⟩, hres⟩
          · right
            change _ < marks Cell.isMark cs (d.block + 1) + (n - 1) at hfew
            exact ⟨by omega, hres⟩
      · have hcount := marks_succ_other hm
        rw [if_neg (fun hf => hm ((h.mark_iff hb).1 hf))]
        rcases ih n hnext hn (by change d.block + 1 ≤ _; omega)
          (by change _ - (d.block + 1) < _; omega) with ⟨k, hk, ⟨j, hj, hle, hmj, hcj⟩, hres⟩ | ⟨hfew, hres⟩
        · left
          change d.block + 1 ≤ j at hle
          change _ = marks Cell.isMark cs (d.block + 1) + n at hcj
          exact ⟨k, hk, ⟨j, hj, by omega, hmj, by omega⟩, hres⟩
        · right
          change _ < marks Cell.isMark cs (d.block + 1) + n at hfew
          exact ⟨by omega, hres⟩

/-- The search backwards from block `b`, which it looks at first. -/
theorem spaceFmBackward_spec (n b : Nat) (h : Stores d p cs) (hb : b ≤ cs.length) (hn : 0 < n) :
    (∃ k, InFront Cell.isMark cs (b + 1) n k ∧ d.spaceFmBackward p n b = (.ok (), k)) ∨
      (marks Cell.isMark cs (b + 1) < n ∧ d.spaceFmBackward p n b = (.error .bopDetected, 0)) := by
  induction b generalizing n with
  | zero =>
    unfold Drive.spaceFmBackward
    by_cases hm : MarkAt Cell.isMark cs 0
    · have hone := marks_succ_mark hm
      rw [marks_zero] at hone
      by_cases h1 : n = 1
      · left
        refine ⟨0, ⟨by omega, hm, by rw [hone, marks_zero, h1]⟩, ?_⟩
        rw [if_pos ⟨(h.mark_iff hb).2 hm, h1⟩]
      · right
        refine ⟨by rw [hone]; omega, ?_⟩
        rw [if_neg (fun hc => h1 hc.2)]
    · right
      have hone := marks_succ_other hm
      rw [marks_zero] at hone
      refine ⟨by rw [hone]; omega, ?_⟩
      rw [if_neg (fun hc => hm ((h.mark_iff hb).1 hc.1))]
  | succ b ih =>
    unfold Drive.spaceFmBackward
    by_cases hm : MarkAt Cell.isMark cs (b + 1)
    · have hcount := marks_succ_mark hm
      rw [if_pos ((h.mark_iff hb).2 hm)]
      by_cases h1 : n = 1
      · rw [if_pos h1]
        left
        exact ⟨b + 1, ⟨by omega, hm, by rw [hcount, h1]⟩, rfl⟩
      · rw [if_neg h1]
        rcases ih (n - 1) (by omega) (by omega) with ⟨k, ⟨hk, hmk, hck⟩, hres⟩ | ⟨hfew, hres⟩
        · left
          exact ⟨k, ⟨by omega, hmk, by omega⟩, hres⟩
        · right
          exact ⟨by omega, hres⟩
    · have hcount := marks_succ_other hm
      rw [if_neg (fun hf => hm ((h.mark_iff hb).1 hf))]
      rcases ih n (by omega) hn with ⟨k, ⟨hk, hmk, hck⟩, hres⟩ | ⟨hfew, hres⟩
      · left
        exact ⟨k, ⟨by omega, hmk, by omega⟩, hres⟩
      · right
        exact ⟨by omega, hres⟩

theorem moveTo_self (t : Reel) : t.moveTo t.part t.block = t :=
  Reel.ext rfl rfl (Nat.min_eq_left t.block_le)

theorem Stands.atBlock (h : Stands greatest d t) (hb : b ≤ t.here.length) :
    Stands greatest ({ d with block := b } : Drive).recount (t.moveTo t.part b) := by
  have hrec := h.recount (p := t.part) hb
  rw [← h.part] at hrec ⊢
  exact hrec

theorem Stands.block_fits (h : Stands greatest d t) : d.block < missingEod := by
  have hle := t.block_le_here
  have hfits := h.here.fits
  rw [h.block]
  omega

theorem spaceFilemarks_stands (fuel n : Nat) (back : Bool) (h : Stands greatest d t) (hfuel : missingEod ≤ fuel) :
    ∃ o u, d.spaceFilemarks fuel n back = some o ∧
      t.Does greatest (.space n back) (o.1.map Reply.bytes) u ∧ Stands greatest o.2 u := by
  have hle := t.block_le_here
  have hfits := h.here.fits
  have hb : d.block ≤ t.here.length := by
    rw [h.block]
    exact hle
  unfold Drive.spaceFilemarks Drive.spaceFm
  rw [if_neg h.isReady, if_neg (Nat.ne_of_lt h.block_fits)]
  by_cases hn : n = 0
  · subst hn
    rw [if_pos rfl]
    have hrec := h.atBlock hle
    rw [moveTo_self, ← h.block] at hrec
    exact ⟨_, t, rfl, .spaceNone back, hrec⟩
  · have hpos : 0 < n := Nat.pos_of_ne_zero hn
    rw [if_neg hn]
    cases back with
    | true =>
      rw [if_pos rfl]
      have hfront : d.block - 1 + 1 = max 1 t.block := by
        rw [h.block]
        omega
      rcases spaceFmBackward_spec n (d.block - 1) h.here (by omega) hpos with ⟨k, hk, hres⟩ | ⟨hfew, hres⟩
      · rw [hres]
        rw [hfront] at hk
        have hlt := markAt_lt hk.2.1
        exact ⟨_, _, rfl, .spaceBack hpos hk, h.atBlock (by omega)⟩
      · rw [hres]
        rw [hfront] at hfew
        exact ⟨_, _, rfl, .spaceStarts hfew, h.atBlock (Nat.zero_le _)⟩
    | false =>
      rw [if_neg Bool.false_ne_true]
      rcases spaceFmForward_spec fuel n h.here hpos hb (by omega) with ⟨k, hk, hbehind, hres⟩ | ⟨hfew, hres⟩
      · rw [hres]
        rw [h.block] at hbehind
        exact ⟨_, _, rfl, .spaceForward hpos hbehind, h.atBlock hk⟩
      · rw [hres]
        rw [h.block] at hfew
        exact ⟨_, _, rfl, .spaceEnds hfew, h.atBlock le_rfl⟩

theorem spaceEod_stands (h : Stands greatest d t) :
    d.spaceEod.1.map Reply.bytes = .ok [] ∧ Stands greatest d.spaceEod.2 (t.moveTo t.part t.here.length) := by
  have hfits := h.here.fits
  unfold Drive.spaceEod
  rw [if_neg h.isReady, h.here.eod, if_neg (Nat.ne_of_lt hfits)]
  exact ⟨rfl, h.atBlock le_rfl⟩

end Ltfs.FileDriveStores
