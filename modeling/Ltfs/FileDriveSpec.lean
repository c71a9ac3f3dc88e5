import Ltfs.FileDrive
import Ltfs.Lib.Decimal
import Ltfs.Lib.Log

namespace Ltfs.FileDriveSpec

open Format FileDrive Lib.Log

variable {d e f : Drive} {p q : Fin 2} {b k n : Nat} {s t : Suffix} {content : Option Bytes}

theorem char_inj (h : s.char = t.char) : s = t := by
  cases s <;> cases t <;> first | rfl | exact absurd h (by decide)

theorem makeFilename_inj (h : makeFilename p b s.char = makeFilename q k t.char) : p = q ∧ b = k ∧ s = t := by
  obtain ⟨hp, h⟩ := Lib.Decimal.toDigits_underscore h
  obtain ⟨hb, h⟩ := Lib.Decimal.toDigits_underscore h
  exact ⟨Fin.ext hp, hb, char_inj (List.cons.inj h).1⟩

theorem makeFilename_ne_attrname (p b i j : Nat) (c : Char) : makeFilename p b c ≠ makeAttrname i j := by
  intro h
  have hd : ∀ x ∈ (makeFilename p b c).head?, x.isDigit = true := by
    intro x hx
    obtain ⟨y, ys, hy⟩ := List.exists_cons_of_ne_nil (Nat.toDigits_ne_nil (n := p) (b := 10))
    have hmem : y ∈ Nat.toDigits 10 p := by simp [hy]
    have hx : y = x := by simpa [makeFilename, hy] using hx
    rw [← hx]
    exact Nat.isDigit_of_mem_toDigits (by decide) (by decide) hmem
  have ha := hd 'a' (by rw [h]; rfl)
  exact absurd ha (by decide)

/-- Two drives that differ in nothing but the files. -/
def OnlyFiles (d e : Drive) : Prop :=
  ∃ dir history, e = { d with dir := dir, history := history }

namespace OnlyFiles

theorem refl (d : Drive) : OnlyFiles d d := ⟨d.dir, d.history, rfl⟩

theorem trans (h : OnlyFiles d e) (g : OnlyFiles e f) : OnlyFiles d f := by
  obtain ⟨x, y, rfl⟩ := h
  obtain ⟨z, w, rfl⟩ := g
  exact ⟨z, w, rfl⟩

theorem part (h : OnlyFiles d e) : e.part = d.part := by
  obtain ⟨x, y, rfl⟩ := h
  rfl

theorem change (d : Drive) (name : List Char) (content : Option Bytes) : OnlyFiles d (d.change name content) :=
  ⟨_, _, rfl⟩

theorem unlink (d : Drive) (name : List Char) : OnlyFiles d (d.unlink name) := by
  unfold Drive.unlink
  split
  · exact refl d
  · exact change d name none

theorem create (d : Drive) (name : List Char) (content : Bytes) : OnlyFiles d (d.create name content) := by
  unfold Drive.create
  split
  · exact change d name _
  · exact (change d name _).trans (change _ name _)

theorem removeRecord (d : Drive) (p : Fin 2) (b : Nat) : OnlyFiles d (d.removeRecord p b) :=
  ((unlink d _).trans (unlink _ _)).trans (unlink _ _)

theorem removeRecords (n b : Nat) (d : Drive) : OnlyFiles d (Drive.removeRecords n b d) := by
  induction n generalizing b d with
  | zero => exact refl d
  | succ n ih => exact (removeRecord d d.part b).trans (ih (b + 1) _)

theorem writeAttribute (p : Fin 2) (buf : Bytes) (fuel i : Nat) (d : Drive) :
    OnlyFiles d (Drive.writeAttribute p buf fuel i d) := by
  induction fuel generalizing i d with
  | zero => exact refl d
  | succ fuel ih =>
    unfold Drive.writeAttribute
    split
    · exact refl d
    · exact (create d _ buf).trans (ih _ _)

theorem setWp (wp : Nat) (d : Drive) : OnlyFiles d (d.setWp wp) := writeAttribute part0 _ 9 0 d

end OnlyFiles

/-- The cell of a file name becomes `content`. -/
def setFile (p : Fin 2) (b : Nat) (s : Suffix) (content : Option Bytes) (d : Drive) (q : Fin 2) (k : Nat)
    (t : Suffix) : Option Bytes :=
  if q = p ∧ k = b ∧ t = s then content else d.file q k t

theorem file_change (p : Fin 2) (b : Nat) (s : Suffix) (content : Option Bytes) (d : Drive) :
    (d.change (makeFilename p b s.char) content).file = setFile p b s content d := by
  funext q k t
  unfold setFile Drive.file Drive.change
  split
  · rename_i h
    obtain ⟨rfl, rfl, rfl⟩ := h
    exact Function.update_self _ _ _
  · rename_i h
    apply Function.update_of_ne
    exact fun heq => h (makeFilename_inj heq)

theorem file_unlink (p : Fin 2) (b : Nat) (s : Suffix) (d : Drive) :
    (d.unlink (makeFilename p b s.char)).file = setFile p b s none d := by
  unfold Drive.unlink
  split
  · rename_i hnone
    funext q k t
    unfold setFile
    split
    · rename_i h
      obtain ⟨rfl, rfl, rfl⟩ := h
      exact hnone
    · rfl
  · exact file_change p b s none d

theorem file_create (p : Fin 2) (b : Nat) (s : Suffix) (content : Bytes) (d : Drive) :
    (d.create (makeFilename p b s.char) content).file = setFile p b s (some content) d := by
  unfold Drive.create
  split
  · rename_i h
    subst h
    exact file_change p b s _ d
  · funext q k t
    simp only [file_change, setFile]
    grind

theorem file_createAttr (p : Fin 2) (id : Nat) (content : Bytes) (d : Drive) :
    (d.create (makeAttrname p id) content).file = d.file := by
  have hchange : ∀ (content : Option Bytes) (d : Drive), (d.change (makeAttrname p id) content).file = d.file := by
    intro content d
    funext q k t
    apply Function.update_of_ne
    exact makeFilename_ne_attrname _ _ _ _ _
  unfold Drive.create
  split
  · exact hchange _ d
  · exact (hchange _ _).trans (hchange _ d)

theorem file_writeAttribute (p : Fin 2) (buf : Bytes) (fuel i : Nat) (d : Drive) :
    (Drive.writeAttribute p buf fuel i d).file = d.file := by
  induction fuel generalizing i d with
  | zero => rfl
  | succ fuel ih =>
    unfold Drive.writeAttribute
    split
    · rfl
    · exact (ih _ _).trans (file_createAttr p _ buf d)

theorem file_removeRecord (p : Fin 2) (b : Nat) (d : Drive) (q : Fin 2) (k : Nat) (t : Suffix) :
    (d.removeRecord p b).file q k t = if q = p ∧ k = b then none else d.file q k t := by
  have h : (d.removeRecord p b).file = setFile p b .eod none
      ((d.unlink (makeFilename p b Suffix.record.char)).unlink (makeFilename p b Suffix.filemark.char)) :=
    file_unlink p b .eod _
  rw [h]
  simp only [setFile, file_unlink]
  cases t <;> grind

theorem file_removeRecords (n b : Nat) (d : Drive) (q : Fin 2) (k : Nat) (t : Suffix) :
    (Drive.removeRecords n b d).file q k t =
      if q = d.part ∧ b ≤ k ∧ k < b + n then none else d.file q k t := by
  induction n generalizing b d with
  | zero =>
    rw [if_neg (by omega)]
    rfl
  | succ n ih =>
    have hpart := (OnlyFiles.removeRecord d d.part b).part
    simp only [Drive.removeRecords, ih, hpart, file_removeRecord]
    grind

/-- The end of data has been created at the current block. -/
def marked (d : Drive) : Drive :=
  d.removeCurrentRecord.create (makeFilename d.part d.block Suffix.eod.char) []

/-- The files of `writeEod`; what it then notes of the end of data is left out. -/
def swept (d : Drive) : Drive :=
  if d.eod d.part = missingEod then marked d
  else Drive.removeRecords (d.eod d.part - d.block) (d.block + 1) (marked d)

theorem onlyFiles_marked (d : Drive) : OnlyFiles d (marked d) :=
  (OnlyFiles.removeRecord d d.part d.block).trans (OnlyFiles.create _ _ [])

theorem onlyFiles_swept (d : Drive) : OnlyFiles d (swept d) := by
  unfold swept
  split
  · exact onlyFiles_marked d
  · exact (onlyFiles_marked d).trans (OnlyFiles.removeRecords _ _ _)

theorem file_marked (d : Drive) (q : Fin 2) (k : Nat) (t : Suffix) :
    (marked d).file q k t =
      if q = d.part ∧ k = d.block then (if t = .eod then some [] else none) else d.file q k t := by
  simp only [marked, file_create, setFile, Drive.removeCurrentRecord, file_removeRecord]
  grind

theorem writeEod_swept (d : Drive) :
    d.writeEod =
      { swept d with
        lastBlock := Function.update d.lastBlock d.part (before d.block)
        eod := Function.update d.eod d.part d.block } := by
  obtain ⟨x, y, h⟩ := onlyFiles_swept d
  change { swept d with
    lastBlock := Function.update (swept d).lastBlock (swept d).part (before (swept d).block)
    eod := Function.update (swept d).eod (swept d).part (swept d).block } = _
  rw [h]

theorem writeEod_eq (d : Drive) :
    ∃ dir history, d.writeEod =
      { d with
        dir := dir
        history := history
        lastBlock := Function.update d.lastBlock d.part (before d.block)
        eod := Function.update d.eod d.part d.block } := by
  obtain ⟨x, y, h⟩ := onlyFiles_swept d
  refine ⟨x, y, ?_⟩
  rw [writeEod_swept, h]

/-- The end of data stands at the current block, and behind it nothing is left up to the old one. -/
theorem file_writeEod (d : Drive) (q : Fin 2) (k : Nat) (t : Suffix) :
    d.writeEod.file q k t =
      if q = d.part ∧ k = d.block then (if t = .eod then some [] else none)
      else if q = d.part ∧ d.eod d.part ≠ missingEod ∧ d.block < k ∧ k ≤ d.eod d.part then none
      else d.file q k t := by
  have hswept : d.writeEod.file q k t = (swept d).file q k t := by
    rw [writeEod_swept]
    rfl
  rw [hswept]
  unfold swept
  split
  · rename_i hmiss
    rw [file_marked]
    simp [hmiss]
  · rw [file_removeRecords, (onlyFiles_marked d).part, file_marked]
    grind

/-- The file of an attribute. -/
def attr (d : Drive) (p id : Nat) : Option Bytes := d.dir (makeAttrname p id)

theorem attr_change (p b : Nat) (c : Char) (content : Option Bytes) (d : Drive) :
    attr (d.change (makeFilename p b c) content) = attr d := by
  funext i j
  apply Function.update_of_ne
  exact (makeFilename_ne_attrname p b i j c).symm

theorem attr_unlink (p b : Nat) (c : Char) (d : Drive) : attr (d.unlink (makeFilename p b c)) = attr d := by
  unfold Drive.unlink
  split
  · rfl
  · exact attr_change p b c none d

theorem attr_create (p b : Nat) (c : Char) (content : Bytes) (d : Drive) :
    attr (d.create (makeFilename p b c) content) = attr d := by
  unfold Drive.create
  split
  · exact attr_change p b c _ d
  · exact (attr_change p b c _ _).trans (attr_change p b c _ d)

theorem attr_removeRecord (p : Fin 2) (b : Nat) (d : Drive) : attr (d.removeRecord p b) = attr d :=
  ((attr_unlink p b 'E' _).trans (attr_unlink p b 'F' _)).trans (attr_unlink p b 'R' d)

theorem attr_removeRecords (n b : Nat) (d : Drive) : attr (Drive.removeRecords n b d) = attr d := by
  induction n generalizing b d with
  | zero => rfl
  | succ n ih => exact (ih (b + 1) _).trans (attr_removeRecord d.part b d)

theorem attr_writeEod (d : Drive) : attr d.writeEod = attr d := by
  have hmarked : attr (marked d) = attr d :=
    (attr_create d.part d.block 'E' [] _).trans (attr_removeRecord d.part d.block d)
  have hswept : attr d.writeEod = attr (swept d) := by
    rw [writeEod_swept]
    rfl
  rw [hswept]
  unfold swept
  split
  · exact hmarked
  · exact (attr_removeRecords _ _ _).trans hmarked

theorem file_setWp (wp : Nat) (d : Drive) : (d.setWp wp).file = d.file := file_writeAttribute part0 _ 9 0 d

theorem file_raiseWritePass (d : Drive) : d.raiseWritePass.file = d.file := by
  unfold Drive.raiseWritePass
  split
  · exact file_setWp _ _
  · rfl

/-- Two drives that differ in nothing but the files and the write pass. -/
def Steady (d e : Drive) : Prop :=
  ∃ dir history wp, e = { d with dir := dir, history := history, writePass := wp }

theorem OnlyFiles.steady (h : OnlyFiles d e) : Steady d e := by
  obtain ⟨x, y, rfl⟩ := h
  exact ⟨x, y, d.writePass, rfl⟩

namespace Steady

theorem trans (h : Steady d e) (g : Steady e f) : Steady d f := by
  obtain ⟨x, y, u, rfl⟩ := h
  obtain ⟨z, w, v, rfl⟩ := g
  exact ⟨z, w, v, rfl⟩

theorem raiseWritePass (d : Drive) : Steady d d.raiseWritePass := by
  unfold Drive.raiseWritePass
  split
  · obtain ⟨x, y, h⟩ := OnlyFiles.setWp (d.writePass + 1) { d with writePass := d.writePass + 1 }
    exact ⟨x, y, _, h⟩
  · exact ⟨d.dir, d.history, d.writePass, rfl⟩

variable (h : Steady d e)
include h

theorem ready : e.ready = d.ready := by
  obtain ⟨x, y, wp, rfl⟩ := h
  rfl

theorem part : e.part = d.part := by
  obtain ⟨x, y, wp, rfl⟩ := h
  rfl

theorem block : e.block = d.block := by
  obtain ⟨x, y, wp, rfl⟩ := h
  rfl

theorem filemarks : e.filemarks = d.filemarks := by
  obtain ⟨x, y, wp, rfl⟩ := h
  rfl

theorem maxBlockSize : e.maxBlockSize = d.maxBlockSize := by
  obtain ⟨x, y, wp, rfl⟩ := h
  rfl

theorem eod : e.eod = d.eod := by
  obtain ⟨x, y, wp, rfl⟩ := h
  rfl

theorem lastBlock : e.lastBlock = d.lastBlock := by
  obtain ⟨x, y, wp, rfl⟩ := h
  rfl

end Steady

end Ltfs.FileDriveSpec
