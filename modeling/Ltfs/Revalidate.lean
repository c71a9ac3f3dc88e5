import Ltfs.GoodDrive

namespace Ltfs.Revalidate

open Format Lib.Log Records Constructs TapeDevice TapeSpec WriteIndex

variable {rs : List Record} {b k : Nat} {img : Image} {t : Tape} {v : Volume}

/-- The last filemark before block `b`. -/
def previousFilemark (rs : List Record) : Nat → Option Nat
  | 0 => none
  | b + 1 => if rs[b]? = some .filemark then some b else previousFilemark rs b

/-- The first filemark at block `b` or after. -/
def nextFilemark (rs : List Record) (b : Nat) : Option Nat :=
  ((rs.drop b).findIdx? (· = .filemark)).map (b + ·)

def moveTo (t : Tape) (b : Nat) : Tape :=
  { t with dev := { t.dev with block := b } }

section MoveTo

variable (t : Tape) (b c : Nat) (p : Part)

@[simp] theorem moveTo_part : (moveTo t b).dev.part = t.dev.part := rfl

@[simp] theorem moveTo_recs : (moveTo t b).recs p = t.recs p := rfl

end MoveTo

/-- `tape_spacefm` by one filemark backwards: the head stops before it. -/
def spacefmBack (t : Tape) (a : Answer) : Result × Tape :=
  match a with
  | .fail e => (.error e, t)
  | .good _ _ =>
    match previousFilemark (t.recs t.dev.part) t.dev.block with
    | none => (.error .bopDetected, moveTo t 0)
    | some b => (.ok (), moveTo t b)

/-- `tape_spacefm` by one filemark forwards: the head stops behind it. -/
def spacefmForward (t : Tape) (a : Answer) : Result × Tape :=
  match a with
  | .fail e => (.error e, t)
  | .good _ _ =>
    match nextFilemark (t.recs t.dev.part) t.dev.block with
    | none => (.error .eodDetected, moveTo t (t.recs t.dev.part).length)
    | some b => (.ok (), moveTo t (b + 1))

/-- What a revalidation meets: the answers of the drive, and what it reports of the cartridge that it
has loaded. The labels on it are those of the volume. -/
structure RevalIo where
  setup : Answer
  load : Answer
  writeProtect : Bool
  space : Sides Space
  coh : Part → Answer
  eod : Part → Answer
  spacefm : Part → Nat → Answer

/-- `tape_load_tape`, which drops the append positions -/
def loadTape (io : RevalIo) (t : Tape) : Result × Tape :=
  match io.load with
  | .fail e => (.error e, t)
  | .good _ _ =>
    (.ok (), { t with dev := { t.dev with
      part := .ip
      block := 0
      appendPos := ⟨0, 0⟩
      partitionSpace := io.space
      writeProtect := io.writeProtect
      writeError := false } })

def andThenTape (x : Result × Tape) (f : Tape → Result × Tape) : Result × Tape :=
  match x with
  | (.ok _, t) => f t
  | (.error e, t) => (.error e, t)

/-- `_ltfs_revalidate_mam` -/
def ltfsRevalidateMam (io : RevalIo) (v : Volume) (t : Tape) : Result × Tape :=
  match io.coh .ip, io.coh .dp with
  | .fail e, _ => (.error e, t)
  | _, .fail e => (.error e, t)
  | .good _ _, .good _ _ =>
    if t.medium.coh.ip ≠ v.coh.ip ∨ t.medium.coh.dp ≠ v.coh.dp then (.error .revalFailed, t) else (.ok (), t)

/-- From end of data to the first block of the index that the partition ends in. -/
def spaceToIndex (answer : Nat → Answer) (eod : Nat) (t : Tape) : Result × Tape :=
  andThenTape (spacefmBack t (answer 0)) fun t =>
    if t.dev.block ≠ eod - 1 then (.error .revalFailed, t)
    else
      andThenTape (spacefmBack t (answer 1)) fun t => spacefmForward t (answer 2)

/-- Where the index in memory says that the data partition has its last index, compared with `b`. -/
def dpPointerDiffers (v : Volume) (b : Nat) : Prop :=
  (v.selfptrIn .dp = true ∧ v.index.selfptr.block ≠ b) ∨
  (v.selfptrIn .dp = false ∧ v.index.backptr.partition = v.label.id .dp ∧ v.index.backptr.block ≠ b)

instance : Decidable (dpPointerDiffers v b) :=
  inferInstanceAs (Decidable ((_ ∧ _) ∨ (_ ∧ _ ∧ _)))

def revalidateDp (io : RevalIo) (v : Volume) (saved : Nat) (t : Tape) : Result × Tape :=
  let (r, t) := t.seekEod .dp (io.eod .dp)
  -- the saved position comes back even after an error
  let t := t.setAppendPosition .dp saved
  andThenTape (r, t) fun t =>
    let eod := t.dev.block
    if v.indexFileEnd.dp = false ∧ saved = 0 then (.error .revalFailed, t)
    else
      let found := if v.indexFileEnd.dp then
          andThenTape (spaceToIndex (io.spacefm .dp) eod t) fun t =>
            if dpPointerDiffers v t.dev.block then (.error .revalFailed, t) else (.ok (), t)
        else (.ok (), t)
      andThenTape found fun t =>
        if saved ≠ 0 ∧ saved ≠ eod then (.error .revalFailed, t) else (.ok (), t)

def revalidateIp (io : RevalIo) (v : Volume) (saved : Nat) (t : Tape) : Result × Tape :=
  andThenTape (t.seekEod .ip (io.eod .ip)) fun t =>
    let t := t.setAppendPosition .ip saved
    let eod := t.dev.block
    if v.indexFileEnd.ip = false ∧ saved = 0 then (.error .revalFailed, t)
    else
      let found := if v.indexFileEnd.ip then
          andThenTape (spaceToIndex (io.spacefm .ip) eod t) fun t =>
            if v.selfptrIn .ip = true ∧ v.index.selfptr.block ≠ t.dev.block then (.error .revalFailed, t)
            else (.ok (), t)
        else (.ok (), t)
      andThenTape found fun t =>
        if saved ≠ 0 ∧ saved ≠ t.dev.block - 1 then (.error .revalFailed, t) else (.ok (), t)

/-- `ltfs_revalidate` -/
def ltfsRevalidate (io : RevalIo) (v : Volume) : Result × Volume :=
  let saved := v.tape.dev.appendPos
  let setup : Result × Tape := match io.setup with
    | .fail e => (.error e, v.tape)
    | .good _ _ => (.ok (), v.tape)
  let (r, t) :=
    andThenTape setup fun t =>
    andThenTape (loadTape io t) fun t =>
    andThenTape (ltfsRevalidateMam io v t) fun t =>
    andThenTape (revalidateDp io v saved.dp t) fun t =>
    revalidateIp io v saved.ip t
  (r, { v with
    tape := { t with dev := { t.dev with fence := false } }
    reval := r ≠ .ok () })

/-- The drive answers every command of a revalidation. -/
structure AllGood (io : RevalIo) : Prop where
  setup : io.setup.isGood = true
  load : io.load.isGood = true
  coh : ∀ p, (io.coh p).isGood = true
  eod : ∀ p, (io.eod p).isGood = true
  spacefm : ∀ p k, (io.spacefm p k).isGood = true

theorem previousFilemark_skip (hb : rs[b]? = some .filemark)
    (hk : ∀ i < k, rs[b + 1 + i]? ≠ some .filemark) : previousFilemark rs (b + 1 + k) = some b := by
  induction k with
  | zero => simp [previousFilemark, hb]
  | succ k ih =>
    have hlast := hk k (Nat.lt_succ_self k)
    rw [← Nat.add_assoc, previousFilemark, if_neg hlast]
    exact ih (fun i hi => hk i (Nat.lt_succ_of_lt hi))

theorem nextFilemark_here (hb : rs[b]? = some .filemark) : nextFilemark rs b = some b := by
  have hlt := (List.getElem?_eq_some_iff.mp hb).1
  have hget := (List.getElem?_eq_some_iff.mp hb).2
  simp [nextFilemark, List.drop_eq_getElem_cons hlt, List.findIdx?_cons, hget]

section Construct

variable (pre : List Record) (img : Image)

theorem getElem?_construct (k : Nat) :
    (pre ++ construct img)[pre.length + k]? = (construct img)[k]? := by
  rw [List.getElem?_append_right (by omega), Nat.add_sub_cancel_left]

theorem opening_filemark : (pre ++ construct img)[pre.length]? = some .filemark := by
  simp [construct]

theorem closing_filemark : (pre ++ construct img)[pre.length + 1 + img.blocks]? = some .filemark := by
  rw [Nat.add_assoc, getElem?_construct pre img (1 + img.blocks), Nat.add_comm]
  simp [construct]

theorem document_block (k : Nat) (hk : k < img.blocks) :
    (pre ++ construct img)[pre.length + 1 + k]? ≠ some .filemark := by
  rw [Nat.add_assoc, getElem?_construct pre img (1 + k), Nat.add_comm, construct,
    List.getElem?_cons_succ, List.getElem?_append_left (by simpa using hk)]
  simp [Image.records, hk]

end Construct

/-- The state of the volume and its medium agree the way a revalidation compares them. -/
structure Settled (v : Volume) : Prop where
  coh : v.tape.medium.coh = v.coh
  dpAppend : appendBlock v.tape .dp = (v.tape.recs .dp).length
  dpOpen : v.indexFileEnd.dp = false → v.tape.dev.appendPos.dp ≠ 0
  dpIndex : v.indexFileEnd.dp = true → ∃ pre img, v.tape.recs .dp = pre ++ construct img ∧
    ¬ dpPointerDiffers v (pre.length + 1)
  ipOpen : v.indexFileEnd.ip = false → appendBlock v.tape .ip + 1 ≠ (v.tape.recs .ip).length
  ipIndex : v.indexFileEnd.ip = true → ∃ pre img, v.tape.recs .ip = pre ++ construct img ∧
    (v.selfptrIn .ip = true → v.index.selfptr.block = pre.length + 1) ∧
    (v.tape.dev.appendPos.ip ≠ 0 → v.tape.dev.appendPos.ip = pre.length)

end Ltfs.Revalidate
