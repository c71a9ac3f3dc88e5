import Ltfs.Format

namespace Ltfs.FileDrive

open Format

/-- `rec_suffixes`: a data block, a filemark, the end of data. -/
inductive Suffix where
  | record
  | filemark
  | eod
  deriving DecidableEq, Repr

def Suffix.char : Suffix → Char
  | .record => 'R'
  | .filemark => 'F'
  | .eod => 'E'

/-- `_filedebug_make_filename`, below the directory of the tape. -/
def makeFilename (part pos : Nat) (type : Char) : List Char :=
  Nat.toDigits 10 part ++ '_' :: (Nat.toDigits 10 pos ++ '_' :: [type])

/-- `_filedebug_make_attrname` -/
def makeAttrname (part id : Nat) : List Char :=
  ['a', 't', 't', 'r', '_'] ++ (Nat.toDigits 10 part ++ '_' :: Nat.toDigits 16 id)

/-- The directory where the blocks reside: the content of each file in it. -/
abbrev Dir := List Char → Option Bytes

def part0 : Fin 2 := ⟨0, Nat.zero_lt_two⟩

def part1 : Fin 2 := ⟨1, Nat.one_lt_two⟩

/-- `MISSING_EOD` -/
def missingEod : Nat := 2 ^ 64 - 1

/-- The number before `n` in 64 bits -/
def before (n : Nat) : Nat := (n + (2 ^ 64 - 1)) % 2 ^ 64

/-- The error codes that the functions of the drive return. -/
inductive Edev where
  | notReady
  | needInitialize
  | rwPerm
  | cmPerm
  | invalidArg
  | illegalRequest
  | eodDetected
  | eodNotFound
  | bopDetected
  deriving DecidableEq, Repr

/-- `struct filedebug_data` and the directory it stands on. `partitions` counts from 0. No function reads
`history`, the directories there have been before. -/
structure Drive where
  dir : Dir
  history : List Dir
  ready : Bool
  part : Fin 2
  block : Nat
  filemarks : Nat
  maxBlockSize : Nat
  lastBlock : Fin 2 → Nat
  eod : Fin 2 → Nat
  partitions : Nat
  writePassPrev : Nat
  writePass : Nat
  warning : Fin 2 → Nat
  pWarning : Fin 2 → Nat

/-- `filedebug_data.max_block_size` -/
def greatestBlock : Nat := 16 * 1024 * 1024

/-- `filedebug_open` of a directory, with the warnings that `filedebug_parse_opts` sets. -/
def openDir (dir : Dir) (warning pWarning : Fin 2 → Nat) : Drive where
  dir := dir
  history := []
  ready := false
  part := part0
  block := 0
  filemarks := 0
  maxBlockSize := greatestBlock
  lastBlock := fun _ => 0
  eod := fun _ => 0
  partitions := 0
  writePassPrev := 0
  writePass := 0
  warning := warning
  pWarning := pWarning

/-- What a function returns, with the early warning and the programmable early warning of the position. -/
structure Reply where
  bytes : Bytes
  earlyWarning : Bool
  programmableEarlyWarning : Bool
  deriving DecidableEq, Repr

abbrev Outcome := Except Edev Reply × Drive

namespace Drive

variable (d : Drive)

/-- The content of the file of a record. -/
def file (p : Fin 2) (b : Nat) (s : Suffix) : Option Bytes := d.dir (makeFilename p b s.char)

/-- `_filedebug_check_file` -/
def checkFile (p : Fin 2) (b : Nat) (s : Suffix) : Bool := (d.file p b s).isSome

def change (name : List Char) (content : Option Bytes) : Drive :=
  { d with dir := Function.update d.dir name content, history := d.dir :: d.history }

/-- `unlink`; a file that is not there is no error. -/
def unlink (name : List Char) : Drive :=
  match d.dir name with
  | none => d
  | some _ => d.change name none

/-- `open` with `O_CREAT | O_TRUNC`, then `write` -/
def create (name : List Char) (content : Bytes) : Drive :=
  if content = [] then d.change name (some [])
  else (d.change name (some [])).change name (some content)

/-- `_filedebug_remove_record` -/
def removeRecord (p : Fin 2) (b : Nat) : Drive :=
  ((d.unlink (makeFilename p b 'R')).unlink (makeFilename p b 'F')).unlink (makeFilename p b 'E')

/-- `_filedebug_remove_current_record` -/
def removeCurrentRecord : Drive := d.removeRecord d.part d.block

/-- The loop of `_filedebug_write_eod`: `n` records from block `b` on. -/
def removeRecords : Nat → Nat → Drive → Drive
  | 0, _, d => d
  | n + 1, b, d => removeRecords n (b + 1) (d.removeRecord d.part b)

/-- `_filedebug_write_eod` -/
def writeEod : Drive :=
  let e := d.removeCurrentRecord.create (makeFilename d.part d.block 'E') []
  let e := if d.eod d.part = missingEod then e else removeRecords (d.eod d.part - d.block) (d.block + 1) e
  { e with
    lastBlock := Function.update e.lastBlock e.part (before e.block)
    eod := Function.update e.eod e.part e.block }

/-- The warnings at a position. -/
def earlyWarning : Bool := d.warning d.part ≠ 0 && d.warning d.part ≤ d.block

def programmableWarning : Bool := d.pWarning d.part ≠ 0 && d.pWarning d.part ≤ d.block

def warned (bytes : Bytes) : Reply := ⟨bytes, d.earlyWarning, d.programmableWarning⟩

/-- `ltfs_u16tobe` and its like -/
def toBe : Nat → Nat → Bytes
  | 0, _ => []
  | width + 1, n => toBe width (n / 256) ++ [UInt8.ofNat (n % 256)]

/-- `ltfs_betou16` and its like -/
def beTo (l : Bytes) : Nat := l.foldl (fun n b => 256 * n + b.toNat) 0

/-- `TC_MAM_PAGE_VCR` -/
def vcrId : Nat := 0x0009

/-- `filedebug_write_attribute`. An attribute is the id, a format byte, the length and the value; the file of each
gets the whole buffer from its start. -/
def writeAttribute (p : Fin 2) (buf : Bytes) : Nat → Nat → Drive → Drive
  | 0, _, d => d
  | fuel + 1, i, d =>
    if buf.length ≤ i then d
    else
      let id := beTo ((buf.drop i).take 2)
      let size := beTo ((buf.drop (i + 3)).take 2)
      writeAttribute p buf fuel (i + (size + 5)) (d.create (makeAttrname p id) buf)

/-- `filedebug_read_attribute` -/
def readAttribute (p : Fin 2) (id size : Nat) : Option Bytes := (d.dir (makeAttrname p id)).map (·.take size)

/-- `_set_wp` -/
def setWp (wp : Nat) : Drive :=
  writeAttribute part0 (toBe 2 vcrId ++ [0] ++ toBe 2 4 ++ toBe 4 (wp % 2 ^ 32)) 9 0 d

/-- `_get_wp`; a cartridge without the attribute gets one. The buffer is zero where the file is too short. -/
def getWp : Nat × Drive :=
  match d.readAttribute part0 vcrId 9 with
  | some data => (beTo (((data ++ List.replicate 9 0).drop 5).take 4), d)
  | none => (0, d.setWp 1)

/-- The write pass goes up once between two loads. -/
def raiseWritePass : Drive :=
  if d.writePassPrev = d.writePass then ({ d with writePass := d.writePass + 1 } : Drive).setWp (d.writePass + 1)
  else d

/-- `filedebug_write` -/
def write (buf : Bytes) : Outcome :=
  if !d.ready then (.error .notReady, d)
  else if buf = [] then (.ok ⟨[], false, false⟩, d)
  else if d.maxBlockSize < buf.length then (.error .invalidArg, d)
  else
    let e := d.removeCurrentRecord.raiseWritePass
    let e := e.create (makeFilename e.part e.block 'R') buf
    let e := { e with block := e.block + 1 }.writeEod
    -- the programmable warning comes only with the block that enters the zone
    (.ok ⟨[], e.earlyWarning, e.pWarning e.part ≠ 0 && e.block = e.pWarning e.part⟩, e)

/-- The loop of `filedebug_writefm` -/
def writeMarks : Nat → Drive → Drive
  | 0, d => d
  | n + 1, d =>
    let e := d.removeCurrentRecord
    let e := e.create (makeFilename e.part e.block 'F') []
    writeMarks n { e with block := e.block + 1, filemarks := e.filemarks + 1 }.writeEod

/-- `filedebug_writefm` -/
def writefm (count : Nat) : Outcome :=
  if !d.ready then (.error .notReady, d)
  else if count = 0 then (.ok ⟨[], false, false⟩, d)
  else
    let e := writeMarks count d.raiseWritePass
    (.ok (e.warned []), e)

/-- `filedebug_read` -/
def read (count : Nat) : Outcome :=
  if !d.ready then (.error .notReady, d)
  else if d.eod d.part = d.block then (.error .eodDetected, d)
  else if d.checkFile d.part d.block .eod then (.error .eodNotFound, d)
  else if d.checkFile d.part d.block .filemark then
    (.ok ⟨[], false, false⟩, { d with block := d.block + 1, filemarks := d.filemarks + 1 })
  else
    match d.file d.part d.block .record with
    | some content => (.ok ⟨content.take count, false, false⟩, { d with block := d.block + 1 })
    | none => (.error .rwPerm, d)

/-- `filedebug_rewind` -/
def rewind : Outcome :=
  if !d.ready then (.error .notReady, d)
  else (.ok ⟨[], false, false⟩, { d with block := 0, filemarks := 0 })

/-- How many of the first `n` blocks of the partition are filemarks. -/
def countFilemarks (p : Fin 2) : Nat → Nat
  | 0 => 0
  | n + 1 => countFilemarks p n + if d.checkFile p n .filemark then 1 else 0

def recount : Drive := { d with filemarks := d.countFilemarks d.part d.block }

/-- Where `filedebug_locate` stops that was sent to block `b`. -/
def destination (p : Fin 2) (b : Nat) : Nat :=
  if d.eod p = missingEod ∧ d.lastBlock p < b then d.lastBlock p + 1
  else if d.eod p < b then d.eod p
  else b

/-- `filedebug_locate` -/
def locate (p b : Nat) : Outcome :=
  if !d.ready then (.error .notReady, d)
  else if h : p < 2 then
    let e := { d with part := ⟨p, h⟩, block := d.destination ⟨p, h⟩ b }.recount
    (.ok (e.warned []), e)
  else (.error .invalidArg, d)

/-- The loop of `_filedebug_space_fm` forwards; `none` if `fuel` is not enough. -/
def spaceFmForward : Nat → Nat → Drive → Option (Except Edev Unit × Drive)
  | 0, _, _ => none
  | fuel + 1, count, d =>
    if d.block = d.eod d.part then some (.error .eodDetected, d)
    else if d.block = (d.lastBlock d.part + 1) % 2 ^ 64 then some (.error .rwPerm, d)
    else if d.checkFile d.part d.block .filemark then
      if count = 1 then some (.ok (), { d with block := d.block + 1 })
      else spaceFmForward fuel (count - 1) { d with block := d.block + 1 }
    else spaceFmForward fuel count { d with block := d.block + 1 }

/-- The loop of `_filedebug_space_fm` backwards, with the head at a block. -/
def spaceFmBackward (p : Fin 2) : Nat → Nat → Except Edev Unit × Nat
  | count, 0 => if d.checkFile p 0 .filemark ∧ count = 1 then (.ok (), 0) else (.error .bopDetected, 0)
  | count, b + 1 =>
    if d.checkFile p (b + 1) .filemark then
      if count = 1 then (.ok (), b + 1) else spaceFmBackward p (count - 1) b
    else spaceFmBackward p count b

/-- `_filedebug_space_fm` -/
def spaceFm (fuel count : Nat) (back : Bool) : Option (Except Edev Unit × Drive) :=
  if count = 0 then some (.ok (), d)
  else if back then
    -- the search starts before the current block, but not before block 0
    let x := d.spaceFmBackward d.part count (d.block - 1)
    some (x.1, { d with block := x.2 })
  else spaceFmForward fuel count d

/-- `filedebug_space` by filemarks. The position is reported also after a failure. -/
def spaceFilemarks (fuel count : Nat) (back : Bool) : Option Outcome :=
  if !d.ready then some (.error .notReady, d)
  else if d.block = missingEod then some (.error .rwPerm, d)
  else
    match d.spaceFm fuel count back with
    | none => none
    | some (.ok _, e) => some (.ok (e.recount.warned []), e.recount)
    | some (.error x, e) => some (.error x, e.recount)

/-- `filedebug_space` to the end of data -/
def spaceEod : Outcome :=
  if !d.ready then (.error .notReady, d)
  else
    let e := { d with block := d.eod d.part }
    if e.block = missingEod then (.error .rwPerm, e) else (.ok (e.recount.warned []), e.recount)

/-- `filedebug_erase`, of the whole partition behind the head -/
def erase : Outcome :=
  if !d.ready then (.error .notReady, d) else (.ok ⟨[], false, false⟩, d.writeEod)

/-- The loop of `filedebug_search_eod`: the first block that has no record or has the end of data, and whether it
has that. `none` if `fuel` is not enough. -/
def findEod (p : Fin 2) : Nat → Nat → Option (Nat × Bool)
  | 0, _ => none
  | fuel + 1, b =>
    if (d.checkFile p b .record || d.checkFile p b .filemark) && !d.checkFile p b .eod then findEod p fuel (b + 1)
    else some (b, d.checkFile p b .eod)

/-- `filedebug_search_eod` -/
def searchEod (fuel : Nat) (p : Fin 2) : Option Drive :=
  (d.findEod p fuel 0).map fun x =>
    let e := { d with part := p, block := x.1 }
    if !x.2 && x.1 ≠ 0 then
      { e with
        lastBlock := Function.update e.lastBlock p x.1
        eod := Function.update e.eod p missingEod }
    else e.writeEod

/-- `filedebug_load` of a directory -/
def load (fuel : Nat) : Option Outcome :=
  if d.ready then some (.ok ⟨[], false, false⟩, d)
  else do
    let e ← { d with ready := true }.searchEod fuel part0
    let e ← e.searchEod fuel part1
    let e := { e with part := part0, block := 0, filemarks := 0, partitions := 2 }
    let (wp, e) := e.getWp
    return (.ok ⟨[], false, false⟩, { e with writePassPrev := wp, writePass := wp })

/-- `filedebug_unload` -/
def unload : Outcome :=
  (.ok ⟨[], false, false⟩, { d with ready := false, part := part0, block := 0, filemarks := 0 })

/-- `filedebug_format` with the number of partitions of the format. -/
def format (partitions : Nat) : Outcome :=
  if d.part ≠ part0 ∨ d.block ≠ 0 then (.error .illegalRequest, d)
  else
    let e := { d with partitions := partitions, part := part1, block := 0 }.erase.2
    (.ok ⟨[], false, false⟩, { e with part := part0, block := 0 }.erase.2)

end Drive

end Ltfs.FileDrive
