import Ltfs.TapeDevice

namespace Ltfs.WriteIndex

open Format Records TapeDevice

/-- A drive command, as the history keeps it. -/
inductive Command where
  | locate
  | write
  | writeFilemark (count : Nat)
  | setCoherency (p : Part)
  deriving DecidableEq, Repr

/-- One drive command with the medium before and after it, the generation of the last completed
index write and the directory tree in memory at that time. -/
structure Event where
  command : Command
  before : Medium
  after : Medium
  completed : UInt32
  root : Dentry

/-- A call of `ltfs_write_index` that returned 0: the document it wrote, the dirty state it found and
the data partition as it stood before. -/
structure Completion where
  part : Part
  image : Image
  dirty : Bool
  dp : List Record

/-- `struct ltfs_volume`. `completed`, `ledger` and `history` are history variables: no function reads
them. -/
structure Volume where
  label : Label
  creator : Bytes
  tape : Tape
  index : Index
  indexFileEnd : Sides Bool
  coh : Sides Coherency
  reval : Bool
  completed : UInt32
  ledger : List Completion
  history : List Event

/-- How the XML writer hands the document to the output callbacks: the number of full blocks the write
callback sends, what is left in the buffer for the close callback, and what the buffer holds when the
write of block `k` fails. A buffer that is not empty is given by its free bytes. -/
structure XmlLayout where
  full : Nat
  rest : Option Nat
  held : Nat → Option Nat
  nonempty : 0 < full ∨ rest.isSome

def XmlLayout.blocks (x : XmlLayout) : Nat :=
  x.full + if x.rest.isSome then 1 else 0

theorem XmlLayout.blocks_pos (x : XmlLayout) : 0 < x.blocks := by
  unfold blocks
  obtain h | h := x.nonempty
  · omega
  · simp [h]

/-- What one call of `ltfs_write_index` meets outside the volume: the reason text, the clock, the layout
of the document and the answer of the drive to each command. -/
structure IndexIo where
  reason : Bytes
  now : Timespec
  xml : XmlLayout
  locate : Answer
  allowOverwrite : Answer
  flushData : Answer
  openFm : Answer
  block : Nat → Answer
  rest : Answer
  closeFm : Answer
  flushFm : Answer
  vcr : Answer
  coh : Part → Answer

namespace Volume

variable (v : Volume)

/-- Send one command to the drive. -/
def issue (c : Command) (f : Tape → Result × Tape) : Result × Volume :=
  let t := f v.tape
  (t.1, { v with
    tape := t.2
    history := ⟨c, v.tape.medium, t.2.medium, v.completed, v.index.root⟩ :: v.history })

/-- `ltfs_is_dirty` -/
def isDirty : Bool :=
  v.index.dirty || (v.index.useAtime && v.index.atimeDirty)

/-- `ltfs_get_partition_readonly` -/
def partitionReadonly (p : Part) : Result :=
  v.tape.readOnly p

def selfptrIn (p : Part) : Bool :=
  v.index.selfptr.partition = v.label.id p

end Volume

/-- The next step of a function that stops at the first negative return code. -/
def andThen (x : Result × Volume) (f : Volume → Result × Volume) : Result × Volume :=
  match x with
  | (.ok _, v) => f v
  | (.error e, v) => (.error e, v)

@[simp] theorem andThen_ok (v : Volume) (f : Volume → Result × Volume) : andThen (.ok (), v) f = f v := rfl

@[simp] theorem andThen_error (e : Errno) (v : Volume) (f : Volume → Result × Volume) :
    andThen (.error e, v) f = (.error e, v) := rfl

/-- `xml_output_tape_close_callback`. Its return code is lost in `xmlFreeTextWriter`. -/
def xmlOutputTapeCloseCallback (r : Record) (free : Option Nat) (a : Answer) (v : Volume) : Volume :=
  match free with
  | none => v
  | some n => (v.issue .write (·.write r (v.label.blocksize - n) true true a)).2

/-- The first `k` full blocks of a document go through `xml_output_tape_write_callback`. A failure ends
the document: the writer is freed and the close callback puts out what the buffer holds. -/
def xmlOutputTapeWrite (img : Image) (io : IndexIo) : Nat → Volume → Result × Volume
  | 0, v => (.ok (), v)
  | k + 1, v =>
    andThen (xmlOutputTapeWrite img io k v) fun v =>
      match v.issue .write (·.write (.index img k) v.label.blocksize true true (io.block k)) with
      | (.ok _, v) => (.ok (), v)
      | (.error _, v) => (.error .xmlWriter, xmlOutputTapeCloseCallback .fragment (io.xml.held k) io.rest v)

/-- The document of `_xml_write_schema` for the index in memory. Creator and reason are joined by
a hyphen between two blanks. -/
def schemaImage (io : IndexIo) (v : Volume) : Image where
  index := { v.index with creator := v.creator ++ [0x20, 0x2d, 0x20] ++ io.reason }
  blocks := io.xml.blocks
  blocks_pos := io.xml.blocks_pos

def updateCreator (v : Volume) : Volume :=
  { v with index := { v.index with creator := v.creator } }

/-- `xml_schema_to_tape` -/
def xmlSchemaToTape (io : IndexIo) (v : Volume) : Result × Volume :=
  let img := schemaImage io v
  match xmlOutputTapeWrite img io io.xml.full v with
  | (.error e, v) => (.error e, updateCreator v)
  | (.ok _, v) =>
    (.ok (), updateCreator (xmlOutputTapeCloseCallback (.index img io.xml.full) io.xml.rest io.rest v))

/-- The part of `ltfs_update_cart_coherency` for one partition. -/
def stampCoherency (vcr : Nat) (io : IndexIo) (p : Part) (v : Volume) : Volume :=
  if v.indexFileEnd.get p then
    let c := v.coh.get p
    let c := if v.selfptrIn p then
      { c with count := v.index.generation.toNat, setId := v.index.selfptr.block } else c
    let c := { c with version := 1, volumeChangeRef := vcr }
    (Volume.issue { v with coh := v.coh.set p c } (.setCoherency p) (·.setCartCoherency p c (io.coh p))).2
  else v

/-- `ltfs_update_cart_coherency` -/
def ltfsUpdateCartCoherency (io : IndexIo) (v : Volume) : Volume :=
  match v.tape.volumeChangeReference io.vcr with
  | none | some 0 => v
  | some vcr => stampCoherency vcr io .dp (stampCoherency vcr io .ip v)

/-- The commands of `ltfs_write_index` that put the construct on tape. -/
def writeConstruct (p : Part) (io : IndexIo) (v : Volume) : Result × Volume :=
  let flushed := if p = .ip ∧ v.indexFileEnd.ip = false then
      v.issue (.writeFilemark 0) (·.writeFilemark 0 true true io.flushData)
    else (.ok (), v)
  andThen flushed fun v =>
  andThen (v.issue (.writeFilemark 1) (·.writeFilemark 1 true true io.openFm)) fun v =>
  andThen (xmlSchemaToTape io v) fun v =>
  andThen (v.issue (.writeFilemark 1) (·.writeFilemark 1 true true io.closeFm)) fun v =>
  v.issue (.writeFilemark 0) (·.writeFilemark 0 true true io.flushFm)

/-- The append position and the dirty flags after an index write. -/
def settleIndex (p : Part) (v : Volume) : Volume :=
  { v with
    tape := if p = .ip then v.tape.setAppendPosition .ip (v.index.selfptr.block - 1) else v.tape
    index := { v.index with dirty := false, atimeDirty := false, version := 20200 } }

/-- The end of `ltfs_write_index` after a successful write. -/
def finishIndex (p : Part) (io : IndexIo) (v : Volume) : Volume :=
  settleIndex p (ltfsUpdateCartCoherency io { v with indexFileEnd := v.indexFileEnd.set p true })

def Volume.complete (v : Volume) (c : Completion) : Volume :=
  { v with completed := c.image.index.generation, ledger := c :: v.ledger }

def bumpGeneration (now : Timespec) (inc : Bool) (i : Index) : Index :=
  if inc then { i with modTime := now, generation := i.generation + 1 } else i

/-- Undo `bumpGeneration`, given the index from before it. -/
def restoreGeneration (old : Index) (inc : Bool) (i : Index) : Index :=
  if inc then { i with modTime := old.modTime, generation := i.generation - 1 } else i

/-- The pointers of an index about to be written at the position of the device. -/
def setPointers (l : Label) (dev : Device) (i : Index) : Index :=
  { i with
    backptr := if i.selfptr.partition = l.id .dp then i.selfptr else i.backptr
    selfptr := ⟨dev.block + 1, l.id dev.part⟩ }

def restorePointers (old : Index) (i : Index) : Index :=
  { i with backptr := old.backptr, selfptr := old.selfptr }

/-- `ltfs_write_index` after the nested write to the data partition. -/
def writeIndexBody (p : Part) (io : IndexIo) (v : Volume) : Result × Volume :=
  let old := v.index
  let inc := v.isDirty
  let v := { v with index := bumpGeneration io.now inc old }
  match v.issue .locate (·.seekAppendPosition p (p = .ip) io.locate io.allowOverwrite) with
  | (.error e, v) => (.error e, { v with index := restoreGeneration old inc v.index })
  | (.ok _, v) =>
    let v := { v with index := setPointers v.label v.tape.dev v.index }
    let done : Completion := ⟨p, schemaImage io v, inc, v.tape.recs .dp⟩
    match writeConstruct p io v with
    | (.error e, v) =>
      (.error e, { v with index := restorePointers old (restoreGeneration old inc v.index) })
    | (.ok _, v) => (.ok (), (finishIndex p io v).complete done)

/-- The read-only check at the start of `ltfs_write_index`: running out of space does not matter. -/
def indexReadonly (v : Volume) : Result :=
  let lenient (r : Result) : Result :=
    match r with
    | .error .noSpace | .error .lessSpace => .ok ()
    | r => r
  match lenient (v.partitionReadonly .ip) with
  | .error e => .error e
  | .ok _ => lenient (v.partitionReadonly .dp)

/-- Whether an index write to the index partition puts one on the data partition first, and whether
`ltfs_write_index_conditional` writes one there. -/
def needsDpIndex (v : Volume) : Bool :=
  !v.indexFileEnd.dp || (v.indexFileEnd.ip && v.selfptrIn .ip)

/-- `ltfs_write_index`. `nested` is what the recursive call for the data partition meets. -/
def ltfsWriteIndex (p : Part) (io nested : IndexIo) (v : Volume) : Result × Volume :=
  match indexReadonly v with
  | .error e => (.error e, v)
  | .ok _ =>
    if p = .ip ∧ needsDpIndex v then
      -- the nested call repeats the read-only check, which has just passed
      match writeIndexBody .dp nested v with
      | (.error e, v) =>
        if e.needReval then (.error e, v)
        else if e.isUnexpectedMove then (.error e, { v with reval := true })
        else writeIndexBody p io v
      | (.ok _, v) => writeIndexBody p io v
    else writeIndexBody p io v

/-- `ltfs_write_index_conditional` -/
def ltfsWriteIndexConditional (p : Part) (io nested : IndexIo) (v : Volume) : Result × Volume :=
  match p with
  | .ip => if v.indexFileEnd.ip then (.ok (), v) else ltfsWriteIndex .ip io nested v
  | .dp => if needsDpIndex v then ltfsWriteIndex .dp io nested v else (.ok (), v)

/-- The blocks that `_ltfs_fsraw_write_data_unlocked` cuts a buffer into. -/
def bufferBlocks (blocksize : Nat) (buf : Bytes) : List Bytes :=
  (List.range ((buf.length + blocksize - 1) / blocksize)).map fun i => (buf.drop (i * blocksize)).take blocksize

structure DataIo where
  index : IndexIo
  nested : IndexIo
  locate : Answer
  allowOverwrite : Answer
  block : Nat → Answer

def writeDataBlocks (answer : Nat → Answer) : List Bytes → Nat → Volume → Result × Volume
  | [], _, v => (.ok (), v)
  | b :: bs, k, v =>
    andThen (v.issue .write (·.write (.data b) b.length false true (answer k))) fun v =>
      writeDataBlocks answer bs (k + 1) v

/-- The label `out_unlock` of `_ltfs_fsraw_write_data_unlocked`. -/
def outUnlock (x : Result × Volume) : Result × Volume :=
  match x with
  | (.ok _, v) => (.ok (), v)
  | (.error e, v) =>
    if e.needReval then
      (.error e, { v with tape := { v.tape with dev := { v.tape.dev with fence := true } } })
    else if e.isUnexpectedMove then (.error e, { v with reval := true })
    else (.error e, v)

/-- `_ltfs_fsraw_write_data_unlocked` from the locate on, with the start block it reports. -/
def writeDataAtAppend (p : Part) (buf : Bytes) (repetitions : Nat) (io : DataIo) (v : Volume) :
    Result × Nat × Volume :=
  match v.issue .locate (·.seekAppendPosition p (p = .ip) io.locate io.allowOverwrite) with
  | (.error e, v) => ((outUnlock (.error e, v)).1, 0, (outUnlock (.error e, v)).2)
  | (.ok _, v) =>
    let blocks := (List.replicate repetitions (bufferBlocks v.label.blocksize buf)).flatten
    let x := outUnlock (writeDataBlocks io.block blocks 0 v)
    (x.1, v.tape.dev.block, x.2)

/-- `_ltfs_fsraw_write_data_unlocked` -/
def ltfsFsrawWriteDataUnlocked (p : Part) (buf : Bytes) (repetitions : Nat) (io : DataIo) (v : Volume) :
    Result × Nat × Volume :=
  if buf.length = 0 ∨ repetitions = 0 then (.ok (), 0, v)
  else if 1 < repetitions ∧ buf.length % v.label.blocksize ≠ 0 then (.error .badArg, 0, v)
  else if v.tape.dev.fence then (.error .deviceFenced, 0, v)
  else
    let ro := v.partitionReadonly p
    if ro ≠ .ok () ∧ ro ≠ .error .noSpace then ((outUnlock (ro, v)).1, 0, (outUnlock (ro, v)).2)
    else
      match ltfsWriteIndexConditional p.other io.index io.nested v with
      | (.error e, v) => ((outUnlock (.error e, v)).1, 0, (outUnlock (.error e, v)).2)
      | (.ok _, v) =>
        writeDataAtAppend p buf repetitions io { v with indexFileEnd := v.indexFileEnd.set p false }

/-- `ltfs_sync_index`, up to the revalidation and retry after a reset -/
def ltfsSyncIndex (io nested : IndexIo) (v : Volume) : Result × Volume :=
  match v.partitionReadonly .dp with
  | .error _ => (.ok (), v)
  | .ok _ =>
    if v.index.dirty then
      if v.tape.dev.fence then (.error .deviceFenced, v)
      else
        let p := if v.indexFileEnd.dp ∧ v.indexFileEnd.ip = false then Part.ip else .dp
        match ltfsWriteIndex p io nested v with
        | (.ok _, v) => (.ok (), v)
        | (.error e, v) => (.error e, if e.isUnexpectedMove then { v with reval := true } else v)
    else (.ok (), v)

/-- `ltfs_unmount`, up to the revalidation and retry after a reset -/
def ltfsUnmount (io nested : IndexIo) (v : Volume) : Result × Volume :=
  if v.reval then (.error .revalFailed, v)
  else if v.isDirty ∨ v.selfptrIn .ip = false then
    match ltfsWriteIndex .ip io nested v with
    | (.ok _, v) => (.ok (), { v with reval := false })
    | (.error e, v) => (.error e, if e.isUnexpectedMove then { v with reval := true } else v)
  else (.ok (), v)

end Ltfs.WriteIndex
