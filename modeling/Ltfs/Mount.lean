import Ltfs.Revalidate

namespace Ltfs.Mount

open Format Lib.Log Records Constructs TapeDevice TapeSpec WriteIndex Revalidate

/-- `xml_schema_from_tape`: the document that starts at block `b`, and whether a filemark follows it -/
def xmlSchemaFromTape (rs : List Record) (b : Nat) : Option (Image × Bool) :=
  match rs[b]? with
  | some (.index img _) =>
    if img.records <+: rs.drop b then some (img, rs[b + img.blocks]? = some .filemark) else none
  | _ => none

/-- `ltfs_read_index` at block `b` of `p` -/
def ltfsReadIndex (l : Label) (p : Part) (rs : List Record) (b : Nat) : Except Errno (Image × Bool) :=
  match xmlSchemaFromTape rs b with
  | none => .error .indexInvalid
  | some (img, fm) =>
    let self := img.index.selfptr
    let back := img.index.backptr
    if self ≠ ⟨b, l.id p⟩ then .error .indexInvalid
    else if back.partition ≠ '\x00' ∧ back.partition ≠ l.id .dp then .error .indexInvalid
    else if back.partition = self.partition ∧ self.block ≠ 5 ∧ back.block ≠ self.block ∧
        self.block - 2 ≤ back.block then .error .indexInvalid
    else if back.partition ≠ '\x00' ∧ back.block < 5 then .error .indexInvalid
    else .ok (img, fm)

/-- What `ltfs_seek_index` reports of the index it found. -/
structure Found where
  image : Image
  endPos : Nat
  fmAfter : Bool
  blocksAfter : Bool

/-- The loop of `ltfs_seek_index`, from the filemark at `pos` backwards. A candidate that is no index
leaves the head between its filemark and the next one, so that two filemarks back is the one before. -/
def seekIndexFrom (l : Label) (p : Part) (rs : List Record) : Nat → Nat → Except Errno (Option Found)
  | 0, _ => .error .bopDetected
  | fuel + 1, pos =>
    if pos = 3 then .ok none
    else
      match nextFilemark rs pos with
      | none => .error .eodDetected
      | some f =>
        match ltfsReadIndex l p rs (f + 1) with
        | .ok (img, fm) =>
          let stop := f + 1 + img.blocks + (if fm then 1 else 0)
          .ok (some ⟨img, stop, fm, stop ≠ rs.length⟩)
        | .error _ =>
          match previousFilemark rs f with
          | none => .error .bopDetected
          | some pos => seekIndexFrom l p rs fuel pos

/-- `ltfs_seek_index` -/
def ltfsSeekIndex (l : Label) (p : Part) (rs : List Record) : Except Errno (Option Found) :=
  let eod := rs.length
  if eod ≤ 4 then .ok none
  else
    match previousFilemark rs eod with
    | none => .error .bopDetected
    | some pos =>
      if pos = 3 then .ok none
      else if pos = eod - 1 then
        match previousFilemark rs pos with
        | none => .error .bopDetected
        | some pos => seekIndexFrom l p rs (eod + 1) pos
      else seekIndexFrom l p rs (eod + 1) pos

/-- `_ltfs_check_extents` -/
def ltfsCheckExtents (l : Label) (root : Dentry) (eod : Sides Nat) : Bool :=
  root.extents.all fun x =>
    let last := x.start.block + (x.bytecount + l.blocksize - 1) / l.blocksize
    4 ≤ x.start.block ∧ ¬ (x.start.partition = l.id .ip ∧ eod.ip ≤ last) ∧
      ¬ (x.start.partition = l.id .dp ∧ eod.dp ≤ last)

/-- The last part of `_ltfs_check_pointers`: one step back along the chain of the data partition. -/
def checkPrevious (l : Label) (dpRecs : List Record) (ip dp : Index) : Except Errno Part :=
  if ip.backptr.block < dp.backptr.block then
    match ltfsReadIndex l .dp dpRecs dp.backptr.block with
    | .error e => .error e
    | .ok (previous, _) =>
      if ip.backptr.partition = '\x00' ∧ previous.index.generation < ip.generation then .error .indexInvalid
      else .ok .dp
  else .ok .dp

/-- `_ltfs_check_pointers`: the partition with the newer index, `none` if there is no index -/
def ltfsCheckPointers (l : Label) (dpRecs : List Record) (ip dp : Option Index) : Except Errno (Option Part) :=
  match ip, dp with
  | none, none => .ok none
  | none, some _ => .ok (some .dp)
  | some ip, none => if ip.backptr.partition ≠ '\x00' then .error .indexInvalid else .ok (some .ip)
  | some ip, some dp =>
    if dp.generation ≤ ip.generation ∧ ip.backptr = dp.selfptr then .ok (some .ip)
    else if dp.generation < ip.generation then .error .indexInvalid
    else if ip.generation = dp.generation ∧ ip.backptr.partition = '\x00' then .ok (some .dp)
    else (checkPrevious l dpRecs ip dp).map some

def indexFound (x : Option Found) : Option Index :=
  x.map fun f => f.image.index

/-- Blocks that no index accounts for. -/
def extraBlocks (x : Option Found) (eod : Nat) : Bool :=
  match x with
  | none => eod ≠ 4
  | some f => f.blocksAfter

/-- `ltfs_check_medium`, up to the choice of the index -/
def ltfsCheckMedium (l : Label) (deep : Bool) (m : Medium) : Except Errno Index :=
  match ltfsSeekIndex l .ip m.recs.ip, ltfsSeekIndex l .dp m.recs.dp with
  | .error e, _ => .error e
  | _, .error e => .error e
  | .ok ip, .ok dp =>
    if ip.isNone ∧ dp.isNone then .error .noIndex
    else
      -- a missing filemark behind an index at end of data is filled in
      let filled (x : Option Found) (eod : Nat) : Nat := match x with
        | some f => if f.blocksAfter = false ∧ f.fmAfter = false then eod + 1 else eod
        | none => eod
      let eod : Sides Nat := ⟨filled ip m.recs.ip.length, filled dp m.recs.dp.length⟩
      if deep = false ∧ (extraBlocks dp eod.dp ∨ extraBlocks ip eod.ip) then .error .inconsistent
      else
        match ltfsCheckPointers l m.recs.dp (indexFound ip) (indexFound dp), indexFound ip, indexFound dp with
        | .error e, _, _ => .error e
        | .ok _, some i, none => if ltfsCheckExtents l i.root eod then .ok i else .error .indexInvalid
        | .ok _, none, some i => if ltfsCheckExtents l i.root eod then .ok i else .error .indexInvalid
        | .ok (some .ip), some i, some _ => .ok i
        | .ok _, some _, some i => .ok i
        | .ok _, none, none => .error .noIndex

/-- The test in `ltfs_mount` for the fast path. -/
def fastPath (m : Medium) : Prop :=
  m.coh.ip.version ≠ 0 ∧ m.coh.dp.version ≠ 0 ∧ 0 < m.vcr ∧ m.vcr = m.coh.ip.volumeChangeRef ∧
    m.vcr = m.coh.dp.volumeChangeRef

instance (m : Medium) : Decidable (fastPath m) :=
  inferInstanceAs (Decidable (_ ∧ _ ∧ _ ∧ _ ∧ _))

/-- How the fast path ends. `fullCheck` leads to `ltfs_check_medium`. -/
inductive MountEnd where
  | mounted (v : Volume)
  | fullCheck
  | failed (e : Errno)

/-- The volume of `ltfs_mount` with an index just read from `p`. -/
def readVolume (l : Label) (creator : Bytes) (t : Tape) (p : Part) (stop : Nat) (i : Index) : Volume where
  label := l
  creator := creator
  tape := { t with dev := { t.dev with part := p, block := stop } }
  index := { i with dirty := false, atimeDirty := false }
  indexFileEnd := ⟨false, false⟩
  coh := t.medium.coh
  reval := false
  completed := i.generation
  ledger := []
  history := []

/-- The seek and the read of the fast path. -/
def readStamped (l : Label) (creator : Bytes) (t : Tape) (p : Part) (next : Volume → MountEnd) : MountEnd :=
  let b := (t.medium.coh.get p).setId
  if (t.recs p).length < b then .fullCheck
  else
    match ltfsReadIndex l p (t.recs p) b with
    | .error e => .failed e
    | .ok (img, fm) => next (readVolume l creator t p (b + img.blocks + (if fm then 1 else 0)) img.index)

/-- The newer index of the data partition is copied to the index partition. -/
def copyToIp (io nested : IndexIo) (v : Volume) : MountEnd :=
  match ltfsWriteIndex .ip io nested v with
  | (.ok _, v) => .mounted v
  | (.error e, _) => .failed e

/-- The fast path of `ltfs_mount` -/
def ltfsMountFast (l : Label) (creator : Bytes) (io nested : IndexIo) (t : Tape) : MountEnd :=
  if t.medium.coh.ip.count < t.medium.coh.dp.count then readStamped l creator t .dp (copyToIp io nested)
  else readStamped l creator t .ip .mounted

end Ltfs.Mount
