import Ltfs.WriteIndex
import Ltfs.Lib.Cells

namespace Ltfs.Format.ExtentInfo

variable (bs : Nat) (e ext : ExtentInfo)

def fileoffsetEnd : Nat :=
  e.fileoffset + e.bytecount

def byteoffsetEnd : Nat :=
  e.byteoffset + e.bytecount

def truncateFront (diff : Nat) : ExtentInfo where
  start := { e.start with block := e.start.block + (diff + e.byteoffset) / bs }
  byteoffset := (diff + e.byteoffset) % bs
  bytecount := e.bytecount - diff
  fileoffset := e.fileoffset + diff

def truncateEnd (fileoffset : Nat) : ExtentInfo :=
  { e with bytecount := fileoffset - e.fileoffset }

/-- `ext` carries on right where `e` ends, in the file and on tape. -/
def Adjoins : Prop :=
  ext.fileoffset = e.fileoffsetEnd ∧ e.start.partition = ext.start.partition ∧
    e.byteoffsetEnd % bs = 0 ∧ e.start.block + e.byteoffsetEnd / bs = ext.start.block ∧ ext.byteoffset = 0

instance : Decidable (Adjoins bs e ext) :=
  inferInstanceAs (Decidable (_ ∧ _))

def grow (n : Nat) : ExtentInfo :=
  { e with bytecount := e.bytecount + n }

end Ltfs.Format.ExtentInfo

namespace Ltfs.RawFile

open Format Lib.Log Lib.Cells Records WriteIndex

/-- The two partitions as file data sees them: what is recorded, and the block that the next data
write to a partition goes to. -/
structure Store where
  recs : Sides (List Record)
  append : Sides Nat
  append_le : ∀ p, append.get p ≤ (recs.get p).length

theorem blank_le (p : Part) : (Sides.mk 0 0).get p ≤ ((Sides.mk ([] : List Record) []).get p).length := by
  cases p <;> exact Nat.le_refl 0

/-- Nothing below an append position is lost. -/
def Store.Keeps (s t : Store) : Prop :=
  ∀ p, s.append.get p ≤ t.append.get p ∧
    ∀ c < s.append.get p, (t.recs.get p)[c]? = (s.recs.get p)[c]?

def Store.put (s : Store) (p : Part) (rs : List Record) : Store where
  recs := s.recs.set p (overwrite (s.recs.get p) (s.append.get p) rs)
  append := s.append.set p (s.append.get p + rs.length)
  append_le q := by
    obtain rfl | rfl := p.eq_or_other q
    · rw [Sides.get_set_self, Sides.get_set_self]
      exact Nat.le_of_eq (overwrite_length (s.append_le _)).symm
    · rw [Sides.get_set_other, Sides.get_set_other]
      exact s.append_le _

/-- The errors of a data write that the scheduler tells apart. -/
inductive WriteError where
  | noSpace
  | lessSpace
  | other
  deriving DecidableEq, Repr

theorem keeps_same (_ : Nat) (s : Store) : s.Keeps s := fun _ => ⟨Nat.le_refl _, fun _ _ => rfl⟩

/-- The surroundings of a file's data writes: what else gets recorded before the `n`-th of them (index
constructs, the data of other files, the blocks of a write that failed), the error it ends with, and
whether a partition is read-only by then. -/
structure Drive where
  before : Nat → Store → Store
  keeps : ∀ n (s : Store), s.Keeps (before n s)
  fault : Nat → Part → Option WriteError
  readonly : Nat → Part → Bool

/-- The contents of a dentry: its extents and size. -/
structure Contents where
  extentlist : List ExtentInfo
  size : Nat
  deriving DecidableEq, Repr

/-- The volume below one file. `writes` counts the data writes issued so far. -/
structure Tape where
  store : Store
  writes : Nat

variable (l : Label) (dr : Drive)

/-- `ltfs_fsraw_write_data` with one repetition -/
def ltfsFsrawWriteData (p : Part) (buf : Bytes) (t : Tape) : Except WriteError Nat × Tape :=
  if buf = [] then
    (.ok 0, t)
  else
    let s := dr.before t.writes t.store
    match dr.fault t.writes p with
    | some e => (.error e, ⟨s, t.writes + 1⟩)
    | none => (.ok (s.append.get p), ⟨s.put p ((bufferBlocks l.blocksize buf).map .data), t.writes + 1⟩)

/-- `ext` comes right behind `entry`: its bytes are added to `entry`, or it is inserted. -/
def joinOrInsert (bs : Nat) (entry ext : ExtentInfo) : List ExtentInfo :=
  if entry.Adjoins bs ext then [entry.grow ext.bytecount] else [entry, ext]

/-- The walk of `_ltfs_fsraw_add_extent_unlocked` from the last extent to the first. The extents still
to be looked at come in reverse order, those already passed in order. -/
def addExtentWalk (bs : Nat) (ext : ExtentInfo) : List ExtentInfo → List ExtentInfo → List ExtentInfo
  | [], passed => ext :: passed
  | entry :: before, passed =>
    if ext.fileoffset ≤ entry.fileoffset ∧ entry.fileoffset < ext.fileoffsetEnd then
      if entry.fileoffsetEnd ≤ ext.fileoffsetEnd then
        addExtentWalk bs ext before passed
      else
        addExtentWalk bs ext before
          (entry.truncateFront bs (ext.fileoffsetEnd - entry.fileoffset) :: passed)
    else if entry.fileoffset < ext.fileoffset ∧ ext.fileoffset < entry.fileoffsetEnd then
      if entry.fileoffsetEnd ≤ ext.fileoffsetEnd then
        before.reverse ++ (joinOrInsert bs (entry.truncateEnd ext.fileoffset) ext ++ passed)
      else
        before.reverse ++ (joinOrInsert bs (entry.truncateEnd ext.fileoffset) ext ++
          entry.truncateFront bs (ext.fileoffsetEnd - entry.fileoffset) :: passed)
    else if entry.fileoffsetEnd ≤ ext.fileoffset then
      before.reverse ++ (joinOrInsert bs entry ext ++ passed)
    else
      addExtentWalk bs ext before (entry :: passed)

/-- `_ltfs_fsraw_add_extent_unlocked` -/
def ltfsFsrawAddExtent (ext : ExtentInfo) (d : Contents) : Contents where
  extentlist := addExtentWalk l.blocksize ext d.extentlist.reverse []
  size := max d.size ext.fileoffsetEnd

/-- `ltfs_fsraw_write` -/
def ltfsFsrawWrite (p : Part) (buf : Bytes) (offset : Nat) (d : Contents) (t : Tape) :
    Except WriteError Contents × Tape :=
  match ltfsFsrawWriteData l dr p buf t with
  | (.error e, t) => (.error e, t)
  | (.ok start, t) => (.ok (ltfsFsrawAddExtent l ⟨⟨start, l.id p⟩, 0, buf.length, offset⟩ d), t)

/-- The data block at a tape position; anything else there cannot be read as file data. -/
def Store.block (s : Store) (partition : Char) (b : Nat) : Option Bytes :=
  let recs :=
    if partition = l.partidIp then s.recs.ip
    else if partition = l.partidDp then s.recs.dp
    else []
  match recs[b]? with
  | some (.data c) => some c
  | _ => none

/-- The inner loop of `ltfs_fsraw_read`: block by block up to the end of the extent or of the buffer.
`firstbyte` is the file position of the first byte of the block, which lies before the start of the
file when the extent begins inside its first block. -/
def readBlocks (bs : Nat) (block : Nat → Option Bytes) (entryEnd lastOff : Nat) :
    Nat → Nat → Int → Nat → Option Bytes
  | 0, _, _, _ => some []
  | fuel + 1, b, firstbyte, nextOff =>
    if entryEnd ≤ nextOff ∨ lastOff ≤ nextOff then
      some []
    else
      let lastbyte : Int := min (firstbyte + bs) entryEnd
      match block b with
      | none => none
      | some c =>
        if (c.length : Int) < lastbyte - firstbyte then
          none
        else
          let ncopy := (min lastbyte lastOff - nextOff).toNat
          (readBlocks bs block entryEnd lastOff fuel (b + 1) (firstbyte + bs) (nextOff + ncopy)).map
            ((c.drop (nextOff - firstbyte).toNat).take ncopy ++ ·)

/-- What one extent contributes to a read that has come to `nextOff`. -/
def readExtent (s : Store) (e : ExtentInfo) (lastOff nextOff : Nat) : Option Bytes :=
  let skipped := (nextOff - e.fileoffset + e.byteoffset) / l.blocksize
  readBlocks l.blocksize (s.block l e.start.partition) e.fileoffsetEnd lastOff (lastOff - nextOff)
    (e.start.block + skipped) (e.fileoffset - e.byteoffset + skipped * l.blocksize) nextOff

/-- The walk of `ltfs_fsraw_read` over the extents; gaps and the sparse end read as zeros. -/
def readExtents (s : Store) (size lastOff : Nat) : List ExtentInfo → Nat → Option Bytes
  | [], nextOff => some (List.replicate (min lastOff size - nextOff) 0)
  | e :: es, nextOff =>
    if nextOff = lastOff then
      some []
    else if nextOff < e.fileoffset ∧ lastOff < e.fileoffset then
      some (List.replicate (lastOff - nextOff) 0)
    else
      let gap := e.fileoffset - nextOff
      let nextOff := nextOff + gap
      match (if nextOff < e.fileoffsetEnd then readExtent l s e lastOff nextOff else some []) with
      | none => none
      | some c => (readExtents s size lastOff es (nextOff + c.length)).map
          (List.replicate gap 0 ++ c ++ ·)

/-- `ltfs_fsraw_read` -/
def ltfsFsrawRead (s : Store) (d : Contents) (count offset : Nat) : Option Bytes :=
  if count = 0 then some []
  else readExtents l s d.size (offset + count) d.extentlist offset

/-- The reverse walk of `ltfs_fsraw_truncate` over the extents. -/
def truncateExtents (length : Nat) : List ExtentInfo → List ExtentInfo
  | [] => []
  | e :: before =>
    if length ≤ e.fileoffset ∨ length = 0 then
      truncateExtents length before
    else if length < e.fileoffsetEnd then
      truncateExtents length before ++ [e.truncateEnd length]
    else
      (e :: before).reverse

/-- `ltfs_fsraw_truncate` -/
def ltfsFsrawTruncate (length : Nat) (d : Contents) : Contents where
  extentlist := if length < d.size then truncateExtents length d.extentlist.reverse else d.extentlist
  size := length

end Ltfs.RawFile
