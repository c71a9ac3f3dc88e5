import Ltfs.ExtentWords
import Ltfs.RawRead
import Ltfs.Lib.Run

namespace Ltfs.BlockCache

open Format Lib.Cells RawFile RawSpec RawWrite ExtentWords

/-- The drive with the cache of the volume for the block read last: `last_pos`, and the `last_size` bytes of
`last_block`. Blocks have 64-bit numbers. -/
structure Reader where
  store : Store
  short : ∀ p, (store.recs.get p).length < 2 ^ 64
  pos : Part × Nat
  lastPos : TapeOffset
  lastBlock : Bytes

variable (l : Label)

/-- `ltfs_part_id2num` -/
def partId2num (id : Char) : Option Part :=
  if id = l.partidIp then some .ip else if id = l.partidDp then some .dp else none

/-- `tape_read` of a block -/
def tapeRead (r : Reader) : Option Bytes := r.store.block l (l.id r.pos.1) r.pos.2

/-- The variables of the inner loop of `ltfs_fsraw_read`. `read_count` is the length of `buf`. -/
structure Scan where
  reader : Reader
  curpos : Part × Nat
  seekBlock : Nat
  firstbyte : Nat
  lastbyte : Nat
  nextOff : Nat
  buf : Bytes

section Extent

variable (e : ExtentInfo) (part : Part) (count lastOff : Nat)

/-- The block looked for is the one read last, and the tape is right behind it. -/
def InCache (r : Reader) (curpos : Part × Nat) (seekBlock : Nat) : Prop :=
  e.start.partition = r.lastPos.partition ∧ seekBlock = r.lastPos.block ∧ part = curpos.1 ∧
    word (seekBlock + 1) = curpos.2

instance (r : Reader) (curpos : Part × Nat) (seekBlock : Nat) : Decidable (InCache e part r curpos seekBlock) :=
  inferInstanceAs (Decidable (_ ∧ _))

/-- "Read this block into a temp buffer or return the existing contents" -/
def fetch (blockbytes : Nat) (v : Scan) : Option (Reader × (Part × Nat)) :=
  if InCache e part v.reader v.curpos v.seekBlock then
    if v.reader.lastBlock.length < blockbytes then none else some (v.reader, v.curpos)
  else
    match tapeRead l v.reader with
    | none => none
    | some c =>
      if c.length < blockbytes then none
      else
        some ({ v.reader with
          pos := (v.reader.pos.1, word (v.reader.pos.2 + 1))
          lastPos := ⟨v.seekBlock, e.start.partition⟩
          lastBlock := c }, (v.curpos.1, word (v.curpos.2 + 1)))

/-- One turn of the inner loop -/
def readBlock (v : Scan) : Option Scan :=
  let lastbyte := min (fileoffsetEnd e) (word (v.lastbyte + l.blocksize))
  match fetch l e part (wordSub lastbyte v.firstbyte) v with
  | none => none
  | some (reader, curpos) =>
    let ncopy := wordSub (min lastOff lastbyte) v.nextOff
    some {
      reader := reader
      curpos := curpos
      seekBlock := word (v.seekBlock + 1)
      firstbyte := word (v.firstbyte + l.blocksize)
      lastbyte := lastbyte
      nextOff := word (v.nextOff + ncopy)
      buf := v.buf ++ (reader.lastBlock.drop (wordSub v.nextOff v.firstbyte)).take ncopy }

/-- "Read from the extent until end of extent or output buffer full". There is no result if the loop does not
end within `fuel` turns. -/
def readLoop : Nat → Scan → Option Scan
  | 0, v => if v.nextOff < fileoffsetEnd e ∧ v.buf.length < count then none else some v
  | fuel + 1, v =>
    if v.nextOff < fileoffsetEnd e ∧ v.buf.length < count then (readBlock l e part lastOff v).bind (readLoop fuel)
    else some v

/-- The part of `ltfs_fsraw_read` for an extent with needed data. `curpos` is not set again after a seek. -/
def readExtent (r : Reader) (nextOff : Nat) (buf : Bytes) : Option Scan :=
  match partId2num l e.start.partition with
  | none => none
  | some part =>
    let seekBlock := word (e.start.block + word (wordSub nextOff e.fileoffset + e.byteoffset) / l.blocksize)
    let firstbyte := word (wordSub e.fileoffset e.byteoffset + word (wordSub seekBlock e.start.block * l.blocksize))
    let reader := if r.pos ≠ (part, seekBlock) ∧ ¬ InCache e part r r.pos seekBlock then
      { r with pos := (part, seekBlock) } else r
    readLoop l e part count lastOff count ⟨reader, r.pos, seekBlock, firstbyte, firstbyte, nextOff, buf⟩

end Extent

/-- The loop of `ltfs_fsraw_read` over the extents, and the sparse end of the file. -/
def readExtents (size count lastOff : Nat) : List ExtentInfo → Reader → Nat → Bytes → Option (Bytes × Reader)
  | [], r, nextOff, buf =>
    if buf.length < count ∧ nextOff < size then
      some (buf ++ List.replicate (if lastOff < size then wordSub lastOff nextOff else wordSub size nextOff) 0, r)
    else some (buf, r)
  | e :: es, r, nextOff, buf =>
    if buf.length = count then some (buf, r)
    else if nextOff < e.fileoffset ∧ lastOff < e.fileoffset then
      some (buf ++ List.replicate (wordSub lastOff nextOff) 0, r)
    else
      let gap := if nextOff < e.fileoffset then wordSub e.fileoffset nextOff else 0
      let nextOff := if nextOff < e.fileoffset then e.fileoffset else nextOff
      let buf := buf ++ List.replicate gap 0
      if nextOff < fileoffsetEnd e then
        match readExtent l e count lastOff r nextOff buf with
        | none => none
        | some v => readExtents size count lastOff es v.reader v.nextOff v.buf
      else readExtents size count lastOff es r nextOff buf

/-- `ltfs_fsraw_read` -/
def ltfsFsrawRead (d : Contents) (count offset : Nat) (r : Reader) : Option (Bytes × Reader) :=
  if count = 0 then some ([], r)
  else readExtents l d.size count (word (offset + count)) d.extentlist r offset []

/-- What happens to the drive: a read through the scheduler, or anything else, which moves the tape and may
write behind what is recorded. -/
inductive Event where
  | read (d : Contents) (count offset : Nat)
  | other (pos : Part × Nat) (store : Store) (short : ∀ p, (store.recs.get p).length < 2 ^ 64)

def step (r : Reader) : Event → Reader
  | .read d count offset => ((ltfsFsrawRead l d count offset r).map Prod.snd).getD r
  | .other pos store short => { r with pos := pos, store := store, short := short }

/-- A volume right after the mount; nothing has been read yet. -/
def mounted (store : Store) (short : ∀ p, (store.recs.get p).length < 2 ^ 64) (pos : Part × Nat) : Reader :=
  ⟨store, short, pos, TapeOffset.null, []⟩

/-- A file whose extents are in order, begin inside their first blocks, end within the file, and can be read
back. -/
structure Readable (s : Store) (d : Contents) : Prop where
  sorted : RawRead.Sorted d.extentlist
  byteoffset : ∀ e ∈ d.extentlist, e.byteoffset < l.blocksize
  ends : ∀ e ∈ d.extentlist, e.fileoffsetEnd ≤ d.size
  onTape : ∀ e ∈ d.extentlist, OnTape l s e
  size : d.size < 2 ^ 64

/-- The arguments of a read: the offset is an `off_t`, and the buffer of the caller and that for one block
are in memory. -/
structure Bounds (count offset : Nat) : Prop where
  offset : offset < 2 ^ 63
  count : count + l.blocksize ≤ 2 ^ 63

/-- Reads are of readable files, and nothing recorded below an append position is lost. -/
def Allowed (r : Reader) : Event → Prop
  | .read d count offset => Readable l r.store d ∧ Bounds l count offset
  | .other _ store _ => r.store.Keeps store

end Ltfs.BlockCache
