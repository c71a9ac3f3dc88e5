import Mathlib
import Ltfs.LastRef

namespace Ltfs.LostFound

open Format LastRef
open TapeDevice (Errno)

/-- What the drive meets at a position: a filemark, or a record of so many bytes. -/
inductive Block where
  | filemark
  | record (nr : Nat) (pos : 0 < nr)
  deriving Repr

instance : DecidableEq Block
  | .filemark, .filemark => isTrue rfl
  | .filemark, .record _ _ => isFalse Block.noConfusion
  | .record _ _, .filemark => isFalse Block.noConfusion
  | .record nr _, .record nr' _ => decidable_of_iff (nr = nr') (by rw [Block.record.injEq])

/-- A partition with the faults it shows: the answer to the first locate and to the read of each block. -/
structure Partition where
  blocks : List Block
  locate : Option Errno
  fault : Nat → Option Errno
  length_lt : blocks.length < 2 ^ 64

/-- A file as the recovery makes it. -/
structure File where
  name : List Char
  size : Nat
  realsize : Nat
  readonly : Bool
  matchesNameCriteria : Bool
  extentlist : List ExtentInfo
  deriving DecidableEq, Repr

/-- The directory `_ltfs_lostandfound`: the names in it and the files that were added. -/
structure LostDir where
  names : List (List Char)
  files : List File

/-- The medium of `_ltfs_make_lost_found` and the index that was chosen. An end of 0 stands for
"no index on this partition". -/
structure Recovery where
  label : Label
  ipFirst : Bool
  root : Dentry
  parts : Sides Partition
  endofidx : Sides Nat

variable (r : Recovery)

/-- `ltfs_part_id2num` -/
def partId2num : Part → Nat
  | .ip => if r.ipFirst then 0 else 1
  | .dp => if r.ipFirst then 1 else 0

def eod (p : Part) : Nat :=
  (r.parts.get p).blocks.length

/-- `EDEV_OVERRUN` -/
def overrun : Errno :=
  .device 20002

/-- `tape_read` at block `b`, into a buffer of one block -/
def tapeRead (p : Part) (b : Nat) : Except Errno Nat :=
  match (r.parts.get p).blocks[b]? with
  | none => .error .eodDetected
  | some x =>
    match (r.parts.get p).fault b with
    | some e => .error e
    | none =>
      match x with
      | .filemark => .ok 0
      | .record nr _ => if r.label.blocksize < nr then .error overrun else .ok nr

def readable (p : Part) (b : Nat) : Bool :=
  (tapeRead r p b).isOk

/-- The format `partition%u_block%u_%dbytes`, around three numbers. -/
def named (part block nr : List Char) : List Char :=
  ['p', 'a', 'r', 't', 'i', 't', 'i', 'o', 'n'] ++ part ++ '_' :: ['b', 'l', 'o', 'c', 'k'] ++ block ++
    '_' :: (nr ++ ['b', 'y', 't', 'e', 's'])

def fileName (p : Part) (b nr : Nat) : List Char :=
  named (Nat.toDigits 10 (partId2num r p)) (Nat.toDigits 10 b) (Nat.toDigits 10 nr)

def recoveredFile (p : Part) (b nr : Nat) : File where
  name := fileName r p b nr
  size := nr
  realsize := nr
  readonly := true
  matchesNameCriteria := false
  extentlist := [⟨⟨b, r.label.id p⟩, 0, nr, 0⟩]

/-- A record gets a file unless there is one of its name. -/
def addFile (p : Part) (b nr : Nat) (dir : LostDir) : LostDir :=
  if fileName r p b nr ∈ dir.names then dir
  else ⟨fileName r p b nr :: dir.names, dir.files ++ [recoveredFile r p b nr]⟩

/-- The loop of `_ltfs_populate_lost_found`, `n` blocks before the end of data. A failed read ends it
without an error. -/
def scanBlocks (p : Part) : Nat → Nat → LostDir → LostDir
  | 0, _, dir => dir
  | n + 1, b, dir =>
    match tapeRead r p b with
    | .error _ => dir
    | .ok 0 => scanBlocks p n (b + 1) dir
    | .ok (nr + 1) => scanBlocks p n (b + 1) (addFile r p b (nr + 1) dir)

/-- `_ltfs_populate_lost_found` -/
def populateLostFound (p : Part) (partLastref : Nat) (dir : LostDir) : Except Errno LostDir :=
  let block := if 4 < partLastref then partLastref else 4
  match (r.parts.get p).locate with
  | some e => .error e
  | none => .ok (scanBlocks r p (eod r p - block) block dir)

/-- The part of `_ltfs_make_lost_found` for one partition. -/
def makePartition (lastblock : Nat) (p : Part) (dir : LostDir) : Except Errno LostDir :=
  if r.endofidx.get p < eod r p then
    if r.endofidx.get p ≤ lastblock then populateLostFound r p ((lastblock + 1) % 2 ^ 64) dir
    else populateLostFound r p (r.endofidx.get p) dir
  else .ok dir

/-- `_ltfs_make_lost_found`, with the names that are in the directory before -/
def makeLostFound (names : List (List Char)) : Except Errno LostDir :=
  let last := ltfsLastRef r.label r.root ⟨0, 0⟩
  match makePartition r last.ip .ip ⟨names, []⟩ with
  | .error e => .error e
  | .ok dir => makePartition r last.dp .dp dir

/-- A record of `nr` bytes at block `b` that lies behind the label, the end of the index and every block
that the index refers to. -/
def Unreferenced (p : Part) (b nr : Nat) : Prop :=
  (∃ pos, (r.parts.get p).blocks[b]? = some (.record nr pos)) ∧ 4 ≤ b ∧ r.endofidx.get p ≤ b ∧
    ∀ c, Referenced r.label r.root p c → c < b

/-- The extent takes in block `b` of `p`. -/
def Holds (p : Part) (b : Nat) (x : ExtentInfo) : Prop :=
  x.start.partition = r.label.id p ∧ Touches r.label x b

instance (p : Part) (b : Nat) : DecidablePred (Holds r p b) :=
  fun _ => inferInstanceAs (Decidable (_ ∧ _))

/-- One file takes in block `b`, and it does so once: by an extent that starts there and has the whole
record. -/
def RecoveredOnce (files : List File) (p : Part) (b nr : Nat) : Prop :=
  ∃ f x, files.filter (fun f => f.extentlist.any (Holds r p b)) = [f] ∧
    f.extentlist.filter (Holds r p b) = [x] ∧ x.start.block = b ∧ x.byteoffset = 0 ∧ x.bytecount = nr

end Ltfs.LostFound
