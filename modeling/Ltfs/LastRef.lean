import Ltfs.Mount

namespace Ltfs.LastRef

open Format TapeDevice
open Mount (Found extraBlocks)

variable (l : Label)

/-- `ext_lastblock`, in words of 64 bits -/
def extLastblock (x : ExtentInfo) : Nat :=
  ((x.start.block + x.bytecount / l.blocksize) % 2 ^ 64 +
    (if x.bytecount % l.blocksize > 0 then 1 else 0)) % 2 ^ 64

/-- The loop of `_ltfs_check_extents` over the extents of a file. -/
def checkExtentlist (eod : Sides Nat) : List ExtentInfo → Except Errno Unit
  | [] => .ok ()
  | x :: xs =>
    if x.start.block < 4 then .error .indexInvalid
    else if (x.start.partition = l.partidIp ∧ eod.ip ≤ extLastblock l x) ∨
        (x.start.partition = l.partidDp ∧ eod.dp ≤ extLastblock l x) then .error .indexInvalid
    else checkExtentlist eod xs

mutual

/-- `_ltfs_check_extents` -/
def ltfsCheckExtents (eod : Sides Nat) : Dentry → Except Errno Unit
  | .file _ _ c => checkExtentlist l eod c.extentlist
  | .dir _ children => checkChildren eod children

def checkChildren (eod : Sides Nat) : List Dentry → Except Errno Unit
  | [] => .ok ()
  | d :: ds =>
    match ltfsCheckExtents eod d with
    | .error e => .error e
    | .ok _ => checkChildren eod ds

end

/-- The body of the loop of `_ltfs_last_ref` over the extents of a file. -/
def lastRefExtent (s : Sides Nat) (x : ExtentInfo) : Sides Nat :=
  if x.start.partition = l.partidIp ∧ s.ip < extLastblock l x then { s with ip := extLastblock l x }
  else if x.start.partition = l.partidDp ∧ s.dp < extLastblock l x then { s with dp := extLastblock l x }
  else s

mutual

/-- `_ltfs_last_ref` -/
def ltfsLastRef : Dentry → Sides Nat → Sides Nat
  | .file _ _ c, s => c.extentlist.foldl (lastRefExtent l) s
  | .dir _ children, s => lastRefChildren children s

def lastRefChildren : List Dentry → Sides Nat → Sides Nat
  | [], s => s
  | d :: ds, s => lastRefChildren ds (ltfsLastRef d s)

end

/-- What `ltfs_check_medium` knows when it sets the append positions: what it found on each partition,
the ends of data and the root directory of the index it chose. -/
structure Checked where
  found : Sides (Option Found)
  eod : Sides Nat
  root : Dentry

/-- The block before an index, where its filemark is. -/
def beforeIndex (f : Found) : Nat :=
  (f.image.index.selfptr.block + (2 ^ 64 - 1)) % 2 ^ 64

/-- The choice for the index partition when extra blocks are to be erased. -/
def recoverIp (k : Checked) (last : Nat) : Option Nat :=
  match k.found.ip with
  | some f =>
    if f.blocksAfter then
      if f.endPos ≤ last ∧ last < k.eod.ip then some last
      else if last < f.endPos then some (beforeIndex f)
      else none
    else some (beforeIndex f)
  | none => if 4 < k.eod.ip then some 4 else none

/-- The choice for the data partition when extra blocks are to be erased. -/
def recoverDp (k : Checked) (last : Nat) : Option Nat :=
  match k.found.dp with
  | some f =>
    if f.blocksAfter then
      if f.endPos ≤ last ∧ last < k.eod.dp then some last
      else if last < f.endPos then some f.endPos
      else none
    else none
  | none => if 4 < k.eod.dp then some 4 else none

/-- The append positions that `ltfs_check_medium` sets. -/
def appendPositions (deep recoverExtra : Bool) (k : Checked) : Sides (Option Nat) :=
  if deep = true ∧ recoverExtra = false ∧
      (extraBlocks k.found.dp k.eod.dp = true ∨ extraBlocks k.found.ip k.eod.ip = true) then
    let last := ltfsLastRef l k.root ⟨0, 0⟩
    ⟨recoverIp k last.ip, recoverDp k last.dp⟩
  else
    match k.found.ip with
    | some f => ⟨if f.blocksAfter then none else some (beforeIndex f), none⟩
    | none => ⟨none, none⟩

/-- The number of blocks that hold `n` bytes. -/
def blocks (n : Nat) : Nat :=
  (n + l.blocksize - 1) / l.blocksize

/-- One past the last block of an extent. -/
def extentEnd (x : ExtentInfo) : Nat :=
  x.start.block + blocks l (x.byteoffset + x.bytecount)

def Touches (x : ExtentInfo) (b : Nat) : Prop :=
  x.start.block ≤ b ∧ b < extentEnd l x

instance (x : ExtentInfo) (b : Nat) : Decidable (Touches l x b) :=
  inferInstanceAs (Decidable (_ ∧ _))

/-- An extent of `d` on partition `p`. -/
def On (d : Dentry) (p : Part) (x : ExtentInfo) : Prop :=
  x ∈ d.extents ∧ x.start.partition = l.id p

def Referenced (d : Dentry) (p : Part) (b : Nat) : Prop :=
  ∃ x, On l d p x ∧ Touches l x b

theorem blocks_eq (n : Nat) : blocks l n = n / l.blocksize + if n % l.blocksize > 0 then 1 else 0 := by
  have hpos := l.blocksize_pos
  have hn := Nat.div_add_mod n l.blocksize
  have hlt := Nat.mod_lt n hpos
  rw [blocks, Nat.div_eq_iff hpos]
  by_cases h : n % l.blocksize > 0
  · rw [if_pos h, Nat.add_mul, Nat.mul_comm (n / l.blocksize)]
    omega
  · rw [if_neg h, Nat.add_zero, Nat.mul_comm (n / l.blocksize)]
    omega

theorem blocks_mono {m n : Nat} (h : m ≤ n) : blocks l m ≤ blocks l n := by
  apply Nat.div_le_div_right
  omega

theorem extLastblock_eq (x : ExtentInfo) :
    extLastblock l x = (x.start.block + blocks l x.bytecount) % 2 ^ 64 := by
  rw [extLastblock, blocks_eq, Nat.mod_add_mod, Nat.add_assoc]

theorem extLastblock_le (x : ExtentInfo) : extLastblock l x ≤ extentEnd l x := by
  have hm := blocks_mono l (Nat.le_add_left x.bytecount x.byteoffset)
  have hw := Nat.mod_le (x.start.block + blocks l x.bytecount) (2 ^ 64)
  rw [extLastblock_eq, extentEnd]
  omega

end Ltfs.LastRef
