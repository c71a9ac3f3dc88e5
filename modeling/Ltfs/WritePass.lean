import Ltfs.DataSession
import Ltfs.ExtentAlloc
import Ltfs.Revalidate

namespace Ltfs.WritePass

open Format Records TapeDevice WriteIndex Revalidate RealSize ExtentAlloc

/-- A call of `ltfs_fsraw_write`. Its bytes have positions of type `off_t`. -/
structure Call (ι : Type) where
  file : ι
  part : Part
  buf : Bytes
  offset : Nat
  inRange : offset + buf.length < 2 ^ 63

/-- What a pass of the call meets: the memory, the answers of the drive, and the end of a revalidation that it waits
for or makes itself. -/
structure Attempt where
  mem : Mem
  io : DataIo
  waited : Result
  reval : RevalIo

/-- An extent that was saved to a file, with the partition and the buffer of the call and the commands that its last
pass sent. -/
structure Saved (ι : Type) where
  file : ι
  part : Part
  buf : Bytes
  ext : ExtentInfo
  sent : List Event

/-- The volume and the extents of its files, with all that was saved so far -/
structure State (ι : Type) where
  vol : Volume
  files : ι → File
  saved : List (Saved ι)

inductive Return where
  | ok
  | error (e : Errno)
  | noMemory
  /-- back to `start` -/
  | again

variable {ι : Type} [DecidableEq ι]

/-- The extent that `ltfs_fsraw_write` makes of the start block it was told -/
def tmpext (l : Label) (c : Call ι) (block : Nat) : ExtentInfo :=
  ⟨⟨block, l.id c.part⟩, 0, c.buf.length, c.offset⟩

/-- The part of `ltfs_fsraw_write` behind a successful write: the extent is saved to the file. -/
def saveExtent (c : Call ι) (mem : Mem) (block : Nat) (sent : List Event) (s : State ι) : Return × State ι :=
  let ext := tmpext s.vol.label c block
  let (ret, d) := ltfsFsrawAddExtentUnlocked s.vol.label mem ext (s.files c.file)
  (if ret = 0 then .ok else .noMemory,
    { s with
      files := fun i => if i = c.file then d else s.files i
      saved := if ret = 0 then ⟨c.file, c.part, c.buf, ext, sent⟩ :: s.saved else s.saved })

/-- `ltfs_fsraw_write` from the label `start` on. After a reset or at a fence the lock of the volume is given up, and
what other calls do in between is passes of their own; a call is as many passes as it takes. -/
def ltfsFsrawWrite (c : Call ι) (a : Attempt) (s : State ι) : Return × State ι :=
  if s.vol.reval then (.error .revalFailed, s)
  else
    let (r, block, v) := ltfsFsrawWriteDataUnlocked c.part c.buf 1 a.io s.vol
    match r with
    | .error e =>
      if e = .deviceFenced ∨ e.needReval then
        let (r, v) := if e = .deviceFenced then (a.waited, v) else ltfsRevalidate a.reval v
        match r with
        | .ok _ => (.again, { s with vol := v })
        | .error e => (.error e, { s with vol := v })
      else if e.isUnexpectedMove then (.error e, { s with vol := { v with reval := true } })
      else (.error e, { s with vol := v })
    | .ok _ =>
      saveExtent c a.mem block (v.history.take (v.history.length - s.vol.history.length)) { s with vol := v }

/-- A run: passes one after the other -/
def step (s : State ι) (a : Call ι × Attempt) : State ι := (ltfsFsrawWrite a.1 a.2 s).2

end Ltfs.WritePass
