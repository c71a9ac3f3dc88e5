import Ltfs.Records

namespace Ltfs.TapeDevice

open Format Lib.Log Records

/-- The error codes the modelled functions tell apart or produce. `device` stands for the other
`EDEV_` codes of a drive. -/
inductive Errno where
  | porOrBusReset
  | mediumMayBeChanged
  | mediumRemovalReq
  | eodDetected
  | bopDetected
  | device (code : Nat)
  | writeProtect
  | writeError
  | noSpace
  | lessSpace
  | largeBlocksize
  | badLocate
  | badArg
  | xmlWriter
  | deviceFenced
  | revalFailed
  | indexInvalid
  | inconsistent
  | noIndex
  deriving DecidableEq, Repr

/-- `NEED_REVAL` -/
def Errno.needReval : Errno → Bool
  | .porOrBusReset | .mediumMayBeChanged => true
  | _ => false

/-- `IS_UNEXPECTED_MOVE` -/
def Errno.isUnexpectedMove : Errno → Bool
  | .mediumRemovalReq => true
  | _ => false

abbrev Result := Except Errno Unit

/-- What the drive says to one command. A command that fails leaves the medium as it was. -/
inductive Answer where
  | good (earlyWarning programmableEarlyWarning : Bool)
  | fail (e : Errno)
  deriving DecidableEq, Repr

def Answer.isGood : Answer → Bool
  | .good _ _ => true
  | .fail _ => false

/-- A power-on reset or a possible medium change. -/
def Answer.resets : Answer → Bool
  | .good _ _ => false
  | .fail e => e.needReval

inductive Space where
  | writable
  | lessSpace
  | noSpace
  deriving DecidableEq, Repr

/-- `struct device_data`. An append position of 0 means "at end of data". -/
structure Device where
  part : Part
  block : Nat
  appendPos : Sides Nat
  partitionSpace : Sides Space
  writeProtect : Bool
  writeError : Bool
  appendOnlyMode : Bool
  fence : Bool
  maxBlockSize : Nat
  deriving DecidableEq, Repr

structure Tape where
  dev : Device
  medium : Medium
  deriving DecidableEq, Repr

/-- Where `locate` is sent: a block, or `TAPE_BLOCK_MAX`. -/
inductive Target where
  | block (b : Nat)
  | eod
  deriving DecidableEq, Repr

namespace Tape

def recs (t : Tape) (p : Part) : List Record :=
  t.medium.recs.get p

/-- The warning flags of a position returned by the drive, as `tape_seek` records them. -/
def noteWarnings (t : Tape) (early prog : Bool) : Tape :=
  let p := t.dev.part
  let s := if early then .noSpace else t.dev.partitionSpace.get p
  let s := if s ≠ .noSpace ∧ prog then .lessSpace else s
  { t with dev := { t.dev with partitionSpace := t.dev.partitionSpace.set p s } }

/-- The warning flags after a write, which replace the recorded space. -/
def noteSpace (t : Tape) (early prog : Bool) : Tape :=
  let p := t.dev.part
  if early then
    { t with dev := { t.dev with partitionSpace := t.dev.partitionSpace.set p .noSpace } }
  else if prog then
    { t with dev := { t.dev with partitionSpace := t.dev.partitionSpace.set p .lessSpace } }
  else t

def setAppendPosition (t : Tape) (p : Part) (b : Nat) : Tape :=
  { t with dev := { t.dev with appendPos := t.dev.appendPos.set p b } }

/-- `tape_read_only` -/
def readOnly (t : Tape) (p : Part) : Result :=
  if t.dev.writeProtect then .error .writeProtect
  else if t.dev.writeError then .error .writeError
  else
    match t.dev.partitionSpace.get p with
    | .writable => .ok ()
    | .lessSpace => .error .lessSpace
    | .noSpace => .error .noSpace

/-- The `locate` command of the drive: a target past the recorded data ends at end of data. -/
def locate (t : Tape) (p : Part) (target : Target) : Tape :=
  let eod := (t.recs p).length
  let b := match target with
    | .block b => min b eod
    | .eod => eod
  { t with dev := { t.dev with part := p, block := b } }

/-- `tape_seek` -/
def seek (t : Tape) (p : Part) (target : Target) (a : Answer) : Result × Tape :=
  if t.dev.part = p ∧ target = .block t.dev.block then (.ok (), t)
  else
    match a with
    | .fail e => (.error e, t)
    | .good early prog =>
      let t := (t.locate p target).noteWarnings early prog
      match target with
      | .eod => (.ok (), t)
      | .block b => if b = t.dev.block then (.ok (), t) else (.error .badLocate, t)

/-- `tape_seek_eod` -/
def seekEod (t : Tape) (p : Part) (a : Answer) : Result × Tape :=
  match a with
  | .fail e => (.error e, t)
  | .good early prog =>
    let t := (t.locate p .eod).noteWarnings early prog
    (.ok (), t.setAppendPosition p t.dev.block)

def appendTarget (t : Tape) (p : Part) : Target :=
  if t.dev.appendPos.get p = 0 then .eod else .block (t.dev.appendPos.get p)

/-- Record the current block as the append position if there is none. -/
def noteAppendPosition (t : Tape) (p : Part) : Tape :=
  if t.dev.appendPos.get p = 0 then t.setAppendPosition p t.dev.block else t

/-- `allow_overwrite`, which only a drive in append-only mode is sent -/
def allowOverwrite (t : Tape) (unlockWrite : Bool) (target : Target) (a : Answer) : Result :=
  if unlockWrite ∧ t.dev.appendOnlyMode ∧ target ≠ .eod then
    match a with
    | .good _ _ => .ok ()
    | .fail e => .error e
  else .ok ()

/-- `tape_seek_append_position` -/
def seekAppendPosition (t : Tape) (p : Part) (unlockWrite : Bool) (a allow : Answer) :
    Result × Tape :=
  match t.seek p (t.appendTarget p) a with
  | (.error e, s) => (.error e, s)
  | (.ok _, s) => (s.allowOverwrite unlockWrite (t.appendTarget p) allow, s.noteAppendPosition p)

/-- The checks `tape_write` and `tape_write_filemark` share. -/
def writeCheck (t : Tape) (ignoreLess ignoreNospc : Bool) : Result :=
  if t.dev.writeProtect then .error .writeProtect
  else if t.dev.writeError then .error .writeError
  else if t.dev.partitionSpace.get t.dev.part = .noSpace ∧ ¬ ignoreNospc then .error .noSpace
  else if t.dev.partitionSpace.get t.dev.part = .lessSpace ∧ ¬ ignoreLess then .error .lessSpace
  else .ok ()

def noteWriteError (t : Tape) (e : Errno) : Tape :=
  if e.needReval then t else { t with dev := { t.dev with writeError := true } }

/-- A warning turns the return code into an error unless the caller asked to ignore it. -/
def warningResult (early prog ignoreLess ignoreNospc : Bool) : Result :=
  if early then (if ignoreNospc then .ok () else .error .noSpace)
  else if prog then (if ignoreLess then .ok () else .error .lessSpace)
  else .ok ()

/-- The drive records `r` at the current block and moves behind it. -/
def record (t : Tape) (r : Record) : Tape :=
  { t with
    medium := t.medium.write t.dev.part t.dev.block r
    dev := { t.dev with block := t.dev.block + 1 } }

def recordFilemarks (t : Tape) : Nat → Tape
  | 0 => t
  | n + 1 => (t.recordFilemarks n).record .filemark

/-- `tape_write` of `count` bytes, which the drive stores as the record `r` -/
def write (t : Tape) (r : Record) (count : Nat) (ignoreLess ignoreNospc : Bool) (a : Answer) :
    Result × Tape :=
  match t.writeCheck ignoreLess ignoreNospc with
  | .error e => (.error e, t)
  | .ok _ =>
    if t.dev.maxBlockSize < count then (.error .largeBlocksize, t)
    else
      match a with
      | .fail e => (.error e, t.noteWriteError e)
      | .good early prog =>
        let t := (t.record r).noteSpace early prog
        (warningResult early prog ignoreLess ignoreNospc, t.setAppendPosition t.dev.part t.dev.block)

/-- `tape_write_filemark`. Zero filemarks only flush the drive's buffer. -/
def writeFilemark (t : Tape) (count : Nat) (ignoreLess ignoreNospc : Bool) (a : Answer) :
    Result × Tape :=
  match t.writeCheck ignoreLess ignoreNospc with
  | .error e => (.error e, t)
  | .ok _ =>
    match a with
    | .fail e => (.error e, t.noteWriteError e)
    | .good early prog =>
      let t := (t.recordFilemarks count).noteSpace early prog
      (warningResult early prog ignoreLess ignoreNospc, t.setAppendPosition t.dev.part t.dev.block)

/-- `tape_get_volume_change_reference`. After a failure the value is the unusable `UINT64_MAX`. -/
def volumeChangeReference (t : Tape) (a : Answer) : Option Nat :=
  match a with
  | .fail _ => none
  | .good _ _ => some t.medium.vcr

/-- `tape_set_cart_coherency` -/
def setCartCoherency (t : Tape) (p : Part) (c : Coherency) (a : Answer) : Result × Tape :=
  match a with
  | .fail e => (.error e, t)
  | .good _ _ => (.ok (), { t with medium := t.medium.setCoherency p c })

end Tape

end Ltfs.TapeDevice
