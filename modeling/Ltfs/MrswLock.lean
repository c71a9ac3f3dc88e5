import Mathlib.Data.List.Basic
import Mathlib.Logic.Function.Basic
import Mathlib.Algebra.Order.Ring.Nat

namespace Ltfs.MrswLock

/-- `MultiReaderSingleWriter`: three mutexes, each set while some thread has it locked, a 32-bit count and two
flags. -/
structure Mrsw where
  writeExclusiveMutex : Bool
  readingMutex : Bool
  readCountMutex : Bool
  readCount : Nat
  writer : Bool
  longLock : Bool
deriving DecidableEq

def initMrsw : Mrsw := ⟨false, false, false, 0, false, false⟩

inductive Mode
  | read
  | write
deriving DecidableEq

/-- The statement a thread executes next. `idle`, `reading` and `writing` are outside the functions: no lock is
held, a read lock is held, a write lock is held. -/
inductive Pc
  | idle
  | reading
  | writing
  -- acquireread_mrsw up to read_count_mutex
  | gateLock
  | gateLong
  | gateUnlock
  -- acquireread_mrsw_short up to the unlock of write_exclusive_mutex
  | shortTest
  | shortTry
  | shortAgain
  -- how a reader is counted; `down` in writetoread_mrsw, which has write_exclusive_mutex locked meanwhile
  | countLock (down : Bool)
  | countUp (down : Bool)
  | countTest (down : Bool)
  | countRead (down : Bool)
  | countUnlock (down : Bool)
  -- releaseread_mrsw
  | leaveLock
  | leaveDown
  | leaveTest
  | leaveRead
  | leaveUnlock
  -- acquirewrite_mrsw and acquirewrite_mrsw_long
  | exclusiveLock (long : Bool)
  | readingLock (long : Bool)
  | writerSet (long : Bool)
  | longSet (long : Bool)
  -- try_acquirewrite_mrsw
  | tryExclusive
  | tryReading
  | tryUndo
  | tryWriter
  -- release_mrsw; the code does not see the mode
  | releaseTest (mode : Mode)
  -- releasewrite_mrsw
  | writerClear
  | longClear
  | readingUnlock
  | exclusiveUnlock
  -- writetoread_mrsw around the counting
  | downWriter
  | downLong
  | downReading
  | downExclusive
deriving DecidableEq

inductive Call
  | acquireread
  | acquirereadShort
  | acquirewrite
  | acquirewriteLong
  | tryAcquirewrite
  | releaseread
  | releasewrite
  | release
  | writetoread
deriving DecidableEq

/-- The first statement of a call. Calls come in matching pairs: what is released is what is held. -/
def start : Pc → Call → Option Pc
  | .idle, .acquireread => some .gateLock
  | .idle, .acquirereadShort => some .shortTest
  | .idle, .acquirewrite => some (.exclusiveLock false)
  | .idle, .acquirewriteLong => some (.exclusiveLock true)
  | .idle, .tryAcquirewrite => some .tryExclusive
  | .reading, .releaseread => some .leaveLock
  | .reading, .release => some (.releaseTest .read)
  | .writing, .releasewrite => some .writerClear
  | .writing, .release => some (.releaseTest .write)
  | .writing, .writetoread => some .downWriter
  | _, _ => none

/-- One statement. There is none while the mutex it locks is locked. -/
def advance (m : Mrsw) : Pc → Option (Mrsw × Pc)
  | .idle | .reading | .writing => none
  | .gateLock => if m.writeExclusiveMutex then none else some ({ m with writeExclusiveMutex := true }, .gateLong)
  | .gateLong => some ({ m with longLock := false }, .gateUnlock)
  | .gateUnlock => some ({ m with writeExclusiveMutex := false }, .countLock false)
  | .shortTest => if m.longLock then some (m, .idle) else some (m, .shortTry)
  | .shortTry =>
    if m.writeExclusiveMutex then some (m, .shortAgain)
    else some ({ m with writeExclusiveMutex := true }, .gateUnlock)
  | .shortAgain => if m.longLock then some (m, .idle) else some (m, .shortTry)
  | .countLock down => if m.readCountMutex then none else some ({ m with readCountMutex := true }, .countUp down)
  | .countUp down => some ({ m with readCount := (m.readCount + 1) % 2 ^ 32 }, .countTest down)
  | .countTest down => if m.readCount = 1 then some (m, .countRead down) else some (m, .countUnlock down)
  | .countRead down => if m.readingMutex then none else some ({ m with readingMutex := true }, .countUnlock down)
  | .countUnlock true => some ({ m with readCountMutex := false }, .downExclusive)
  | .countUnlock false => some ({ m with readCountMutex := false }, .reading)
  | .leaveLock => if m.readCountMutex then none else some ({ m with readCountMutex := true }, .leaveDown)
  | .leaveDown =>
    -- a count of zero is an error of the caller; it is reported and nothing is unlocked
    if m.readCount ≤ 0 then some ({ m with readCount := 0 }, .leaveUnlock)
    else some ({ m with readCount := m.readCount - 1 }, .leaveTest)
  | .leaveTest => if m.readCount = 0 then some (m, .leaveRead) else some (m, .leaveUnlock)
  | .leaveRead => some ({ m with readingMutex := false }, .leaveUnlock)
  | .leaveUnlock => some ({ m with readCountMutex := false }, .idle)
  | .exclusiveLock long =>
    if m.writeExclusiveMutex then none else some ({ m with writeExclusiveMutex := true }, .readingLock long)
  | .readingLock long => if m.readingMutex then none else some ({ m with readingMutex := true }, .writerSet long)
  | .writerSet long => some ({ m with writer := true }, .longSet long)
  | .longSet long => some ({ m with longLock := long }, .writing)
  | .tryExclusive =>
    if m.writeExclusiveMutex then some (m, .idle) else some ({ m with writeExclusiveMutex := true }, .tryReading)
  | .tryReading => if m.readingMutex then some (m, .tryUndo) else some ({ m with readingMutex := true }, .tryWriter)
  | .tryUndo => some ({ m with writeExclusiveMutex := false }, .idle)
  | .tryWriter => some ({ m with writer := true }, .writing)
  | .releaseTest _ => if m.writer then some (m, .writerClear) else some (m, .leaveLock)
  | .writerClear => some ({ m with writer := false }, .longClear)
  | .longClear => some ({ m with longLock := false }, .readingUnlock)
  | .readingUnlock => some ({ m with readingMutex := false }, .exclusiveUnlock)
  | .exclusiveUnlock => some ({ m with writeExclusiveMutex := false }, .idle)
  | .downWriter => some ({ m with writer := false }, .downLong)
  | .downLong => some ({ m with longLock := false }, .downReading)
  | .downReading => some ({ m with readingMutex := false }, .countLock true)
  | .downExclusive => some ({ m with writeExclusiveMutex := false }, .reading)

/-- The lock and the threads that use it. -/
structure State (ι : Type) where
  mrsw : Mrsw
  pc : ι → Pc

variable {ι : Type}

/-- No thread has called anything yet. -/
def initial : State ι := ⟨initMrsw, fun _ => .idle⟩

/-- A thread makes a call, or executes the next statement of the one it is in. -/
inductive Act
  | call (c : Call)
  | go
deriving DecidableEq

variable [DecidableEq ι]

def step (s : State ι) : ι × Act → Option (State ι)
  | (i, .call c) => (start (s.pc i) c).map (fun p => { s with pc := Function.update s.pc i p })
  | (i, .go) => (advance s.mrsw (s.pc i)).map (fun r => ⟨r.1, Function.update s.pc i r.2⟩)

/-- The threads' steps in the order they are taken. -/
def run (s : State ι) (as : List (ι × Act)) : Option (State ι) :=
  as.foldlM step s

end Ltfs.MrswLock
