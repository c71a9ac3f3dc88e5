import Ltfs.MountSpec

namespace Ltfs.IndexSearch

open Format Records Revalidate VolumeRun
open Mount (Found)

/-- The errors that a search for an index can end with. `callback` is what a callback function returned. -/
inductive SearchErrno where
  | eodDetected
  | bopDetected
  | indexInvalid
  | unsupportedIndexVersion
  | noIndex
  | callback (code : Int)
  deriving DecidableEq, Repr

/-- `LTFS_INDEX_VERSION_MIN` -/
def indexVersionMin : Nat := 10000

/-- `LTFS_INDEX_VERSION_MAX` -/
def indexVersionMax : Nat := 29999

/-- `tape_spacefm` by `n` filemarks backwards from block `b`: the head stops before the last of them. -/
def spacefmBackward (rs : List Record) : Nat → Nat → Except SearchErrno Nat
  | 0, b => .ok b
  | n + 1, b =>
    match previousFilemark rs b with
    | none => .error .bopDetected
    | some f => spacefmBackward rs n f

/-- `tape_spacefm` by `n` filemarks forwards from block `b`: the head stops behind the last of them. -/
def spacefmForward (rs : List Record) : Nat → Nat → Except SearchErrno Nat
  | 0, b => .ok b
  | n + 1, b =>
    match nextFilemark rs b with
    | none => .error .eodDetected
    | some f => spacefmForward rs n (f + 1)

/-- Where `xml_input_tape_read_callback` has the head when `n` blocks from block `b` were asked for: it
stops at end of data, and a filemark that it has read it backs over. -/
def readBlocks (rs : List Record) : Nat → Nat → Nat
  | 0, b => b
  | n + 1, b => if rs.length ≤ b ∨ rs[b]? = some .filemark then b else readBlocks rs n (b + 1)

/-- A partition that is searched: its records, and how many blocks the XML parser asks for before it
turns down what starts at a block. -/
structure Tape where
  label : Label
  part : Part
  recs : List Record
  wanted : Nat → Nat

namespace Tape

variable (t : Tape)

/-- `xml_schema_from_tape`. The version stands in the top-level tag and is tested first. A document
that ends at end of data without a filemark is read only if the caller gave its position. -/
def xmlSchemaFromTape (eodGiven : Bool) (b : Nat) : Except SearchErrno (Image × Bool) :=
  match t.recs[b]? with
  | some (.index img 0) =>
    if img.index.version < indexVersionMin ∨ indexVersionMax < img.index.version then
      .error .unsupportedIndexVersion
    else
      match Mount.xmlSchemaFromTape t.recs b with
      | none => .error .indexInvalid
      | some (img, fm) =>
        if eodGiven = false ∧ b + img.blocks = t.recs.length then .error .indexInvalid else .ok (img, fm)
  | _ => .error .indexInvalid

/-- `ltfs_read_index` at block `b`, with the tests of the pointers of the mount model -/
def readIndex (eodGiven : Bool) (b : Nat) : Except SearchErrno (Image × Bool) :=
  match t.xmlSchemaFromTape eodGiven b with
  | .error e => .error e
  | .ok _ =>
    match Mount.ltfsReadIndex t.label t.part t.recs b with
    | .error _ => .error .indexInvalid
    | .ok x => .ok x

/-- `ltfs_read_index` and where it leaves the head. -/
def ltfsReadIndex (eodGiven : Bool) (b : Nat) : Except SearchErrno (Image × Bool) × Nat :=
  match t.readIndex eodGiven b with
  | .error e => (.error e, readBlocks t.recs (t.wanted b) b)
  | .ok (img, fm) => (.ok (img, fm), b + img.blocks + (if fm then 1 else 0))

/-- The loop of `ltfs_seek_index` with the head at block `pos`; `none` if `fuel` is not enough. -/
def seekLoop (ignoreWrongVersion : Bool) : Nat → Nat → Option (Except SearchErrno (Option Found))
  | 0, _ => none
  | fuel + 1, pos =>
    if pos = 3 then some (.ok none)
    else
      match spacefmForward t.recs 1 pos with
      | .error e => some (.error e)
      | .ok b =>
        match t.ltfsReadIndex true b with
        | (.ok (img, fm), stop) =>
          if t.label.id t.part ≠ img.index.selfptr.partition then some (.error .indexInvalid)
          else some (.ok (some ⟨img, stop, fm, stop ≠ t.recs.length⟩))
        | (.error e, stop) =>
          if ignoreWrongVersion = false ∧ e = .unsupportedIndexVersion then some (.error e)
          else
            match spacefmBackward t.recs 2 stop with
            | .error e => some (.error e)
            | .ok pos => seekLoop ignoreWrongVersion fuel pos

/-- `ltfs_seek_index` -/
def ltfsSeekIndex (ignoreWrongVersion : Bool) (fuel : Nat) : Option (Except SearchErrno (Option Found)) :=
  let eod := t.recs.length
  if eod ≤ 4 then some (.ok none)
  else
    match spacefmBackward t.recs 1 eod with
    | .error e => some (.error e)
    | .ok pos =>
      if pos = 3 then some (.ok none)
      else if pos = eod - 1 then
        match spacefmBackward t.recs 1 pos with
        | .error e => some (.error e)
        | .ok pos => t.seekLoop ignoreWrongVersion fuel pos
      else t.seekLoop ignoreWrongVersion fuel pos

end Tape

/-- The tape head and `vol->index` while a partition is traversed. An index of a version that is not
supported counts as one of generation `-1`. -/
inductive Loaded where
  | index (img : Image)
  | unsupported (selfptr : TapeOffset)

def Loaded.generation : Loaded → UInt32
  | .index img => img.index.generation
  | .unsupported _ => -1

variable {σ : Type}

structure Traversal (σ : Type) where
  block : Nat
  loaded : Option Loaded
  list : σ

/-- A callback `f_index_found`: what it returns, and what it does to the list it is handed. -/
abbrev IndexFound (σ : Type) := Loaded → UInt32 → σ → Int × σ

namespace Tape

variable (t : Tape)

/-- `tape_locate_next_index` -/
def locateNextIndex (b : Nat) : Except SearchErrno Nat :=
  spacefmForward t.recs 1 b

/-- `tape_locate_previous_index` -/
def locatePreviousIndex (b : Nat) : Except SearchErrno Nat :=
  match spacefmBackward t.recs 4 b with
  | .error e => .error e
  | .ok b => spacefmForward t.recs 1 b

/-- `tape_locate_first_index`. A locate past end of data ends there. -/
def locateFirstIndex : Except SearchErrno Nat :=
  if t.recs.length < 4 then .error .eodDetected else spacefmForward t.recs 1 4

/-- `tape_locate_last_index` -/
def locateLastIndex : Except SearchErrno Nat :=
  match spacefmBackward t.recs 2 t.recs.length with
  | .error e => .error e
  | .ok b => spacefmForward t.recs 1 b

/-- The read at the head of both traversals. -/
def loadIndex (s : Traversal σ) : Except SearchErrno (Traversal σ) :=
  match t.ltfsReadIndex false s.block with
  | (.ok (img, _), stop) => .ok { s with block := stop, loaded := some (.index img) }
  | (.error .unsupportedIndexVersion, stop) =>
    match spacefmForward t.recs 1 stop with
    | .error e => .error e
    | .ok b => .ok { s with block := b, loaded := some (.unsupported ⟨b - 1, t.label.id t.part⟩) }
  | (.error e, _) => .error e

/-- What the callback makes of the index just loaded: `true` if the traversal is to go on. -/
def callBack (func : Option (IndexFound σ)) (gen : UInt32) (s : Traversal σ) :
    Except SearchErrno (Bool × Traversal σ) :=
  match func, s.loaded with
  | some f, some i =>
    let (code, list) := f i gen s.list
    if code < 0 then .error (.callback code) else .ok (decide (code = 0), { s with list := list })
  | _, _ => .ok (true, s)

/-- The index in memory ends a search for `gen` that stops at a generation `stop` accepts. -/
def ends (stop : UInt32 → UInt32 → Bool) (gen : UInt32) (s : Traversal σ) : Bool :=
  match s.loaded with
  | none => false
  | some i => i.generation ≠ -1 ∧ gen ≠ 0 ∧ stop i.generation gen = true

/-- The end of both traversals: whether the index in memory is the one that was asked for. -/
def traversed (gen : UInt32) (s : Traversal σ) : Except SearchErrno (Traversal σ) :=
  if gen ≠ 0 then
    match s.loaded with
    | none => .error .noIndex
    | some i => if i.generation ≠ gen then .error .noIndex else .ok s
  else .ok s

/-- The loop of `ltfs_traverse_index_forward`; `none` if `fuel` is not enough. -/
def forwardLoop (func : Option (IndexFound σ)) (gen : UInt32) (last : Nat) :
    Nat → Traversal σ → Option (Except SearchErrno (Traversal σ))
  | 0, _ => none
  | fuel + 1, s =>
    if last < s.block then some (traversed gen s)
    else
      match t.loadIndex s with
      | .error e => some (.error e)
      | .ok s =>
        match callBack func gen s with
        | .error e => some (.error e)
        | .ok (false, s) => some (.ok s)
        | .ok (true, s) =>
          if ends (fun i g => g ≤ i) gen s then some (traversed gen s)
          else if s.block < last then
            match t.locateNextIndex s.block with
            | .error e => some (.error e)
            | .ok b => forwardLoop func gen last fuel { s with block := b }
          else forwardLoop func gen last fuel s

/-- `ltfs_traverse_index_forward` -/
def ltfsTraverseIndexForward (func : Option (IndexFound σ)) (gen : UInt32) (fuel : Nat) (s : Traversal σ) :
    Option (Except SearchErrno (Traversal σ)) :=
  match t.locateLastIndex with
  | .error e => some (.error e)
  | .ok last =>
    match t.locateFirstIndex with
    | .error e => some (.error e)
    | .ok b => t.forwardLoop func gen last fuel { s with block := b }

/-- The loop of `ltfs_traverse_index_backward`; `none` if `fuel` is not enough. -/
def backwardLoop (func : Option (IndexFound σ)) (gen : UInt32) :
    Nat → Traversal σ → Option (Except SearchErrno (Traversal σ))
  | 0, _ => none
  | fuel + 1, s =>
    if s.block ≤ 4 then some (traversed gen s)
    else
      match t.loadIndex s with
      | .error e => some (.error e)
      | .ok s =>
        match callBack func gen s with
        | .error e => some (.error e)
        | .ok (false, s) => some (.ok s)
        | .ok (true, s) =>
          if ends (fun i g => i ≤ g) gen s then some (traversed gen s)
          else
            match t.locatePreviousIndex s.block with
            | .error e => some (.error e)
            | .ok b => backwardLoop func gen fuel { s with block := b }

/-- `ltfs_traverse_index_backward` -/
def ltfsTraverseIndexBackward (func : Option (IndexFound σ)) (gen : UInt32) (fuel : Nat) (s : Traversal σ) :
    Option (Except SearchErrno (Traversal σ)) :=
  match t.locateLastIndex with
  | .error e => some (.error e)
  | .ok last => t.backwardLoop func gen fuel { s with block := last }

end Tape

end Ltfs.IndexSearch
