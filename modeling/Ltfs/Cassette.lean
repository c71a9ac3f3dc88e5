import Ltfs.FileDrive
import Ltfs.Lib.Log
import Ltfs.Lib.Marks

namespace Ltfs.Cassette

open Format FileDrive Lib

/-- What stands at a block. -/
inductive Cell where
  | mark
  | data (content : Bytes)

def Cell.isMark : Cell → Bool
  | .mark => true
  | .data _ => false

/-- A cassette with two partitions in a drive. Behind the last cell of a partition is its end of data. -/
structure Reel where
  cells : Fin 2 → List Cell
  part : Fin 2
  block : Nat
  block_le : block ≤ (cells part).length

theorem Reel.ext {t u : Reel} (hcells : t.cells = u.cells) (hpart : t.part = u.part) (hblock : t.block = u.block) :
    t = u := by
  obtain ⟨cells, part, block, hle⟩ := t
  obtain rfl : cells = u.cells := hcells
  obtain rfl : part = u.part := hpart
  obtain rfl : block = u.block := hblock
  rfl

/-- What an application asks of a drive. -/
inductive Command where
  | write (content : Bytes)
  | writefm (count : Nat)
  | read (count : Nat)
  | rewind
  | locate (part block : Nat)
  | space (count : Nat) (back : Bool)
  | spaceEod
  | reload
  deriving DecidableEq, Repr

abbrev Answer := Except Edev Bytes

/-- `struct tc_position` without the warnings -/
structure Position where
  part : Fin 2
  block : Nat
  filemarks : Nat
  deriving DecidableEq, Repr

/-- The most blocks that a command adds to a partition. -/
def Command.blocks : Command → Nat
  | .write _ => 1
  | .writefm count => count
  | _ => 0

/-- The commands that record something. -/
def Command.writes : Command → Bool
  | .write _ | .writefm _ => true
  | _ => false

namespace Reel

variable (t : Reel)

def here : List Cell := t.cells t.part

/-- The head is moved to a block, to the end of data if the partition is shorter. -/
def moveTo (p : Fin 2) (b : Nat) : Reel :=
  { t with part := p, block := min b (t.cells p).length, block_le := Nat.min_le_right _ _ }

/-- Cells are recorded one after the other; what stood behind the first of them is lost. -/
def put (cs : List Cell) : Reel :=
  { t with
    cells := Function.update t.cells t.part (Log.record t.here t.block cs)
    block := t.block + cs.length
    block_le := by
      rw [Function.update_self]
      exact Log.length_record t.block_le }

def position : Position := ⟨t.part, t.block, Marks.marks Cell.isMark t.here t.block⟩

section Put

variable (cs ds : List Cell) (c : Cell)

theorem block_le_here : t.block ≤ t.here.length := t.block_le

theorem put_here : (t.put cs).here = Log.record t.here t.block cs := Function.update_self _ _ _

theorem put_nil : t.put [] = t :=
  ext (Function.update_eq_self t.part t.cells) rfl rfl

theorem put_put : (t.put cs).put ds = t.put (cs ++ ds) := by
  have hcells : ((t.put cs).put ds).cells = (t.put (cs ++ ds)).cells := by
    have hrec : Log.record (Log.record t.here t.block cs) (t.block + cs.length) ds =
        Log.record t.here t.block (cs ++ ds) := Log.record_record t.block_le_here ds
    change Function.update (Function.update t.cells t.part _) t.part
      (Log.record (t.put cs).here (t.block + cs.length) ds) = Function.update t.cells t.part _
    rw [put_here, hrec, Function.update_idem]
  have hblock : ((t.put cs).put ds).block = (t.put (cs ++ ds)).block := by
    change t.block + cs.length + ds.length = t.block + (cs ++ ds).length
    rw [List.length_append, Nat.add_assoc]
  exact ext hcells rfl hblock

theorem length_put : (t.put cs).here.length ≤ t.here.length + cs.length := by
  rw [put_here]
  cases cs with
  | nil => exact Nat.le_add_right _ _
  | cons c cs =>
    have hlen : (Log.overwrite t.here t.block (c :: cs)).length = t.block + (c :: cs).length :=
      Log.overwrite_length t.block_le_here
    exact Nat.le_trans (Nat.le_of_eq hlen) (Nat.add_le_add_right t.block_le_here _)

theorem marks_put :
    Marks.marks Cell.isMark (t.put [c]).here (t.block + 1) =
      Marks.marks Cell.isMark t.here t.block + if c.isMark then 1 else 0 := by
  have hput : (t.put [c]).here = t.here.take t.block ++ [c] := t.put_here [c]
  have hlen : (t.here.take t.block).length = t.block := by simp [t.block_le_here]
  unfold Marks.marks
  rw [hput, List.take_of_length_le (by simp [hlen]), List.countP_append, List.countP_singleton]

end Put

/-- What a cassette answers to a command, and how it is left. The greatest block is what the drive takes. At
block 0 a search backwards for filemarks sees also a filemark that stands there. -/
inductive Does (greatest : Nat) : Reel → Command → Answer → Reel → Prop
  | writeNothing {t : Reel} : Does greatest t (.write []) (.ok []) t
  | tooLarge {t : Reel} {content : Bytes} (h : greatest < content.length) :
    Does greatest t (.write content) (.error .invalidArg) t
  | write {t : Reel} {content : Bytes} (hne : content ≠ []) (h : content.length ≤ greatest) :
    Does greatest t (.write content) (.ok []) (t.put [.data content])
  | writefm {t : Reel} (count : Nat) : Does greatest t (.writefm count) (.ok []) (t.put (List.replicate count .mark))
  | readEod {t : Reel} (count : Nat) (h : t.block = t.here.length) :
    Does greatest t (.read count) (.error .eodDetected) t
  | readMark {t : Reel} (count : Nat) (h : t.here[t.block]? = some .mark) :
    Does greatest t (.read count) (.ok []) (t.moveTo t.part (t.block + 1))
  | readData {t : Reel} {content : Bytes} (count : Nat) (h : t.here[t.block]? = some (.data content)) :
    Does greatest t (.read count) (.ok (content.take count)) (t.moveTo t.part (t.block + 1))
  | rewind {t : Reel} : Does greatest t .rewind (.ok []) (t.moveTo t.part 0)
  | locate {t : Reel} (p : Fin 2) (b : Nat) : Does greatest t (.locate p b) (.ok []) (t.moveTo p b)
  | noPartition {t : Reel} {p : Nat} (b : Nat) (h : 2 ≤ p) : Does greatest t (.locate p b) (.error .invalidArg) t
  | spaceNone {t : Reel} (back : Bool) : Does greatest t (.space 0 back) (.ok []) t
  | spaceForward {t : Reel} {n k : Nat} (hn : 0 < n) (h : Marks.Behind Cell.isMark t.here t.block n k) :
    Does greatest t (.space n false) (.ok []) (t.moveTo t.part k)
  | spaceEnds {t : Reel} {n : Nat} (h : t.here.countP Cell.isMark < Marks.marks Cell.isMark t.here t.block + n) :
    Does greatest t (.space n false) (.error .eodDetected) (t.moveTo t.part t.here.length)
  | spaceBack {t : Reel} {n k : Nat} (hn : 0 < n) (h : Marks.InFront Cell.isMark t.here (max 1 t.block) n k) :
    Does greatest t (.space n true) (.ok []) (t.moveTo t.part k)
  | spaceStarts {t : Reel} {n : Nat} (h : Marks.marks Cell.isMark t.here (max 1 t.block) < n) :
    Does greatest t (.space n true) (.error .bopDetected) (t.moveTo t.part 0)
  | spaceEod {t : Reel} : Does greatest t .spaceEod (.ok []) (t.moveTo t.part t.here.length)
  | reload {t : Reel} : Does greatest t .reload (.ok []) (t.moveTo part0 0)

/-- A sequence of commands, with the answer to each and the position behind it. -/
inductive Runs (greatest : Nat) : Reel → List Command → List (Answer × Position) → Reel → Prop
  | nil {t : Reel} : Runs greatest t [] [] t
  | cons {t u v : Reel} {x : Command} {xs : List Command} {a : Answer} {as : List (Answer × Position)}
    (h : Does greatest t x a u) (hs : Runs greatest u xs as v) :
    Runs greatest t (x :: xs) ((a, u.position) :: as) v

end Reel

end Ltfs.Cassette
