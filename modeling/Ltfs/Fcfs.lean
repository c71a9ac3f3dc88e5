import Ltfs.Lib.Sparse
import Ltfs.RawRead
import Ltfs.RawWrite
import Mathlib.Data.UInt

namespace Ltfs.Fcfs

open Format RawFile RawSpec RawRead RawWrite Lib.Cells Lib.Sparse

/-- What the scheduler works on: the dentry's contents and the tape below. It keeps nothing of its own. -/
structure File where
  contents : Contents
  tape : Tape

section

variable (l : Label) (dr : Drive)

/-- `fcfs_write` -/
def fcfsWrite (buf : Bytes) (offset : Nat) (file : File) : Option WriteError × File :=
  match ltfsFsrawWrite l dr .dp buf offset file.contents file.tape with
  | (.error e, t) => (some e, { file with tape := t })
  | (.ok d, t) => (none, ⟨d, t⟩)

/-- `fcfs_read` -/
def fcfsRead (size offset : Nat) (file : File) : Option Bytes :=
  ltfsFsrawRead l file.tape.store file.contents size offset

/-- `fcfs_truncate` -/
def fcfsTruncate (length : Nat) (file : File) : File :=
  { file with contents := ltfsFsrawTruncate length file.contents }

/-- `fcfs_flush`; there is nothing to flush. -/
def fcfsFlush (file : File) : File := file

/-- `fcfs_get_filesize` -/
def fcfsGetFilesize (file : File) : Nat := file.contents.size

inductive Op where
  | write (buf : Bytes) (offset : Nat)
  | read (size offset : Nat)
  | truncate (length : Nat)
  | flush
  | filesize
  deriving DecidableEq, Repr

inductive Answer where
  | done
  | failed (e : WriteError)
  | bytes (data : Option Bytes)
  | size (n : Nat)
  deriving DecidableEq, Repr

def step (file : File) : Op → Answer × File
  | .write buf offset =>
    match fcfsWrite l dr buf offset file with
    | (none, file) => (.done, file)
    | (some e, file) => (.failed e, file)
  | .read size offset => (.bytes (fcfsRead l size offset file), file)
  | .truncate length => (.done, fcfsTruncate length file)
  | .flush => (.done, fcfsFlush file)
  | .filesize => (.size (fcfsGetFilesize file), file)

def run : List Op → File → List Answer × File
  | [], file => ([], file)
  | op :: ops, file =>
    let (a, file) := step l dr file op
    let (as, file) := run ops file
    (a :: as, file)

end

/-- What the operations are for. A write that fails leaves no trace; one of no bytes only makes the file as long as
its offset. -/
inductive Does (f : SparseFile UInt8) : Op → Answer → SparseFile UInt8 → Prop
  | write {buf offset} (hne : buf ≠ []) : Does f (.write buf offset) .done (f.write offset buf)
  | writeNothing {offset} : Does f (.write [] offset) .done (f.truncate (max f.size offset))
  | fails {buf offset e} : Does f (.write buf offset) (.failed e) f
  | read {size offset} : Does f (.read size offset) (.bytes (some (f.read offset size))) f
  | truncate {length} : Does f (.truncate length) .done (f.truncate length)
  | flush : Does f .flush .done f
  | filesize : Does f .filesize (.size f.size) f

inductive Runs : SparseFile UInt8 → List Op → List Answer → SparseFile UInt8 → Prop
  | nil {f} : Runs f [] [] f
  | cons {f g h op a ops as} (hop : Does f op a g) (hrest : Runs g ops as h) : Runs f (op :: ops) (a :: as) h

/-- The extents of a file and the blocks that they lie on stand for a sparse file. -/
structure Stands (l : Label) (file : File) (f : SparseFile UInt8) : Prop where
  sound : Sound l file.tape.store file.contents
  size : file.contents.size = f.size
  cells : ∀ x, rawByte l file.tape.store file.contents x = f.cells x

variable {l : Label} {dr : Drive} {file file' : File} {f : SparseFile UInt8}

theorem Stands.read (h : Stands l file f) (size offset : Nat) :
    fcfsRead l size offset file = some (f.read offset size) := by
  have hcells : rawByte l file.tape.store file.contents = f.cells := funext h.cells
  rw [fcfsRead, ltfsFsrawRead_eq h.sound, hcells, h.size]
  rfl

theorem Stands.truncate (h : Stands l file f) (length : Nat) :
    Stands l (fcfsTruncate length file) (f.truncate length) := by
  obtain ⟨hsound, hbytes⟩ := sound_truncate h.sound length
  refine ⟨hsound, rfl, fun x => (hbytes x).trans ?_⟩
  rw [h.cells]
  rfl

theorem Stands.other (h : Stands l file f) {t : Tape} (hk : file.tape.store.Keeps t.store) :
    Stands l { file with tape := t } f :=
  ⟨h.sound.keeps hk, h.size, fun x => (h.sound.rawByte_keeps hk x).trans (h.cells x)⟩

/-- A write that fails may have moved the tape on, but not the file. -/
theorem ltfsFsrawWrite_error {p : Part} {buf : Bytes} {offset : Nat} {e : WriteError} {t : Tape}
    (h : ltfsFsrawWrite l dr p buf offset file.contents file.tape = (.error e, t)) :
    file.tape.store.Keeps t.store := by
  have hkeeps := ltfsFsrawWriteData_keeps l dr p buf file.tape
  unfold ltfsFsrawWrite at h
  cases hdata : ltfsFsrawWriteData l dr p buf file.tape with
  | mk res u =>
    rw [hdata] at h hkeeps
    cases res with
    | error e =>
      obtain ⟨-, rfl⟩ := Prod.mk.inj h
      exact hkeeps
    | ok start => cases (Prod.mk.inj h).1

theorem fcfsWrite_does (buf : Bytes) (offset : Nat) (h : Stands l file f) :
    ∃ g, Does f (.write buf offset) (step l dr file (.write buf offset)).1 g ∧
      Stands l (step l dr file (.write buf offset)).2 g := by
  cases hw : ltfsFsrawWrite l dr .dp buf offset file.contents file.tape with
  | mk res t =>
    cases res with
    | error e =>
      have hstep : step l dr file (.write buf offset) = (.failed e, { file with tape := t }) := by
        simp only [step, fcfsWrite, hw]
      rw [hstep]
      exact ⟨f, .fails, h.other (ltfsFsrawWrite_error hw)⟩
    | ok d =>
      have hstep : step l dr file (.write buf offset) = (.done, ⟨d, t⟩) := by
        simp only [step, fcfsWrite, hw]
      obtain ⟨-, hsound, hsize, hbytes⟩ := ltfsFsrawWrite_ok h.sound hw
      rw [hstep]
      by_cases hne : buf = []
      · subst hne
        refine ⟨f.truncate (max f.size offset), .writeNothing, hsound, ?_, ?_⟩
        · rw [hsize, h.size]
          rfl
        · intro x
          rw [hbytes, cell_nil, h.cells]
          change f.cells x = if x < max f.size offset then f.cells x else 0
          split
          · rfl
          · exact f.blank x (by omega)
      · refine ⟨f.write offset buf, .write hne, hsound, ?_, ?_⟩
        · rw [hsize, h.size]
          exact (if_neg hne).symm
        · intro x
          rw [hbytes, h.cells]
          rfl

theorem step_does (op : Op) (h : Stands l file f) :
    ∃ g, Does f op (step l dr file op).1 g ∧ Stands l (step l dr file op).2 g := by
  cases op with
  | write buf offset => exact fcfsWrite_does buf offset h
  | read size offset =>
    refine ⟨f, ?_, h⟩
    change Does f (.read size offset) (.bytes (fcfsRead l size offset file)) f
    rw [h.read]
    exact .read
  | truncate length => exact ⟨f.truncate length, .truncate, h.truncate length⟩
  | flush => exact ⟨f, .flush, h⟩
  | filesize =>
    refine ⟨f, ?_, h⟩
    change Does f .filesize (.size file.contents.size) f
    rw [h.size]
    exact .filesize

/-- With whatever else goes to the tape between its writes, and whichever of them fail, a file behaves in every run
as the sparse array that its successful operations make. -/
theorem run_does (ops : List Op) (h : Stands l file f) :
    ∃ g, Runs f ops (run l dr ops file).1 g ∧ Stands l (run l dr ops file).2 g := by
  induction ops generalizing file f with
  | nil => exact ⟨f, .nil, h⟩
  | cons op ops ih =>
    obtain ⟨g, hop, hg⟩ := @step_does l dr file f op h
    obtain ⟨e, hrest, he⟩ := ih hg
    exact ⟨e, .cons hop hrest, he⟩

/-- A file without extents, on any tape -/
theorem newFile_stands (l : Label) (t : Tape) : Stands l ⟨⟨[], 0⟩, t⟩ ⟨0, fun _ => 0, fun _ _ => rfl⟩ :=
  ⟨⟨List.Pairwise.nil, List.forall_mem_nil _, List.forall_mem_nil _⟩, rfl, fun _ => rfl⟩

def blocksOfFour : Label := ⟨'a', 'b', 4, Label.a_ne_b, Label.a_ne_nul, Label.b_ne_nul, Label.pos_four⟩

/-- The second write finds no space. -/
def onceFull : Drive :=
  ⟨fun _ s => s, RawFile.keeps_same, fun n _ => if n = 1 then some .noSpace else none, fun _ _ => false⟩

def blankTape : Tape := ⟨⟨⟨[], []⟩, ⟨0, 0⟩, RawFile.blank_le⟩, 0⟩

theorem run_does_onceFull :
    ∃ g, Runs ⟨0, fun _ => 0, fun _ _ => rfl⟩ [.write [1, 2] 1, .write [3] 9, .read 5 0, .truncate 2]
        (run blocksOfFour onceFull [.write [1, 2] 1, .write [3] 9, .read 5 0, .truncate 2] ⟨⟨[], 0⟩, blankTape⟩).1 g ∧
      Stands blocksOfFour
        (run blocksOfFour onceFull [.write [1, 2] 1, .write [3] 9, .read 5 0, .truncate 2] ⟨⟨[], 0⟩, blankTape⟩).2 g :=
  run_does _ (newFile_stands blocksOfFour blankTape)

end Ltfs.Fcfs
