import Ltfs.Format
import Ltfs.Lib.Log

namespace Ltfs.Records

open Format Lib.Log

/-- The document an index write puts on tape: the index as it was handed to the XML writer and the
number of blocks the document takes. -/
structure Image where
  index : Index
  blocks : Nat
  blocks_pos : 0 < blocks
  deriving DecidableEq, Repr

/-- A block of a partition. `index img k` is block `k` of a document; `fragment` is what the output
buffer held when the writer gave up in the middle of one. -/
inductive Record where
  | label
  | filemark
  | data (b : Bytes)
  | index (img : Image) (k : Nat)
  | fragment
  deriving DecidableEq, Repr

def Image.records (img : Image) : List Record :=
  (List.range img.blocks).map (Record.index img)

/-- A complete index construct: filemark, index, filemark. -/
def construct (img : Image) : List Record :=
  .filemark :: (img.records ++ [.filemark])

/-- A complete index construct whose first index block is `b`. -/
def IndexAt (rs : List Record) (b : Nat) (img : Image) : Prop :=
  ∃ c, b = c + 1 ∧ Holds rs c (construct img)

def EndsInIndex (rs : List Record) (img : Image) : Prop :=
  construct img <:+ rs

instance (rs : List Record) (img : Image) : Decidable (EndsInIndex rs img) :=
  inferInstanceAs (Decidable (construct img <:+ rs))

/-- `struct tc_coherency`. The volume uuid is the same everywhere and is not kept. -/
structure Coherency where
  volumeChangeRef : Nat
  count : Nat
  setId : Nat
  version : Nat
  deriving DecidableEq, Repr

/-- A cartridge: the two record sequences, the two coherency attributes and the volume change
reference. The reference is a counter that every recorded block moves on. -/
structure Medium where
  recs : Sides (List Record)
  coh : Sides Coherency
  vcr : Nat
  deriving DecidableEq, Repr

namespace Medium

def write (m : Medium) (p : Part) (b : Nat) (r : Record) : Medium :=
  { m with recs := m.recs.set p (overwrite (m.recs.get p) b [r]), vcr := m.vcr + 1 }

def setCoherency (m : Medium) (p : Part) (c : Coherency) : Medium :=
  { m with coh := m.coh.set p c }

variable (m : Medium) (p : Part) (b : Nat) (r : Record) (c : Coherency)

@[simp] theorem write_recs : (m.write p b r).recs = m.recs.set p (overwrite (m.recs.get p) b [r]) := rfl

@[simp] theorem write_coh : (m.write p b r).coh = m.coh := rfl

@[simp] theorem write_vcr : (m.write p b r).vcr = m.vcr + 1 := rfl

@[simp] theorem setCoherency_recs : (m.setCoherency p c).recs = m.recs := rfl

@[simp] theorem setCoherency_coh : (m.setCoherency p c).coh = m.coh.set p c := rfl

@[simp] theorem setCoherency_vcr : (m.setCoherency p c).vcr = m.vcr := rfl

theorem eq_of {m m' : Medium} (hr : m.recs = m'.recs) (hc : ∀ q, m.coh.get q = m'.coh.get q)
    (hv : m.vcr = m'.vcr) : m = m' := by
  obtain ⟨r, c, k⟩ := m
  obtain ⟨r', c', k'⟩ := m'
  obtain rfl : c = c' := Sides.ext_get hc
  obtain rfl : r = r' := hr
  obtain rfl : k = k' := hv
  rfl

end Medium

@[simp] theorem records_length (img : Image) : img.records.length = img.blocks := by
  simp [Image.records]

@[simp] theorem construct_length (img : Image) : (construct img).length = img.blocks + 2 := by
  simp [construct]

theorem records_take_succ (img : Image) {k : Nat} (hk : k < img.blocks) :
    img.records.take (k + 1) = img.records.take k ++ [.index img k] := by
  rw [List.take_add_one]
  simp [Image.records, hk]

theorem records_take_blocks (img : Image) : img.records.take img.blocks = img.records :=
  List.take_of_length_le (by simp)

theorem EndsInIndex.indexAt {rs : List Record} {img : Image} (h : EndsInIndex rs img) :
    IndexAt rs (rs.length - img.blocks - 1) img := by
  obtain ⟨pre, rfl⟩ := h
  refine ⟨pre.length, by simp; omega, ?_⟩
  simpa using holds_append_mid pre (construct img) []

/-- The block before the closing filemark is the last one of the document. -/
theorem EndsInIndex.penultimate {rs : List Record} {img : Image} (h : EndsInIndex rs img) :
    rs.dropLast.getLast? = some (.index img (img.blocks - 1)) := by
  obtain ⟨pre, rfl⟩ := h
  have hpos := img.blocks_pos
  have hrec : img.records = img.records.take (img.blocks - 1) ++ [.index img (img.blocks - 1)] := by
    rw [← records_take_succ img (by omega), Nat.sub_add_cancel hpos, records_take_blocks]
  unfold construct
  rw [hrec, ← List.cons_append, ← List.append_assoc, List.dropLast_concat, ← List.cons_append,
    ← List.append_assoc, List.getLast?_concat]

theorem IndexAt.overwrite {rs : List Record} {b c : Nat} {img : Image} (h : IndexAt rs b img)
    (hc : b + img.blocks + 1 ≤ c) (ws : List Record) : IndexAt (overwrite rs c ws) b img := by
  obtain ⟨a, rfl, h⟩ := h
  exact ⟨a, rfl, h.overwrite (by simp; omega) ws⟩

theorem IndexAt.append {rs : List Record} {b : Nat} {img : Image} (h : IndexAt rs b img)
    (ws : List Record) : IndexAt (rs ++ ws) b img := by
  obtain ⟨a, rfl, h⟩ := h
  exact ⟨a, rfl, h.append ws⟩

theorem IndexAt.length_le {rs : List Record} {b : Nat} {img : Image} (h : IndexAt rs b img) :
    b + img.blocks + 1 ≤ rs.length := by
  obtain ⟨a, rfl, h⟩ := h
  have := h.length_le
  simp at this
  omega

end Ltfs.Records
