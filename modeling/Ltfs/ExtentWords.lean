import Mathlib
import Ltfs.ExtentMap

namespace Ltfs.ExtentWords

open Format Lib.Cells RawFile RawSpec ExtentMap

/-- The value of an expression of type `uint64_t`. -/
def word (n : Nat) : Nat := n % 2 ^ 64

/-- The difference of two values of type `uint64_t`. -/
def wordSub (m n : Nat) : Nat := word (m + 2 ^ 64 - n)

variable (bs : Nat) (e ext : ExtentInfo)

def fileoffsetEnd : Nat := word (e.fileoffset + e.bytecount)

def byteoffsetEnd : Nat := word (e.byteoffset + e.bytecount)

/-- `byteoffset` is a `uint32_t`. -/
def truncateFront (diff : Nat) : ExtentInfo where
  start := { e.start with block := word (e.start.block + word (diff + e.byteoffset) / bs) }
  byteoffset := word (diff + e.byteoffset) % bs % 2 ^ 32
  bytecount := wordSub e.bytecount diff
  fileoffset := word (e.fileoffset + diff)

def truncateEnd (fileoffset : Nat) : ExtentInfo :=
  { e with bytecount := wordSub fileoffset e.fileoffset }

def Adjoins : Prop :=
  ext.fileoffset = fileoffsetEnd e ∧ e.start.partition = ext.start.partition ∧ byteoffsetEnd e % bs = 0 ∧
    word (e.start.block + byteoffsetEnd e / bs) = ext.start.block ∧ ext.byteoffset = 0

instance : Decidable (Adjoins bs e ext) :=
  inferInstanceAs (Decidable (_ ∧ _))

def joinOrInsert (entry ext : ExtentInfo) : List ExtentInfo :=
  if Adjoins bs entry ext then [{ entry with bytecount := word (entry.bytecount + ext.bytecount) }] else [entry, ext]

/-- The walk of `_ltfs_fsraw_add_extent_unlocked` in the arithmetic of the code. -/
def addExtentWalk : List ExtentInfo → List ExtentInfo → List ExtentInfo
  | [], passed => ext :: passed
  | entry :: before, passed =>
    if ext.fileoffset ≤ entry.fileoffset ∧ entry.fileoffset < fileoffsetEnd ext then
      if fileoffsetEnd entry ≤ fileoffsetEnd ext then
        addExtentWalk before passed
      else
        addExtentWalk before (truncateFront bs entry (wordSub (fileoffsetEnd ext) entry.fileoffset) :: passed)
    else if entry.fileoffset < ext.fileoffset ∧ ext.fileoffset < fileoffsetEnd entry then
      if fileoffsetEnd entry ≤ fileoffsetEnd ext then
        before.reverse ++ (joinOrInsert bs (truncateEnd entry ext.fileoffset) ext ++ passed)
      else
        before.reverse ++ (joinOrInsert bs (truncateEnd entry ext.fileoffset) ext ++
          truncateFront bs entry (wordSub (fileoffsetEnd ext) entry.fileoffset) :: passed)
    else if fileoffsetEnd entry ≤ ext.fileoffset then
      before.reverse ++ (joinOrInsert bs entry ext ++ passed)
    else
      addExtentWalk before (entry :: passed)

/-- `_ltfs_fsraw_add_extent_unlocked` -/
def ltfsFsrawAddExtent (l : Label) (ext : ExtentInfo) (d : Contents) : Contents where
  extentlist := addExtentWalk l.blocksize ext d.extentlist.reverse []
  size := max d.size (fileoffsetEnd ext)

/-- The positions of the bytes of an extent, in the file, in its blocks and on tape, are 64-bit numbers. -/
structure Fits (bs : Nat) (e : ExtentInfo) : Prop where
  file : e.fileoffset + e.bytecount < 2 ^ 64
  bytes : e.byteoffset + e.bytecount < 2 ^ 64
  blocks : e.start.block + (e.byteoffset + e.bytecount) / bs < 2 ^ 64

variable {bs e ext} {before passed : List ExtentInfo}

theorem word_of_lt {n : Nat} (h : n < 2 ^ 64) : word n = n := Nat.mod_eq_of_lt h

theorem wordSub_of_le {m n : Nat} (h : n ≤ m) (hm : m < 2 ^ 64) : wordSub m n = m - n := by
  rw [wordSub, word]
  omega

theorem fileoffsetEnd_eq (h : e.fileoffsetEnd < 2 ^ 64) : fileoffsetEnd e = e.fileoffsetEnd := word_of_lt h

theorem truncateFront_eq (hbs : 0 < bs) (hbs' : bs < 2 ^ 32) (he : Fits bs e) {diff : Nat} (hd : diff ≤ e.bytecount) :
    truncateFront bs e diff = e.truncateFront bs diff := by
  have hfile := he.file
  have hbytes := he.bytes
  have hblocks : e.start.block + (diff + e.byteoffset) / bs < 2 ^ 64 := by
    refine Nat.lt_of_le_of_lt (Nat.add_le_add_left (Nat.div_le_div_right ?_) _) he.blocks
    omega
  have hmod : (diff + e.byteoffset) % bs < 2 ^ 32 := Nat.lt_trans (Nat.mod_lt _ hbs) hbs'
  simp only [truncateFront, ExtentInfo.truncateFront]
  rw [word_of_lt (n := diff + e.byteoffset) (by omega), word_of_lt hblocks, Nat.mod_eq_of_lt hmod,
    wordSub_of_le hd (by omega), word_of_lt (by omega)]

theorem truncateEnd_eq {cut : Nat} (hcut : e.fileoffset ≤ cut) (hlt : cut < 2 ^ 64) :
    truncateEnd e cut = e.truncateEnd cut := by
  rw [truncateEnd, wordSub_of_le hcut hlt, ExtentInfo.truncateEnd]

theorem Fits.truncateEnd (h : Fits bs e) {cut : Nat} (hcut : cut ≤ e.fileoffsetEnd) :
    Fits bs (e.truncateEnd cut) := by
  have hle : cut - e.fileoffset ≤ e.bytecount := by
    rw [ExtentInfo.fileoffsetEnd] at hcut
    omega
  have hfile := h.file
  have hbytes := h.bytes
  refine ⟨?_, ?_, ?_⟩
  · simp only [ExtentInfo.truncateEnd]
    omega
  · simp only [ExtentInfo.truncateEnd]
    omega
  · refine Nat.lt_of_le_of_lt (Nat.add_le_add_left (Nat.div_le_div_right ?_) _) h.blocks
    simp only [ExtentInfo.truncateEnd]
    omega

theorem adjoins_iff (h : Fits bs e) : Adjoins bs e ext ↔ e.Adjoins bs ext := by
  rw [Adjoins, fileoffsetEnd, byteoffsetEnd, word_of_lt h.file, word_of_lt h.bytes, word_of_lt h.blocks]
  rfl

theorem joinOrInsert_eq (h : Fits bs e) (hext : ext.fileoffsetEnd < 2 ^ 64) :
    joinOrInsert bs e ext = RawFile.joinOrInsert bs e ext := by
  rw [joinOrInsert, RawFile.joinOrInsert]
  by_cases hadj : e.Adjoins bs ext
  · rw [if_pos hadj, if_pos ((adjoins_iff h).2 hadj), ExtentInfo.grow]
    have hf : ext.fileoffset = e.fileoffset + e.bytecount := hadj.1
    rw [ExtentInfo.fileoffsetEnd] at hext
    rw [word_of_lt (by omega)]
  · rw [if_neg hadj, if_neg (mt (adjoins_iff h).1 hadj)]

/-- Without overflow the walk is the walk over unbounded numbers. -/
theorem addExtentWalk_eq (hbs : 0 < bs) (hbs' : bs < 2 ^ 32) (hext : ext.fileoffsetEnd < 2 ^ 64)
    (before passed : List ExtentInfo) (h : ∀ f ∈ before, Fits bs f) :
    addExtentWalk bs ext before passed = RawFile.addExtentWalk bs ext before passed := by
  induction before generalizing passed with
  | nil => rfl
  | cons e before ih =>
    have he : Fits bs e := h e (by simp)
    have hfile : e.fileoffsetEnd < 2 ^ 64 := he.file
    have hbefore : ∀ f ∈ before, Fits bs f := fun f hf => h f (List.mem_cons_of_mem _ hf)
    have hend : e.fileoffset + e.bytecount = e.fileoffsetEnd := rfl
    have hexts : ext.fileoffset ≤ ext.fileoffsetEnd := Nat.le_add_right _ _
    rw [addExtentWalk, RawFile.addExtentWalk, fileoffsetEnd_eq hext, fileoffsetEnd_eq hfile]
    split_ifs with h₁ h₂ h₃ h₄ h₅
    · exact ih passed hbefore
    · rw [wordSub_of_le (by omega) hext, truncateFront_eq hbs hbs' he (by omega)]
      exact ih _ hbefore
    · rw [truncateEnd_eq (by omega) (by omega), joinOrInsert_eq (he.truncateEnd (by omega)) hext]
    · rw [truncateEnd_eq (by omega) (by omega), joinOrInsert_eq (he.truncateEnd (by omega)) hext,
        wordSub_of_le (by omega) hext, truncateFront_eq hbs hbs' he (by omega)]
    · rw [joinOrInsert_eq he hext]
    · exact ih (e :: passed) hbefore

/-- An extent list in file order without overlaps. -/
structure WellFormed (bs : Nat) (es : List ExtentInfo) : Prop where
  sorted : es.Pairwise fun a b => a.fileoffset ≤ b.fileoffset
  disjoint : es.Pairwise fun a b =>
    Disjoint (Set.Ico a.fileoffset a.fileoffsetEnd) (Set.Ico b.fileoffset b.fileoffsetEnd)
  positive : ∀ e ∈ es, 0 < e.bytecount
  fits : ∀ e ∈ es, Fits bs e

theorem WellFormed.inOrder {es : List ExtentInfo} (h : WellFormed bs es) : InOrder es := by
  have hboth := h.sorted.and h.disjoint
  refine hboth.imp_of_mem ?_
  rintro a b - hb ⟨hle, hdisjoint⟩
  by_contra hlt
  have hpos := h.positive b hb
  -- the first byte of `b` would be in both
  have hin : b.fileoffset ∈ Set.Ico a.fileoffset a.fileoffsetEnd := ⟨hle, Nat.not_le.1 hlt⟩
  refine Set.disjoint_left.1 hdisjoint hin ⟨Nat.le_refl _, ?_⟩
  rw [ExtentInfo.fileoffsetEnd]
  omega

/-- Where byte `x` of the file is on tape. -/
def position (l : Label) (d : Contents) (x : Nat) : Option (Char × Nat × Nat) :=
  overlay (place l.blocksize) d.extentlist x

/-- The file has the new extent where that extent is, and is as before everywhere else. -/
theorem position_addExtent (l : Label) (hl : l.blocksize < 2 ^ 32) (d : Contents)
    (hd : WellFormed l.blocksize d.extentlist) (ext : ExtentInfo) (hpos : 0 < ext.bytecount)
    (hext : ext.fileoffset + ext.bytecount < 2 ^ 64) (x : Nat) :
    position l (ltfsFsrawAddExtent l ext d) x =
      if ext.fileoffset ≤ x ∧ x < ext.fileoffset + ext.bytecount then
        some (ext.start.partition, blockOf l.blocksize ext x, innerOf l.blocksize ext x)
      else position l d x := by
  have hfits : ∀ e ∈ d.extentlist.reverse, Fits l.blocksize e := fun e he => hd.fits e (List.mem_reverse.1 he)
  have hord : InOrder d.extentlist.reverse.reverse := by
    rw [List.reverse_reverse]
    exact hd.inOrder
  rw [position, ltfsFsrawAddExtent, addExtentWalk_eq l.blocksize_pos hl hext _ _ hfits,
    overlay_addExtentWalk l.blocksize_pos _ _ hord, List.reverse_reverse, List.append_nil, place]
  split_ifs with hin hin' hin'
  · rfl
  · exact absurd hin hin'
  · exact absurd hin' hin
  · rfl

/-- A file of ten bytes that begins inside a block. -/
def tenBytes : Contents := ⟨[⟨⟨5, 'b'⟩, 1, 10, 0⟩], 10⟩

theorem tenBytes_wellFormed : WellFormed 4 tenBytes.extentlist where
  sorted := List.pairwise_singleton _ _
  disjoint := List.pairwise_singleton _ _
  positive := by decide
  fits := by
    rintro e he
    obtain rfl := List.mem_singleton.1 he
    exact ⟨by decide, by decide, by decide⟩

/-- Three bytes in the middle are replaced, and the last ones are still where they were. -/
theorem position_addExtent_tenBytes :
    let l : Label := ⟨'a', 'b', 4, Label.a_ne_b, Label.a_ne_nul, Label.b_ne_nul, Label.pos_four⟩
    WellFormed l.blocksize tenBytes.extentlist ∧
      position l (ltfsFsrawAddExtent l ⟨⟨20, 'b'⟩, 0, 3, 4⟩ tenBytes) 8 = some ('b', 7, 1) :=
  ⟨tenBytes_wellFormed, position_addExtent _ (by decide) tenBytes tenBytes_wellFormed ⟨⟨20, 'b'⟩, 0, 3, 4⟩ (by decide)
    (by decide) 8⟩

end Ltfs.ExtentWords
