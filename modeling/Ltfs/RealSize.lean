import Ltfs.ExtentOrder
import Ltfs.ExtentWords

namespace Ltfs.RealSize

open Format Lib.Cells RawSpec ExtentMap ExtentOrder ExtentWords
open RawFile (Contents truncateExtents)

/-- The contents of a dentry with `d->realsize`. -/
structure File extends Contents where
  realsize : Nat
  deriving DecidableEq, Repr

/-- The walk of `_ltfs_fsraw_add_extent_unlocked` with `realsize_new`, in the arithmetic of the code. -/
def addExtentLoop (bs : Nat) (ext : ExtentInfo) :
    List ExtentInfo → List ExtentInfo → Nat → List ExtentInfo × Nat
  | [], passed, realsize => (ext :: passed, word (realsize + ext.bytecount))
  | entry :: before, passed, realsize =>
    if ext.fileoffset ≤ entry.fileoffset ∧ entry.fileoffset < fileoffsetEnd ext then
      if fileoffsetEnd entry ≤ fileoffsetEnd ext then
        addExtentLoop bs ext before passed (wordSub realsize entry.bytecount)
      else
        let diff := wordSub (fileoffsetEnd ext) entry.fileoffset
        addExtentLoop bs ext before (truncateFront bs entry diff :: passed) (wordSub realsize diff)
    else if entry.fileoffset < ext.fileoffset ∧ ext.fileoffset < fileoffsetEnd entry then
      if fileoffsetEnd entry ≤ fileoffsetEnd ext then
        (before.reverse ++ (joinOrInsert bs (truncateEnd entry ext.fileoffset) ext ++ passed),
          word (wordSub realsize (wordSub (fileoffsetEnd entry) ext.fileoffset) + ext.bytecount))
      else
        (before.reverse ++ (joinOrInsert bs (truncateEnd entry ext.fileoffset) ext ++
          truncateFront bs entry (wordSub (fileoffsetEnd ext) entry.fileoffset) :: passed),
          word (wordSub realsize ext.bytecount + ext.bytecount))
    else if fileoffsetEnd entry ≤ ext.fileoffset then
      (before.reverse ++ (joinOrInsert bs entry ext ++ passed), word (realsize + ext.bytecount))
    else
      addExtentLoop bs ext before (entry :: passed) realsize

/-- `_ltfs_fsraw_add_extent_unlocked` -/
def ltfsFsrawAddExtent (l : Label) (ext : ExtentInfo) (d : File) : File :=
  let (extentlist, realsize) := addExtentLoop l.blocksize ext d.extentlist.reverse [] d.realsize
  { extentlist := extentlist, size := max d.size (fileoffsetEnd ext), realsize := realsize }

/-- The reverse walk of `ltfs_fsraw_truncate` with `new_realsize`. -/
def truncateLoop (length : Nat) : List ExtentInfo → Nat → List ExtentInfo × Nat
  | [], realsize => ([], realsize)
  | e :: before, realsize =>
    if length ≤ e.fileoffset ∨ length = 0 then
      truncateLoop length before (wordSub realsize e.bytecount)
    else if length < fileoffsetEnd e then
      let (es, realsize) := truncateLoop length before (wordSub realsize (wordSub (fileoffsetEnd e) length))
      (es ++ [truncateEnd e length], realsize)
    else
      ((e :: before).reverse, realsize)

/-- `ltfs_fsraw_truncate` -/
def ltfsFsrawTruncate (length : Nat) (d : File) : File :=
  let (extentlist, realsize) :=
    if length < d.size then truncateLoop length d.extentlist.reverse d.realsize else (d.extentlist, d.realsize)
  { extentlist := extentlist, size := length, realsize := realsize }

/-- The sum of the byte counts. -/
def total (es : List ExtentInfo) : Nat :=
  (es.map ExtentInfo.bytecount).sum

/-- An extent that is not empty and starts in its first block, with positions that `off_t` and 64-bit
block numbers can hold. -/
structure Proper (bs : Nat) (e : ExtentInfo) : Prop where
  positive : 0 < e.bytecount
  byteoffset : e.byteoffset < bs
  file : e.fileoffset + e.bytecount < 2 ^ 63
  blocks : e.start.block + (e.byteoffset + e.bytecount) / bs < 2 ^ 64

/-- The invariant of a file's extent list. -/
structure Consistent (l : Label) (d : File) : Prop where
  sorted : d.extentlist.Pairwise fun a b => a.fileoffset ≤ b.fileoffset
  disjoint : d.extentlist.Pairwise fun a b =>
    Disjoint (Set.Ico a.fileoffset a.fileoffsetEnd) (Set.Ico b.fileoffset b.fileoffsetEnd)
  proper : ∀ e ∈ d.extentlist, Proper l.blocksize e
  realsize : d.realsize = total d.extentlist
  size : ∀ e ∈ d.extentlist, e.fileoffsetEnd ≤ d.size

variable {bs x : Nat} {e ext : ExtentInfo} {es : List ExtentInfo} {l : Label} {d : File}

theorem Proper.fits (h : Proper bs e) (hbs : bs < 2 ^ 32) : Fits bs e := by
  have hfile := h.file
  have hbyte := h.byteoffset
  exact ⟨by omega, by omega, h.blocks⟩

theorem Consistent.wellFormed (h : Consistent l d) (hl : l.blocksize < 2 ^ 32) :
    WellFormed l.blocksize d.extentlist :=
  ⟨h.sorted, h.disjoint, fun e he => (h.proper e he).positive, fun e he => (h.proper e he).fits hl⟩

/-- Extents one behind the other are sorted and disjoint. -/
theorem sorted_disjoint_of_inOrder (h : InOrder es) :
    (es.Pairwise fun a b => a.fileoffset ≤ b.fileoffset) ∧
      es.Pairwise fun a b =>
        Disjoint (Set.Ico a.fileoffset a.fileoffsetEnd) (Set.Ico b.fileoffset b.fileoffsetEnd) := by
  constructor
  · exact h.imp fun hab => Nat.le_trans (Nat.le_add_right _ _) hab
  · exact h.imp fun hab => Set.disjoint_left.2 fun x ha hb => Nat.not_lt.2 (Nat.le_trans hab hb.1) ha.2

@[simp] theorem total_nil : total [] = 0 := rfl

@[simp] theorem total_cons : total (e :: es) = e.bytecount + total es := by
  simp [total]

@[simp] theorem total_append (es fs : List ExtentInfo) : total (es ++ fs) = total es + total fs := by
  simp [total]

@[simp] theorem total_reverse (es : List ExtentInfo) : total es.reverse = total es := by
  simp [total, List.sum_reverse]

theorem total_joinOrInsert : total (RawFile.joinOrInsert bs e ext) = e.bytecount + ext.bytecount := by
  rw [RawFile.joinOrInsert]
  split_ifs
  · simp [ExtentInfo.grow]
  · simp

/-- The extents of a list in order fit below its last end. -/
theorem total_le {n : Nat} (h : InOrder es) (hn : ∀ e ∈ es, e.fileoffsetEnd ≤ n) : total es ≤ n := by
  have hgen : ∀ a, a ≤ n → (∀ e ∈ es, a ≤ e.fileoffset) → a + total es ≤ n := by
    intro a ha hstart
    induction es generalizing a with
    | nil => exact ha
    | cons e es ih =>
      obtain ⟨hnext, hrest⟩ := inOrder_cons.1 h
      obtain ⟨hen, hes⟩ := List.forall_mem_cons.1 hn
      have hae := hstart e (by simp)
      have := ih hrest hes e.fileoffsetEnd hen hnext
      rw [total_cons]
      simp only [ExtentInfo.fileoffsetEnd] at this
      omega
  simpa using hgen 0 (Nat.zero_le n) fun e _ => Nat.zero_le _

theorem wordSub_word {a b : Nat} (h : b ≤ a) (hb : b ≤ 2 ^ 64) : wordSub (word a) b = word (a - b) := by
  simp only [wordSub, word]
  omega

theorem word_add_word (a b : Nat) : word (word a + b) = word (a + b) := by
  simp only [word]
  omega

/-- Without overflow of a position the walk is the one over unbounded numbers, and `realsize_new` follows
the byte counts of what has been passed and what is still to come. -/
theorem addExtentLoop_eq (hbs : 0 < bs) (hbs' : bs < 2 ^ 32) (hext : ext.fileoffsetEnd < 2 ^ 64)
    (before passed : List ExtentInfo) (h : ∀ f ∈ before, Fits bs f) :
    addExtentLoop bs ext before passed (word (total before + total passed)) =
      (RawFile.addExtentWalk bs ext before passed,
        word (total (RawFile.addExtentWalk bs ext before passed))) := by
  induction before generalizing passed with
  | nil =>
    rw [addExtentLoop, RawFile.addExtentWalk, word_add_word]
    simp [Nat.add_comm]
  | cons e before ih =>
    obtain ⟨he, hbefore⟩ := List.forall_mem_cons.1 h
    have hfile : e.fileoffsetEnd < 2 ^ 64 := he.file
    have hend : e.fileoffset + e.bytecount = e.fileoffsetEnd := rfl
    have hexts : ext.fileoffset + ext.bytecount = ext.fileoffsetEnd := rfl
    rw [addExtentLoop, RawFile.addExtentWalk, fileoffsetEnd_eq hext, fileoffsetEnd_eq hfile, total_cons]
    split_ifs with h₁ h₂ h₃ h₄ h₅
    · rw [wordSub_word (by omega) (by omega), show e.bytecount + total before + total passed - e.bytecount =
        total before + total passed by omega]
      exact ih passed hbefore
    · have hdiff : wordSub ext.fileoffsetEnd e.fileoffset = ext.fileoffsetEnd - e.fileoffset :=
        wordSub_of_le (by omega) hext
      have hcount : (e.truncateFront bs (ext.fileoffsetEnd - e.fileoffset)).bytecount =
          e.bytecount - (ext.fileoffsetEnd - e.fileoffset) := rfl
      simp only [hdiff]
      rw [truncateFront_eq hbs hbs' he (by omega), wordSub_word (by omega) (by omega), ← ih _ hbefore, total_cons]
      congr 2
      omega
    · rw [truncateEnd_eq (by omega) (by omega), joinOrInsert_eq (he.truncateEnd (by omega)) hext,
        wordSub_of_le (m := e.fileoffsetEnd) (by omega) hfile, wordSub_word (by omega) (by omega), word_add_word]
      simp only [total_append, total_reverse, total_joinOrInsert, ExtentInfo.truncateEnd]
      congr 2
      omega
    · rw [truncateEnd_eq (by omega) (by omega), joinOrInsert_eq (he.truncateEnd (by omega)) hext,
        wordSub_of_le (m := ext.fileoffsetEnd) (by omega) hext, truncateFront_eq hbs hbs' he (by omega),
        wordSub_word (by omega) (by omega), word_add_word]
      simp only [total_append, total_reverse, total_joinOrInsert, total_cons, ExtentInfo.truncateEnd,
        ExtentInfo.truncateFront]
      congr 2
      omega
    · rw [joinOrInsert_eq he hext, word_add_word]
      simp only [total_append, total_reverse, total_joinOrInsert]
      congr 2
      omega
    · rw [← ih _ hbefore, total_cons]
      congr 2
      omega

theorem truncateLoop_eq (length : Nat) (es : List ExtentInfo) (h : ∀ e ∈ es, e.fileoffsetEnd < 2 ^ 64) (k : Nat) :
    truncateLoop length es (word (total es + k)) =
      (truncateExtents length es, word (total (truncateExtents length es) + k)) := by
  induction es generalizing k with
  | nil => rfl
  | cons e before ih =>
    obtain ⟨hfile, hbefore⟩ := List.forall_mem_cons.1 h
    have hend : e.fileoffset + e.bytecount = e.fileoffsetEnd := rfl
    rw [truncateLoop, truncateExtents, fileoffsetEnd_eq hfile, total_cons]
    split_ifs with hpast hcut
    · rw [wordSub_word (by omega) (by omega), show e.bytecount + total before + k - e.bytecount =
        total before + k by omega]
      exact ih hbefore k
    · have hless : wordSub (word (e.bytecount + total before + k)) (wordSub e.fileoffsetEnd length) =
          word (total before + ((e.truncateEnd length).bytecount + k)) := by
        rw [wordSub_of_le (by omega) hfile, wordSub_word (by omega) (by omega)]
        simp only [ExtentInfo.truncateEnd]
        congr 1
        omega
      simp only [hless, ih hbefore]
      rw [truncateEnd_eq (by omega) (by omega)]
      simp only [total_append, total_cons, total_nil]
      congr 2
      omega
    · simp only [total_reverse, total_cons]

theorem Proper.truncateEnd {cut : Nat} (h : Proper bs e) (hs : e.fileoffset < cut) (hc : cut < e.fileoffsetEnd) :
    Proper bs (e.truncateEnd cut) := by
  have hfile := h.file
  rw [ExtentInfo.fileoffsetEnd] at hc
  refine ⟨?_, h.byteoffset, ?_, ?_⟩
  · simp only [ExtentInfo.truncateEnd]
    omega
  · simp only [ExtentInfo.truncateEnd]
    omega
  · refine Nat.lt_of_le_of_lt (Nat.add_le_add_left (Nat.div_le_div_right ?_) _) h.blocks
    simp only [ExtentInfo.truncateEnd]
    omega

theorem stable_proper (hbs : 0 < bs) (hext : Proper bs ext) : Stable bs ext (Proper bs) where
  front e diff he hd := by
    have hfile := he.file
    -- the blocks that are skipped and the rest are together the blocks of the whole
    have hsplit : (e.byteoffset + e.bytecount) / bs =
        (diff + e.byteoffset) / bs + ((diff + e.byteoffset) % bs + (e.bytecount - diff)) / bs := by
      have hsum : e.byteoffset + e.bytecount =
          (diff + e.byteoffset) % bs + (e.bytecount - diff) + bs * ((diff + e.byteoffset) / bs) := by
        have := Nat.mod_add_div (diff + e.byteoffset) bs
        omega
      rw [hsum, Nat.add_mul_div_left _ _ hbs, Nat.add_comm]
    have hblocks := he.blocks
    rw [hsplit, ← Nat.add_assoc] at hblocks
    refine ⟨?_, Nat.mod_lt _ hbs, ?_, hblocks⟩
    · simp only [ExtentInfo.truncateFront]
      omega
    · simp only [ExtentInfo.truncateFront]
      omega
  back e cut he hs hc := he.truncateEnd hs hc
  grow e he hadj := by
    obtain ⟨hf, -, hm, hblock, hzero⟩ := hadj
    have hfile := hext.file
    have hpos := he.positive
    simp only [ExtentInfo.fileoffsetEnd, ExtentInfo.byteoffsetEnd] at hf hm hblock
    have hsplit : (e.byteoffset + (e.bytecount + ext.bytecount)) / bs =
        (e.byteoffset + e.bytecount) / bs + ext.bytecount / bs := by
      obtain ⟨q, hq⟩ := Nat.dvd_of_mod_eq_zero hm
      rw [← Nat.add_assoc, hq, Nat.mul_add_div hbs, Nat.mul_div_cancel_left q hbs]
    have hblocks := hext.blocks
    rw [hzero, Nat.zero_add, ← hblock, Nat.add_assoc, ← hsplit] at hblocks
    refine ⟨?_, he.byteoffset, ?_, hblocks⟩
    · simp only [ExtentInfo.grow]
      omega
    · simp only [ExtentInfo.grow]
      omega
  new := hext

theorem Consistent.inOrder (h : Consistent l d) (hl : l.blocksize < 2 ^ 32) : InOrder d.extentlist :=
  (h.wellFormed hl).inOrder

theorem word_total (h : InOrder es) (hp : ∀ e ∈ es, Proper bs e) : word (total es) = total es := by
  have hle := total_le h (fun e he => Nat.le_of_lt (hp e he).file)
  exact word_of_lt (by omega)

/-- On a consistent file the walk is the one over unbounded numbers. -/
theorem Consistent.addExtentLoop (hl : l.blocksize < 2 ^ 32) (h : Consistent l d) (hext : Proper l.blocksize ext) :
    addExtentLoop l.blocksize ext d.extentlist.reverse [] d.realsize =
      (RawFile.addExtentWalk l.blocksize ext d.extentlist.reverse [],
        word (total (RawFile.addExtentWalk l.blocksize ext d.extentlist.reverse []))) := by
  have hfile : ext.fileoffsetEnd < 2 ^ 64 := Nat.lt_trans hext.file (by decide)
  have hproper : ∀ e ∈ d.extentlist.reverse, Proper l.blocksize e := fun e he => h.proper e (List.mem_reverse.1 he)
  have hloop := addExtentLoop_eq l.blocksize_pos hl hfile d.extentlist.reverse []
    fun e he => (hproper e he).fits hl
  have hreal : d.realsize = word (total d.extentlist.reverse + total []) := by
    rw [h.realsize, total_reverse, total_nil, Nat.add_zero, word_total (h.inOrder hl) h.proper]
  rwa [← hreal] at hloop

/-- Adding an extent. -/
theorem consistent_addExtent (hl : l.blocksize < 2 ^ 32) (h : Consistent l d) (hext : Proper l.blocksize ext) :
    Consistent l (ltfsFsrawAddExtent l ext d) := by
  have hord := h.inOrder hl
  have hfile : ext.fileoffsetEnd < 2 ^ 64 := Nat.lt_trans hext.file (by decide)
  have hproper : ∀ e ∈ d.extentlist.reverse, Proper l.blocksize e := fun e he => h.proper e (List.mem_reverse.1 he)
  have hloop := h.addExtentLoop hl hext
  have hord' : InOrder (RawFile.addExtentWalk l.blocksize ext d.extentlist.reverse []) :=
    addExtentWalk_inOrder _ [] (by simpa using hord) (by simp)
  have hproper' := addExtentWalk_forall (stable_proper l.blocksize_pos hext) d.extentlist.reverse [] hproper
    (by simp)
  obtain ⟨hs, hdis⟩ := sorted_disjoint_of_inOrder hord'
  simp only [ltfsFsrawAddExtent, hloop, fileoffsetEnd_eq hfile]
  refine ⟨hs, hdis, hproper', word_total hord' hproper', ?_⟩
  refine addExtentWalk_forall (stable_end l.blocksize (Nat.le_max_right _ _)) _ [] (fun e he => ?_) (by simp)
  exact Nat.le_trans (h.size e (List.mem_reverse.1 he)) (Nat.le_max_left _ _)

/-- Truncating. -/
theorem consistent_truncate (hl : l.blocksize < 2 ^ 32) (h : Consistent l d) (length : Nat) :
    Consistent l (ltfsFsrawTruncate length d) ∧
      ∀ x, position l (ltfsFsrawTruncate length d).toContents x =
        if x < length then position l d.toContents x else none := by
  have hord := h.inOrder hl
  by_cases hlen : length < d.size
  · have hrev : InOrder d.extentlist.reverse.reverse := by simpa using hord
    have hproper : ∀ e ∈ d.extentlist.reverse, Proper l.blocksize e :=
      fun e he => h.proper e (List.mem_reverse.1 he)
    have hloop := truncateLoop_eq length d.extentlist.reverse
      (fun e he => Nat.lt_trans (hproper e he).file (by decide)) 0
    have hreal : d.realsize = word (total d.extentlist.reverse + 0) := by
      rw [h.realsize, total_reverse, Nat.add_zero, word_total hord h.proper]
    rw [← hreal] at hloop
    have hord' := truncateExtents_inOrder length d.extentlist.reverse hrev
    have hproper' : ∀ e ∈ truncateExtents length d.extentlist.reverse, Proper l.blocksize e :=
      truncateExtents_forall _ hproper fun e he => he.truncateEnd
    obtain ⟨hs, hdis⟩ := sorted_disjoint_of_inOrder hord'
    simp only [ltfsFsrawTruncate, if_pos hlen, hloop, Nat.add_zero]
    refine ⟨⟨hs, hdis, hproper', word_total hord' hproper', truncateExtents_le length _ hrev⟩, fun x => ?_⟩
    rw [position, position, overlay_truncateExtents length _ hrev, List.reverse_reverse]
  · simp only [ltfsFsrawTruncate, if_neg hlen]
    have hle : ∀ e ∈ d.extentlist, e.fileoffsetEnd ≤ length := fun e he =>
      Nat.le_trans (h.size e he) (Nat.not_lt.1 hlen)
    refine ⟨⟨h.sorted, h.disjoint, h.proper, h.realsize, hle⟩, fun x => ?_⟩
    rw [position, position]
    split_ifs with hx
    · rfl
    · exact overlay_eq_none fun e he => place_of_ge (Nat.le_trans (hle e he) (Nat.not_lt.1 hx))

/-- Both operations keep the extent list consistent, and truncating keeps the mapping below the new
length and empties it from there on. -/
theorem consistent_operations (l : Label) (hl : l.blocksize < 2 ^ 32) (d : File) (h : Consistent l d) :
    (∀ ext, Proper l.blocksize ext → Consistent l (ltfsFsrawAddExtent l ext d)) ∧
    ∀ length, Consistent l (ltfsFsrawTruncate length d) ∧
      ∀ x, position l (ltfsFsrawTruncate length d).toContents x =
        if x < length then position l d.toContents x else none :=
  ⟨fun _ hext => consistent_addExtent hl h hext, consistent_truncate hl h⟩

/-- A file of ten bytes that begins inside a block. -/
def tenBytesFile : File := { tenBytes with realsize := 10 }

/-- A partition with blocks of four bytes. -/
def fourBytes : Label :=
  ⟨'a', 'b', 4, Label.a_ne_b, Label.a_ne_nul, Label.b_ne_nul, Label.pos_four⟩

theorem tenBytesFile_consistent : Consistent fourBytes tenBytesFile where
  sorted := List.pairwise_singleton _ _
  disjoint := List.pairwise_singleton _ _
  proper := by
    rintro e he
    obtain rfl := List.mem_singleton.1 he
    exact ⟨by decide, by decide, by decide, by decide⟩
  realsize := rfl
  size := by
    rintro e he
    obtain rfl := List.mem_singleton.1 he
    decide

/-- Three bytes in the middle are replaced; the file is cut to five bytes. -/
theorem consistent_operations_ten :
    Consistent fourBytes tenBytesFile ∧ Proper 4 ⟨⟨20, 'b'⟩, 0, 3, 4⟩ ∧
      Consistent fourBytes (ltfsFsrawAddExtent fourBytes ⟨⟨20, 'b'⟩, 0, 3, 4⟩ tenBytesFile) ∧
      Consistent fourBytes (ltfsFsrawTruncate 5 tenBytesFile) := by
  have h := consistent_operations fourBytes (by decide) tenBytesFile tenBytesFile_consistent
  have hext : Proper 4 ⟨⟨20, 'b'⟩, 0, 3, 4⟩ := ⟨by decide, by decide, by decide, by decide⟩
  exact ⟨tenBytesFile_consistent, hext, h.1 _ hext, (h.2 5).1⟩

end Ltfs.RealSize
