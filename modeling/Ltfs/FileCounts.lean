import Mathlib.Data.Finset.Card
import Ltfs.HandleCounts

namespace Ltfs.FileCounts

open Ltfs.Format Ltfs.Dentry Ltfs.Fsops Ltfs.Handles Ltfs.DentryTree Ltfs.CreateSpec Ltfs.UnlinkSpec
  Ltfs.TreeSteps Ltfs.RenameSpec Ltfs.NamespaceRun Ltfs.HandleCounts Ltfs.Lib.Run

variable {v : Volume} {s s' : Fs} {d : Ino}

open Classical in
/-- The dentries linked in the tree that are no directories. -/
noncomputable def files (s : Fs) : Finset Ino :=
  {d ∈ Finset.range s.nextIno | Linked s d ∧ s.isdir d = false}

theorem mem_files (T : Tree s) : d ∈ files s ↔ Linked s d ∧ s.isdir d = false := by
  simp only [files, Finset.mem_filter, Finset.mem_range, and_iff_right_iff_imp]
  exact fun h => T.known h.1

theorem files_congr (hl : ∀ d, Linked s' d ↔ Linked s d) (hdir : s'.isdir = s.isdir)
    (hn : s'.nextIno = s.nextIno) : files s' = files s := by
  ext d
  simp only [files, Finset.mem_filter, hl, hdir, hn]

@[simp] theorem files_withLog (s : Fs) (ops : List LockOp) : files (s.withLog ops) = files s := rfl

theorem next_notMem (T : Tree s) : s.nextIno ∉ files s :=
  fun h => Nat.lt_irrefl _ (T.known ((mem_files T).mp h).1)

theorem files_added {parent : Ino} {name : Name} {isdir : Bool} {u : UInt64} {count : Nat} (T : Tree s)
    (hp : Linked s parent) (hdir : s.isdir parent) (hfree : childOf s parent name = none) :
    files (added s u parent name isdir count) = if isdir then files s else insert s.nextIno (files s) := by
  ext c
  rw [mem_files (tree_added T hp hfree hdir), linked_added T hp hfree]
  by_cases hc : c = s.nextIno
  · subst hc
    cases isdir <;> simp [added, next_notMem T]
  · cases isdir <;> simp [added, hc, mem_files T]

theorem files_removed {dir : Ino} {n : Name} (T : Tree s) (h : childOf s dir n = some d)
    (hempty : s.childList d = []) : files (removed s dir d n) = (files s).erase d := by
  ext c
  rw [mem_files (tree_removed T h hempty), linked_removed T h hempty, Finset.mem_erase, mem_files T]
  simp only [removed, Fs.dropHandle_isdir, detached_isdir]
  tauto

theorem files_unlinked {dir : Ino} {n : Name} (T : Tree s) (h : childOf s dir n = some d)
    (hempty : s.childList d = []) : files (unlinked s dir d n) = (files s).erase d := by
  rw [← files_removed T h hempty]
  exact files_congr (fun c => (unlinked_same s dir d n).linked) rfl rfl

/-- Nothing of the files changes: neither which they are nor their extents and counts. -/
structure SameFiles (s s' : Fs) : Prop where
  linked : ∀ d, Linked s' d ↔ Linked s d
  isdir : s'.isdir = s.isdir
  nextIno : s'.nextIno = s.nextIno
  extentlist : s'.extentlist = s.extentlist
  usedBlocks : s'.usedBlocks = s.usedBlocks
  fileCount : s'.fileCount = s.fileCount
  validBlocks : s'.validBlocks = s.validBlocks
  blocksize : s'.blocksize = s.blocksize

theorem SameFiles.files (h : SameFiles s s') : files s' = files s := files_congr h.linked h.isdir h.nextIno

theorem released_same {h : Handle} (C : Counted v) (hh : h ∈ v.handles) :
    SameFiles v.fs (fsReleaseDentry v.fs h.dentry) := by
  by_cases hl : Linked v.fs h.dentry
  · have hn := C.numhandles _ hl
    have hpos := openHandles_pos hh
    rw [release_put (by omega)]
    exact ⟨fun _ => Iff.rfl, rfl, rfl, rfl, rfl, rfl, rfl, rfl⟩
  · rw [release_unlinked C hh hl]
    exact ⟨fun _ => Iff.rfl, rfl, rfl, rfl, rfl, rfl, rfl, rfl⟩

theorem moved_same {fromdir todir f : Ino} {fn tn : Name} (T : Tree s) (hc : childOf s fromdir fn = some f)
    (hto : Linked s todir) (hfree : childOf s todir tn = none ∨ (todir = fromdir ∧ tn = fn))
    (hloop : ∀ zs, Lib.Paths.follow (childOf s) f zs ≠ some todir) :
    SameFiles s (moved s fromdir todir f fn tn) :=
  ⟨fun _ => linked_moved T hc hto hfree hloop, rfl, rfl, rfl, rfl, rfl, rfl, rfl⟩

theorem files_replaced {fromdir todir f t : Ino} {fn tn : Name} (T : Tree s) (hc : childOf s fromdir fn = some f)
    (hto : Linked s todir) (ht : childOf s todir tn = some t) (htf : t ≠ f) (htd : t ≠ todir)
    (hempty : s.childList t = []) (hloop : ∀ zs, Lib.Paths.follow (childOf s) f zs ≠ some todir) :
    files (moved (removed s todir t tn) fromdir todir f fn tn) = (files s).erase t := by
  obtain ⟨hc', hto', hfree, hloop'⟩ := after_removed T hc hto ht htf htd hempty hloop
  rw [(moved_same (tree_removed T ht hempty) hc' hto' (.inl hfree) hloop').files, files_removed T ht hempty]

theorem closed_same {h : Handle} (C : Counted v) (hh : h ∈ v.handles) (volume : Except Error Unit) (w : Bool)
    (flushed : Option (List ExtentInfo)) : SameFiles (settled volume w flushed h.dentry v.fs)
      (ltfsFsopsClose volume w flushed h.dentry v.fs) := by
  obtain ⟨ops, heq⟩ := closeUpdate_eq volume w flushed h.dentry v.fs
  have hs := released_same (counted_closeUpdate C volume w flushed h.dentry) hh
  simp only [heq] at hs
  rw [ltfsFsopsClose, heq]
  exact ⟨hs.linked, hs.isdir, hs.nextIno, hs.extentlist, hs.usedBlocks, hs.fileCount, hs.validBlocks,
    hs.blocksize⟩

/-- A rename puts its source in the place of a directory or where nothing is. -/
def KeepsFiles (v : Volume) (op : Op) : Prop :=
  Sound v op ∧ ∀ env src dst t, op = .rename env src dst → Replaced env src dst v.fs t → v.fs.isdir t = true

theorem fileCount_effect {op : Op} {v' : Volume} (C : Counted v) (h : Effect v op v')
    (hdirs : ∀ env src dst t, op = .rename env src dst → Replaced env src dst v.fs t → v.fs.isdir t = true)
    (hc : v.fs.fileCount = (files v.fs).card) : v'.fs.fileCount = (files v'.fs).card := by
  have hsame : ∀ {s' : Fs}, (∀ d, Linked s' d ↔ Linked v.fs d) → s'.isdir = v.fs.isdir →
      s'.nextIno = v.fs.nextIno → s'.fileCount = v.fs.fileCount → s'.fileCount = (files s').card := by
    intro s' h1 h2 h3 h4
    rw [files_congr h1 h2 h3, h4, hc]
  cases h with
  | same _ u ops => exact hsame (fun _ => Iff.rfl) rfl rfl rfl
  | opened _ d w ops hd => exact hsame (fun _ => Iff.rfl) rfl rfl rfl
  | refused _ d ops hd =>
    have h1 := closed_same (counted_opened C true ops hd) (List.mem_cons_self ..) (.ok ()) true none
    exact hsame h1.linked h1.isdir h1.nextIno h1.fileCount
  | added _ parent name isdir u ops hp hdir hfree =>
    simp only [files_withLog, files_added C.tree hp hdir hfree]
    cases isdir with
    | true => exact hc
    | false =>
      simp only [Bool.false_eq_true, if_false, Finset.card_insert_of_notMem (next_notMem C.tree), ← hc]
      rfl
  | unlinked _ dir d n ops hd hempty =>
    simp only [files_withLog, files_unlinked C.tree hd hempty]
    simp only [unlinked, Fs.withLog_fileCount, Fs.dropHandle_fileCount, uncounted_fileCount, detached_isdir,
      detached_fileCount]
    cases hdir : v.fs.isdir d with
    | true =>
      have hm : d ∉ files v.fs := fun h => by simp [((mem_files C.tree).mp h).2] at hdir
      rw [if_pos rfl, Finset.erase_eq_of_notMem hm, hc]
    | false =>
      have hm : d ∈ files v.fs := (mem_files C.tree).mpr ⟨C.tree.childOf_linked hd, hdir⟩
      rw [Finset.card_erase_of_mem hm, hc]
      rfl
  | moved env src dst fromdir todir f fn tn t ops hrep hsrc hto hdir ht hn hloop =>
    cases t with
    | none =>
      have h1 := moved_same C.tree hsrc hto (hn rfl) hloop
      exact hsame h1.linked rfl rfl rfl
    | some t =>
      obtain ⟨h1, h2, -, h4, h5⟩ := ht t rfl
      have hm : t ∉ files v.fs := by
        intro h
        have h7 := hdirs env src dst t rfl (hrep t rfl)
        simp [((mem_files C.tree).mp h).2] at h7
      simp only [files_withLog, base, files_replaced C.tree hsrc hto h1 h2 h4 h5 hloop,
        Finset.erase_eq_of_notMem hm]
      exact hc
  | wrote h es hh hw => exact hsame (fun _ => Iff.rfl) rfl rfl rfl
  | closed h volume flushed hh =>
    have h1 := closed_same C hh volume h.write flushed
    exact hsame h1.linked h1.isdir h1.nextIno h1.fileCount

theorem fileCount_run {ops : List Op} (C : Counted v) (hc : v.fs.fileCount = (files v.fs).card)
    (h : Meets step KeepsFiles v ops) :
    (run step v ops).fs.fileCount = (files (run step v ops).fs).card := by
  have hstep : ∀ v op, Counted v ∧ v.fs.fileCount = (files v.fs).card → KeepsFiles v op →
      Counted (step v op) ∧ (step v op).fs.fileCount = (files (step v op).fs).card := by
    rintro v op ⟨C, hc⟩ ⟨hs, hdirs⟩
    have he := step_effect C.tree op hs
    exact ⟨counted_effect C he, fileCount_effect C he hdirs hc⟩
  exact (h.invariant hstep ⟨C, hc⟩).2

theorem files_empty (blocksize : Nat) : files (emptyFs blocksize) = ∅ := by
  ext d
  rw [mem_files (tree_empty blocksize), linked_empty]
  simp [emptyFs]

/-- The file "/a" is made and renamed to "/c". -/
theorem fileCount_run_renamed :
    let v := run step ⟨emptyFs 512, []⟩
      [.create plainEnv ⟨[], ['a']⟩ false, .rename plainEnv ⟨[], ['a']⟩ ⟨[], ['c']⟩]
    v.fs.fileCount = (files v.fs).card := by
  refine fileCount_run (counted_empty 512) (by rw [files_empty]; rfl) ⟨⟨createSound_plain ?_, ?_⟩, ⟨?_, ?_⟩, trivial⟩
  · intro parent h
    obtain rfl : 0 = parent := Except.ok.inj h
    rfl
  · intro env src dst t h
    cases h
  · refine renameSound_plain ?_
    intro parent h
    obtain rfl : 0 = parent := Except.ok.inj h
    rfl
  · rintro env src dst t h ⟨p, q, fromdir, todir, f, u, hr, ht⟩
    cases h
    obtain rfl := Except.ok.inj hr.formatDst
    obtain rfl : 0 = todir := Except.ok.inj hr.dstDir
    have hu : u = none := (looked_ok hr.found).2.1
    simp [hu, distinct] at ht

/-- The file "/a" replaces the file "/b": one file is left and two are counted. -/
theorem fileCount_stale :
    let v := run step ⟨emptyFs 512, []⟩ [.create plainEnv ⟨[], ['a']⟩ false,
      .create plainEnv ⟨[], ['b']⟩ false, .rename plainEnv ⟨[], ['a']⟩ ⟨[], ['b']⟩]
    v.fs.fileCount ≠ (files v.fs).card := by
  intro v hc
  have h0 : v.fs.childList 0 = [(['b'], 1)] := by decide +kernel
  have h1 : v.fs.childList 1 = [] := by decide +kernel
  have hsub : files v.fs ⊆ {1} := by
    intro d hd
    simp only [files, Finset.mem_filter] at hd
    obtain ⟨-, ⟨xs, hx⟩, hdir⟩ := hd
    have hr : v.fs.root = 0 := by decide +kernel
    rw [hr] at hx
    cases xs with
    | nil =>
      obtain rfl : 0 = d := Option.some.inj hx
      revert hdir
      decide +kernel
    | cons k ks =>
      simp only [Lib.Paths.follow, childOf, h0, List.find?_singleton] at hx
      cases hk : (['b'] == k) with
      | false => simp [hk] at hx
      | true =>
        cases ks with
        | nil => simpa [hk, eq_comm] using hx
        | cons k' ks' => simp [hk, Lib.Paths.follow, childOf, h1] at hx
  have h2 := Finset.card_le_card hsub
  rw [← hc] at h2
  revert h2
  decide +kernel

end Ltfs.FileCounts
