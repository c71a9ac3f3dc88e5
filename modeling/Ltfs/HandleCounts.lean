import Ltfs.NamespaceRun

namespace Ltfs.HandleCounts

open Ltfs.Format Ltfs.Dentry Ltfs.Fsops Ltfs.LockSpec Ltfs.Handles Ltfs.DentryTree Ltfs.Lookup
  Ltfs.CreateSpec Ltfs.UnlinkSpec Ltfs.TreeSteps Ltfs.RenameSpec Ltfs.NamespaceRun Ltfs.Lib.Run

variable {v : Volume} {s : Fs} {d : Ino}

/-- The directories in the table of a directory. -/
def subdirs (s : Fs) (d : Ino) : Nat := (s.childList d).countP (fun e => s.isdir e.2)

/-- A linked dentry has one reference beside the open handles, an unlinked one lives as long as a
handle is open, and a directory has two links and one more for every directory in it. -/
structure RightCounts (v : Volume) : Prop where
  numhandles : ∀ d, Linked v.fs d → v.fs.numhandles d = 1 + openHandles v.handles d
  freed : ∀ d, ¬ Linked v.fs d → (v.fs.live d = true ↔ 0 < openHandles v.handles d)
  linkCount : ∀ d, Linked v.fs d → v.fs.isdir d → v.fs.linkCount d = 2 + subdirs v.fs d

structure Counted (v : Volume) : Prop extends RightCounts v where
  tree : Tree v.fs
  unlinked : ∀ d, ¬ Linked v.fs d → v.fs.numhandles d = openHandles v.handles d
  known : ∀ h ∈ v.handles, h.dentry < v.fs.nextIno

/-- Both states have the same dentries, handles apart. -/
structure SameDentries (s s' : Fs) : Prop where
  root : s'.root = s.root
  parent : s'.parent = s.parent
  isdir : s'.isdir = s.isdir
  name : s'.name = s.name
  childList : s'.childList = s.childList
  nextIno : s'.nextIno = s.nextIno
  linkCount : s'.linkCount = s.linkCount
  live : s'.live = s.live

theorem SameDentries.childOf {s s' : Fs} (h : SameDentries s s') : childOf s' = childOf s := by
  funext p k
  simp [DentryTree.childOf, h.childList]

theorem SameDentries.linked {s s' : Fs} (h : SameDentries s s') : Linked s' d ↔ Linked s d := by
  simp [Linked, h.childOf, h.root]

theorem SameDentries.subdirs {s s' : Fs} (h : SameDentries s s') : subdirs s' d = subdirs s d := by
  simp [HandleCounts.subdirs, h.childList, h.isdir]

theorem SameDentries.tree {s s' : Fs} (h : SameDentries s s') (T : Tree s)
    (hn : ∀ c, Linked s c → 0 < s'.numhandles c) : Tree s' where
  root_parent := by rw [h.parent, h.root]; exact T.root_parent
  root_dir := by rw [h.isdir, h.root]; exact T.root_dir
  entry := by
    intro p k c hm
    rw [h.childList] at hm
    rw [h.name, h.parent]
    exact T.entry hm
  listed := by
    intro c p hp
    rw [h.parent] at hp
    rw [h.name, h.childList]
    exact T.listed hp
  keys := by rw [h.childList]; exact T.keys
  linked := by
    intro c p hp
    rw [h.parent] at hp
    exact h.linked.mpr (T.linked hp)
  owned := by
    intro p hp
    rw [h.childList] at hp
    rw [h.linked, h.isdir]
    exact T.owned hp
  counted := fun hc => hn _ (h.linked.mp hc)
  known := by
    intro c hc
    rw [h.nextIno]
    exact T.known (h.linked.mp hc)
  alive := by
    intro c hc
    rw [h.live]
    exact T.alive (h.linked.mp hc)

/-- A change of references that follows the open handles. -/
theorem Counted.of_same {v' : Volume} (C : Counted v) (h : SameDentries v.fs v'.fs)
    (hk : ∀ h ∈ v'.handles, h.dentry < v.fs.nextIno)
    (hn : ∀ d, Linked v.fs d → v'.fs.numhandles d = 1 + openHandles v'.handles d)
    (hu : ∀ d, ¬ Linked v.fs d → v'.fs.numhandles d = openHandles v'.handles d ∧
      (v'.fs.live d = true ↔ 0 < openHandles v'.handles d)) : Counted v' where
  tree := h.tree C.tree (fun c hc => by rw [hn c hc]; omega)
  numhandles := fun d hd => hn d (h.linked.mp hd)
  unlinked := fun d hd => (hu d (fun hl => hd (h.linked.mpr hl))).1
  freed := fun d hd => (hu d (fun hl => hd (h.linked.mpr hl))).2
  linkCount := by
    intro d hd hdir
    rw [h.linkCount, h.subdirs]
    rw [h.isdir] at hdir
    exact C.linkCount d (h.linked.mp hd) hdir
  known := by rw [h.nextIno]; exact hk

theorem Counted.of_eq {s' : Fs} (C : Counted v) (h : SameDentries v.fs s')
    (hn : s'.numhandles = v.fs.numhandles) : Counted { v with fs := s' } := by
  refine C.of_same h C.known ?_ ?_
  · intro d hd
    rw [hn]
    exact C.numhandles d hd
  · intro d hd
    rw [hn, h.live]
    exact ⟨C.unlinked d hd, C.freed d hd⟩

theorem Counted.withLog (C : Counted v) (ops : List LockOp) : Counted { v with fs := v.fs.withLog ops } :=
  C.of_eq (by constructor <;> rfl) rfl

theorem openHandles_cons (hs : List Handle) (d : Ino) (w : Bool) :
    openHandles (⟨d, w⟩ :: hs) = fun c => openHandles hs c + if c = d then 1 else 0 := by
  funext c
  by_cases hc : c = d
  · subst hc
    simp [openHandles]
  · simp [openHandles, hc, Ne.symm hc]

theorem counted_opened (C : Counted v) (w : Bool) (ops : List LockOp) (hd : Linked v.fs d) :
    Counted ⟨(v.fs.withHandles {d}).withLog ops, ⟨d, w⟩ :: v.handles⟩ := by
  have hsame : SameDentries v.fs ((v.fs.withHandles {d}).withLog ops) := by
    constructor <;> rfl
  refine C.of_same hsame ?_ ?_ ?_
  · intro h hh
    rcases List.mem_cons.mp hh with rfl | hh
    · exact C.tree.known hd
    · exact C.known h hh
  · intro c hc
    rw [openHandles_cons]
    simp only [Fs.withLog_numhandles, Fs.withHandles_numhandles, C.numhandles c hc,
      Multiset.count_singleton]
    omega
  · intro c hc
    have hne : c ≠ d := by
      rintro rfl
      exact hc hd
    rw [openHandles_cons]
    simp only [Fs.withLog_numhandles, Fs.withHandles_numhandles, C.unlinked c hc,
      Multiset.count_singleton, hne, if_false, Nat.add_zero, true_and]
    exact C.freed c hc

theorem openHandles_new (C : Counted v) : openHandles v.handles v.fs.nextIno = 0 := by
  simp only [openHandles, List.countP_eq_zero, decide_eq_true_eq]
  intro h hh
  exact Nat.ne_of_lt (C.known h hh)

theorem counted_added {parent : Ino} {name : Name} (C : Counted v) (hp : Linked v.fs parent)
    (hdir : v.fs.isdir parent) (hfree : childOf v.fs parent name = none) (isdir w : Bool) (u : UInt64)
    (count : Nat) : Counted ⟨added v.fs u parent name isdir count, ⟨v.fs.nextIno, w⟩ :: v.handles⟩ where
  tree := tree_added C.tree hp hfree hdir
  numhandles := by
    intro c hc
    rw [openHandles_cons]
    rcases (linked_added C.tree hp hfree).mp hc with hl | rfl
    · have hne : c ≠ v.fs.nextIno := Nat.ne_of_lt (C.tree.known hl)
      simp [added, hne, C.numhandles c hl]
    · simp [added, openHandles_new C]
  unlinked := by
    intro c hc
    rw [linked_added C.tree hp hfree, not_or] at hc
    rw [openHandles_cons]
    simp [added, hc.2, C.unlinked c hc.1]
  freed := by
    intro c hc
    rw [linked_added C.tree hp hfree, not_or] at hc
    rw [openHandles_cons]
    simpa [added, hc.2] using C.freed c hc.1
  linkCount := by
    intro c hc hcdir
    have hpn : parent ≠ v.fs.nextIno := Nat.ne_of_lt (C.tree.known hp)
    -- the kinds of the dentries that were there before do not change
    have hold : ∀ p, (v.fs.childList p).countP
        (fun e => (added v.fs u parent name isdir count).isdir e.2) = subdirs v.fs p := by
      intro p
      apply List.countP_congr
      rintro ⟨k, c⟩ hm
      have hne : c ≠ v.fs.nextIno := Nat.ne_of_lt (C.tree.known (C.tree.linked (C.tree.entry hm).2))
      simp [added, hne]
    rcases (linked_added C.tree hp hfree).mp hc with hl | rfl
    · have hne : c ≠ v.fs.nextIno := Nat.ne_of_lt (C.tree.known hl)
      have hcdir' : v.fs.isdir c = true := by simpa [added, hne] using hcdir
      by_cases hcp : c = parent
      · subst hcp
        have hlist : (added v.fs u c name isdir count).childList c =
            (name, v.fs.nextIno) :: v.fs.childList c := by simp [added]
        rw [subdirs, hlist, List.countP_cons, hold]
        cases isdir <;> simp [added, hne, C.linkCount c hl hcdir']
        omega
      · have hlist : (added v.fs u parent name isdir count).childList c = v.fs.childList c := by
          simp [added, hcp, hne]
        rw [subdirs, hlist, hold]
        simp [added, hne, hcp, C.linkCount c hl hcdir']
    · have hisdir : isdir = true := by simpa [added] using hcdir
      subst hisdir
      simp [added, subdirs, hpn.symm]
  known := by
    intro h hh
    rcases List.mem_cons.mp hh with rfl | hh
    · exact Nat.lt_succ_self _
    · exact Nat.lt_succ_of_lt (C.known h hh)

theorem subdirs_other {dir p : Ino} {n : Name} (hc : (n, d) ∈ s.childList dir) :
    (otherEntries s dir p d n).countP (fun e => s.isdir e.2) =
      subdirs s p - if p = dir ∧ s.isdir d then 1 else 0 := by
  by_cases hp : p = dir
  · subst hp
    simp only [otherEntries, Function.update_self, List.countP_erase, hc, true_and, subdirs]
  · simp [otherEntries, hp, subdirs]

theorem subdirs_pos {dir : Ino} {n : Name} (hc : (n, d) ∈ s.childList dir) (hd : s.isdir d) :
    0 < subdirs s dir := by
  simp only [subdirs, List.countP_pos_iff]
  exact ⟨(n, d), hc, hd⟩

theorem counted_removed {dir : Ino} {n : Name} (C : Counted v) (hc : childOf v.fs dir n = some d)
    (hempty : v.fs.childList d = []) : Counted { v with fs := removed v.fs dir d n } where
  tree := tree_removed C.tree hc hempty
  numhandles := by
    intro c h
    obtain ⟨hl, hne⟩ := (linked_removed C.tree hc hempty).mp h
    simpa [removed, hne] using C.numhandles c hl
  unlinked := by
    intro c h
    rw [linked_removed C.tree hc hempty, not_and_or, not_not] at h
    by_cases hcd : c = d
    · subst hcd
      have h1 := C.numhandles c (C.tree.childOf_linked hc)
      simp only [removed, Fs.dropHandle_numhandles, detached_numhandles, Function.update_self, h1]
      omega
    · simpa [removed, hcd] using C.unlinked c (h.resolve_right hcd)
  freed := by
    intro c h
    rw [linked_removed C.tree hc hempty, not_and_or, not_not] at h
    by_cases hcd : c = d
    · subst hcd
      have h1 := C.numhandles c (C.tree.childOf_linked hc)
      have h2 := C.tree.alive (C.tree.childOf_linked hc)
      simp only [removed, Fs.dropHandle_live, detached_numhandles, detached_live, h1]
      by_cases h0 : openHandles v.handles c = 0
      · simp [h0]
      · have h3 : 0 < openHandles v.handles c := Nat.pos_of_ne_zero h0
        simp [h0, h2, h3]
    · have h1 := C.freed c (h.resolve_right hcd)
      simp only [removed, Fs.dropHandle_live, detached_numhandles, detached_live]
      split
      · rw [Function.update_of_ne hcd]
        exact h1
      · exact h1
  linkCount := by
    intro c h hdir
    obtain ⟨hl, hne⟩ := (linked_removed C.tree hc hempty).mp h
    have hm := mem_of_childOf hc
    have h1 := C.linkCount c hl hdir
    have h2 := subdirs_other (p := c) hm
    have h3 : subdirs (removed v.fs dir d n) c =
        (otherEntries v.fs dir c d n).countP (fun e => v.fs.isdir e.2) := rfl
    rw [h3, h2]
    simp only [removed, Fs.dropHandle_linkCount, detached_linkCount, hne, if_false]
    by_cases hk : c = dir ∧ v.fs.isdir d = true
    · obtain ⟨rfl, hk⟩ := hk
      have h4 := subdirs_pos hm hk
      simp only [hk, and_self, if_true, h1]
      omega
    · simp only [hk, if_false, h1]
      omega
  known := C.known

section Moved

variable {fromdir todir f : Ino} {fn tn : Name}

theorem moved_subdirs (hm : (fn, f) ∈ s.childList fromdir) (p : Ino) :
    subdirs (moved s fromdir todir f fn tn) p + (if p = fromdir ∧ s.isdir f then 1 else 0) =
      subdirs s p + (if p = todir ∧ s.isdir f then 1 else 0) := by
  have h1 := subdirs_other (p := p) hm
  have hle : (if p = fromdir ∧ s.isdir f = true then 1 else 0) ≤ subdirs s p := by
    split
    next h => exact h.1 ▸ subdirs_pos hm h.2
    · exact Nat.zero_le _
  have hother : subdirs (moved s fromdir todir f fn tn) p =
      (otherEntries s fromdir p f fn).countP (fun e => s.isdir e.2) +
        (if p = todir ∧ s.isdir f then 1 else 0) := by
    by_cases hp : p = todir
    · subst hp
      simp [subdirs, moved, List.countP_cons]
    · simp [subdirs, moved, hp, otherEntries]
  rw [hother, h1]
  omega

theorem moved_linkCount (hm : (fn, f) ∈ s.childList fromdir) (p : Ino)
    (h : s.linkCount p = 2 + subdirs s p) :
    (moved s fromdir todir f fn tn).linkCount p = 2 + subdirs (moved s fromdir todir f fn tn) p := by
  have h1 : subdirs (moved s fromdir todir f fn tn) p + _ = subdirs s p + _ := moved_subdirs hm p
  by_cases hd : s.isdir f = true
  · have h2 : p = fromdir → 0 < subdirs s p := fun he => he ▸ subdirs_pos hm hd
    have h3 : (moved s fromdir todir f fn tn).linkCount p =
        (if p = fromdir then s.linkCount p - 1 else s.linkCount p) + (if p = todir then 1 else 0) := by
      simp only [moved, relinked_linkCount, hd, if_true, Fs.incLink, Fs.decLink]
      by_cases hp : p = todir
      · subst hp
        by_cases hq : p = fromdir
        · subst hq
          simp
        · simp [hq]
      · by_cases hq : p = fromdir
        · subst hq
          simp [hp]
        · simp [hp, hq]
    simp only [hd, and_true] at h1
    rw [h3, h]
    by_cases hq : p = fromdir
    · have h4 := h2 hq
      simp only [hq, if_true] at h1 h4 ⊢
      omega
    · simp only [hq, if_false] at h1 ⊢
      omega
  · have h3 : (moved s fromdir todir f fn tn).linkCount p = s.linkCount p := by
      simp [moved, hd]
    simp only [hd, and_false, Bool.false_eq_true, if_false, Nat.add_zero] at h1
    rw [h3, h, h1]

theorem counted_moved (C : Counted v) (hc : childOf v.fs fromdir fn = some f) (hto : Linked v.fs todir)
    (hdir : v.fs.isdir todir) (hfree : childOf v.fs todir tn = none ∨ (todir = fromdir ∧ tn = fn))
    (hloop : ∀ zs, Lib.Paths.follow (childOf v.fs) f zs ≠ some todir) :
    Counted { v with fs := moved v.fs fromdir todir f fn tn } where
  tree := tree_moved C.tree hc hto hfree hloop hdir
  numhandles := fun d hd => C.numhandles d ((linked_moved C.tree hc hto hfree hloop).mp hd)
  unlinked := fun d hd => C.unlinked d (fun hl => hd ((linked_moved C.tree hc hto hfree hloop).mpr hl))
  freed := fun d hd => C.freed d (fun hl => hd ((linked_moved C.tree hc hto hfree hloop).mpr hl))
  linkCount := fun d hd hdd => moved_linkCount (mem_of_childOf hc) d
    (C.linkCount d ((linked_moved C.tree hc hto hfree hloop).mp hd) hdd)
  known := C.known

end Moved

/-- What is not in the tree can be freed. -/
theorem tree_dropHandle (T : Tree s) (hl : ¬ Linked s d) : Tree (s.dropHandle d) where
  root_parent := T.root_parent
  root_dir := T.root_dir
  entry := by
    intro p k c hm
    obtain ⟨h1, h2⟩ := T.entry hm
    have hne : c ≠ d := by
      rintro rfl
      exact hl (T.linked h2)
    refine ⟨?_, h2⟩
    simp only [Fs.dropHandle_name]
    split
    · rw [Function.update_of_ne hne, h1]
    · exact h1
  listed := by
    intro c p hp
    obtain ⟨k, h1, h2⟩ := T.listed hp
    have hne : c ≠ d := by
      rintro rfl
      exact hl (T.linked hp)
    refine ⟨k, ?_, h2⟩
    simp only [Fs.dropHandle_name]
    split
    · rw [Function.update_of_ne hne, h1]
    · exact h1
  keys := T.keys
  linked := T.linked
  owned := T.owned
  counted := by
    intro c hc
    have hne : c ≠ d := by
      rintro rfl
      exact hl hc
    simpa [hne] using T.counted hc
  known := T.known
  alive := by
    intro c hc
    have hne : c ≠ d := by
      rintro rfl
      exact hl hc
    have h1 := T.alive hc
    simp only [Fs.dropHandle_live]
    split
    · rwa [Function.update_of_ne hne]
    · exact h1

theorem release_put (h : 1 < s.numhandles d) : fsReleaseDentry s d = (s.putHandle d).withLog (lookupOps d) := by
  have h1 : ¬ ((s.putHandle d).withLog [.acquire (.metadata d) .write]).numhandles d = 0 := by
    simp only [Fs.withLog_numhandles, Fs.putHandle, Function.update_self]
    omega
  simp only [fsReleaseDentry, fsReleaseDentryUnlocked, ne_eq, acquire_eq, release_eq, putHandle_withLog,
    h1, not_false_eq_true, if_true, withLog_withLog]
  rfl

theorem openHandles_erase {h : Handle} {hs : List Handle} (hh : h ∈ hs) (c : Ino) :
    openHandles (hs.erase h) c = openHandles hs c - if c = h.dentry then 1 else 0 := by
  simp only [openHandles, List.countP_erase, hh, true_and, decide_eq_true_eq]
  by_cases hc : c = h.dentry
  · simp [hc]
  · simp [hc, Ne.symm hc]

theorem openHandles_pos {h : Handle} {hs : List Handle} (hh : h ∈ hs) : 0 < openHandles hs h.dentry := by
  simp only [openHandles, List.countP_pos_iff]
  exact ⟨h, hh, by simp⟩

/-- A reference to an unlinked dentry is given back, and with the last one the dentry. -/
theorem release_unlinked {h : Handle} (C : Counted v) (hh : h ∈ v.handles) (hl : ¬ Linked v.fs h.dentry) :
    fsReleaseDentry v.fs h.dentry = (v.fs.dropHandle h.dentry).withLog (lookupOps h.dentry) := by
  have hpos := openHandles_pos hh
  have hn := C.unlinked _ hl
  obtain ⟨hpar, hchild⟩ := C.tree.unlinked hl
  rw [fsReleaseDentry, acquire_eq, releaseUnlocked_alone (s := v.fs.withLog _) (by simpa using hn ▸ hpos)
    hpar hchild]
  have h1 : ∀ ops, (v.fs.withLog ops).dropHandle h.dentry = (v.fs.dropHandle h.dentry).withLog ops :=
    fun _ => rfl
  rw [h1, withLog_withLog]
  rfl

theorem counted_released {h : Handle} (C : Counted v) (hh : h ∈ v.handles) :
    Counted ⟨fsReleaseDentry v.fs h.dentry, v.handles.erase h⟩ := by
  have hpos := openHandles_pos hh
  have hknown : ∀ h' ∈ v.handles.erase h, h'.dentry < v.fs.nextIno :=
    fun h' hh' => C.known h' (List.mem_of_mem_erase hh')
  by_cases hl : Linked v.fs h.dentry
  · have hn := C.numhandles _ hl
    rw [release_put (by omega)]
    refine C.of_same (by constructor <;> rfl) hknown ?_ ?_
    · intro c hc
      rw [openHandles_erase hh]
      by_cases hcd : c = h.dentry
      · subst hcd
        simp only [Fs.withLog_numhandles, Fs.putHandle, Function.update_self, if_true]
        omega
      · simpa [Fs.putHandle, hcd] using C.numhandles c hc
    · intro c hc
      have hcd : c ≠ h.dentry := by
        rintro rfl
        exact hc hl
      rw [openHandles_erase hh]
      simpa [Fs.putHandle, hcd] using ⟨C.unlinked c hc, C.freed c hc⟩
  · have hn := C.unlinked _ hl
    rw [release_unlinked C hh hl]
    refine Counted.withLog (v := ⟨v.fs.dropHandle h.dentry, v.handles.erase h⟩) ?_ (lookupOps h.dentry)
    refine ⟨⟨?numhandles, ?freed, C.linkCount⟩, tree_dropHandle C.tree hl, ?unlinked, hknown⟩
    case numhandles =>
      intro c hc
      have hcd : c ≠ h.dentry := by
        rintro rfl
        exact hl hc
      rw [openHandles_erase hh]
      simpa [hcd] using C.numhandles c hc
    case unlinked =>
      intro c hc
      rw [openHandles_erase hh]
      by_cases hcd : c = h.dentry
      · subst hcd
        simp [hn]
      · simpa [hcd] using C.unlinked c hc
    case freed =>
      intro c hc
      rw [openHandles_erase hh]
      by_cases hcd : c = h.dentry
      · subst hcd
        simp only [Fs.dropHandle_live, hn, if_true]
        by_cases h1 : openHandles v.handles h.dentry = 1
        · simp [h1]
        · have h2 : 0 < openHandles v.handles h.dentry - 1 := by omega
          simp [h1, (C.freed _ hl).mpr hpos, h2]
      · have h1 := C.freed c hc
        simp only [Fs.dropHandle_live, hcd, if_false, Nat.sub_zero]
        split
        · rwa [Function.update_of_ne hcd]
        · exact h1

/-- The counts and extents when the reference is given back. -/
@[simps -fullyApplied]
def settled (volume : Except Error Unit) (w : Bool) (flushed : Option (List ExtentInfo)) (d : Ino)
    (s : Fs) : Fs :=
  { s with
    usedBlocks := if w then Function.update s.usedBlocks d (fsGetUsedBlocks s d) else s.usedBlocks
    validBlocks := if w then match volume with
        | .ok () => s.validBlocks + (fsGetUsedBlocks s d - s.usedBlocks d)
        | .error _ => s.validBlocks
      else s.validBlocks
    extentlist := match flushed with
      | none => s.extentlist
      | some es => if s.isdir d then s.extentlist else Function.update s.extentlist d es }

theorem updateUsedBlocks_eq (volume : Except Error Unit) (d : Ino) (s : Fs) :
    ∃ ops, ltfsFsopsUpdateUsedBlocks volume d s = (settled volume true none d s).withLog ops := by
  let ops : List LockOp := [.acquire (.contents d) .read, .acquire (.metadata d) .write,
    .release (.metadata d) .write, .release (.contents d) .read]
  cases volume with
  | error e =>
    refine ⟨ops, ?_⟩
    simp [ops, settled, ltfsFsopsUpdateUsedBlocks, acquire_eq, release_eq, Fs.withLog]
  | ok _ =>
    refine ⟨ops ++ [.acquire .volume .read, .release .volume .read], ?_⟩
    simp [ops, settled, ltfsFsopsUpdateUsedBlocks, acquire_eq, release_eq, Fs.withLog]

theorem closeUpdate_eq (volume : Except Error Unit) (w : Bool) (flushed : Option (List ExtentInfo)) (d : Ino)
    (s : Fs) : ∃ ops, closeUpdate volume w flushed d s = (settled volume w flushed d s).withLog ops := by
  obtain ⟨ops, hu⟩ : ∃ ops, (if w then ltfsFsopsUpdateUsedBlocks volume d s else s) =
      (settled volume w none d s).withLog ops := by
    cases w with
    | false => exact ⟨[], (withLog_nil s).symm⟩
    | true => exact updateUsedBlocks_eq volume d s
  refine ⟨ops, ?_⟩
  simp only [closeUpdate, hu]
  cases flushed with
  | none => rfl
  | some es =>
    by_cases hd : s.isdir d = true <;> simp [settled, hd, Fs.setExtents, Fs.withLog]

theorem counted_closeUpdate (C : Counted v) (volume : Except Error Unit) (w : Bool)
    (flushed : Option (List ExtentInfo)) (d : Ino) :
    Counted { v with fs := closeUpdate volume w flushed d v.fs } := by
  obtain ⟨ops, heq⟩ := closeUpdate_eq volume w flushed d v.fs
  rw [heq]
  exact C.of_eq ⟨rfl, rfl, rfl, rfl, rfl, rfl, rfl, rfl⟩ rfl

theorem counted_closed {h : Handle} (C : Counted v) (hh : h ∈ v.handles) (volume : Except Error Unit)
    (w : Bool) (flushed : Option (List ExtentInfo)) :
    Counted ⟨ltfsFsopsClose volume w flushed h.dentry v.fs, v.handles.erase h⟩ :=
  counted_released (counted_closeUpdate C volume w flushed h.dentry) hh

theorem unlinked_same (s : Fs) (dir d : Ino) (n : Name) :
    SameDentries (removed s dir d n) (unlinked s dir d n) := by
  constructor <;> rfl

/-- The move once the replaced dentry is gone: the source and the directories are still there, and
the name is free. -/
theorem after_removed {fromdir todir f t : Ino} {fn tn : Name} (T : Tree s) (hc : childOf s fromdir fn = some f)
    (hto : Linked s todir) (ht : childOf s todir tn = some t) (htf : t ≠ f) (htd : t ≠ todir)
    (hempty : s.childList t = []) (hloop : ∀ zs, Lib.Paths.follow (childOf s) f zs ≠ some todir) :
    childOf (removed s todir t tn) fromdir fn = some f ∧ Linked (removed s todir t tn) todir ∧
      childOf (removed s todir t tn) todir tn = none ∧
      ∀ zs, Lib.Paths.follow (childOf (removed s todir t tn)) f zs ≠ some todir := by
  refine ⟨(childOf_removed T ht).mpr ⟨hc, htf.symm⟩, (linked_removed T ht hempty).mpr ⟨hto, htd.symm⟩, ?_, ?_⟩
  · cases hx : childOf (removed s todir t tn) todir tn with
    | none => rfl
    | some c =>
      obtain ⟨h6, h7⟩ := (childOf_removed T ht).mp hx
      rw [ht] at h6
      exact absurd (Option.some.inj h6).symm h7
  · intro zs hz
    exact hloop zs (Lib.Paths.follow_mono (fun p k c hx => ((childOf_removed T ht).mp hx).1) hz)

/-- Every operation keeps the counts right. -/
theorem counted_effect {v' : Volume} {op : Op} (C : Counted v) (h : Effect v op v') : Counted v' := by
  cases h with
  | same _ u ops => exact C.of_eq (by constructor <;> rfl) rfl
  | opened _ d w ops hd => exact counted_opened C w ops hd
  | refused _ d ops hd =>
    have h1 := counted_closed (counted_opened C true ops hd) (List.mem_cons_self ..) (.ok ()) true none
    simpa using h1
  | added _ parent name isdir u ops hp hdir hfree =>
    exact (counted_added C hp hdir hfree isdir (!isdir) u _).withLog ops
  | unlinked _ dir d n ops hc hempty =>
    exact ((counted_removed C hc hempty).of_eq (unlinked_same v.fs dir d n) rfl).withLog ops
  | moved env src dst fromdir todir f fn tn t ops _ hc hto hdir ht hn hloop =>
    cases t with
    | none => exact (counted_moved C hc hto hdir (hn rfl) hloop).withLog ops
    | some t =>
      obtain ⟨h1, h2, -, h4, h5⟩ := ht t rfl
      obtain ⟨hc', hto', hfree, hloop'⟩ := after_removed C.tree hc hto h1 h2 h4 h5 hloop
      exact (counted_moved (counted_removed C h1 h5) hc' hto' hdir (.inl hfree) hloop').withLog ops
  | wrote h es hh hw => exact C.of_eq (by constructor <;> rfl) rfl
  | closed h volume flushed hh => exact counted_closed C hh volume h.write flushed

theorem counted_empty (blocksize : Nat) : Counted ⟨emptyFs blocksize, []⟩ where
  numhandles := by
    intro d hd
    rw [linked_empty.mp hd]
    rfl
  freed := by
    intro d hd
    have hd0 : d ≠ 0 := fun h => hd (linked_empty.mpr h)
    simp [emptyFs, openHandles, hd0]
  linkCount := by
    intro d hd _
    rw [linked_empty.mp hd]
    rfl
  tree := tree_empty blocksize
  unlinked := by
    intro d hd
    have hd0 : d ≠ 0 := fun h => hd (linked_empty.mpr h)
    simp [emptyFs, openHandles, hd0]
  known := fun _ h => absurd h List.not_mem_nil

/-- A volume with the file "/a". -/
def oneFile : Fs := (step ⟨emptyFs 512, []⟩ (.create plainEnv ⟨[], ['a']⟩ false)).fs

theorem oneFile_counted : Counted (step ⟨emptyFs 512, []⟩ (.create plainEnv ⟨[], ['a']⟩ false)) := by
  have hs : Sound ⟨emptyFs 512, []⟩ (.create plainEnv ⟨[], ['a']⟩ false) := by
    refine createSound_plain ?_
    intro parent h
    obtain rfl : 0 = parent := Except.ok.inj h
    rfl
  exact counted_effect (counted_empty 512) (step_effect (tree_empty 512) _ hs)

theorem oneFile_tree : Tree oneFile := oneFile_counted.tree

theorem counted_run {ops : List Op} (C : Counted v) (h : Meets step Sound v ops) :
    Counted (run step v ops) :=
  h.invariant (fun _ op C hs => counted_effect C (step_effect C.tree op hs)) C

theorem rightCounts_run {ops : List Op} (C : Counted v) (h : Meets step Sound v ops) :
    RightCounts (run step v ops) :=
  (counted_run C h).toRightCounts

/-- The directory "/d" is made, unlinked while its handle is open, and the handle closed. -/
theorem rightCounts_run_removed :
    RightCounts (run step ⟨emptyFs 512, []⟩ [.create plainEnv ⟨[], ['d']⟩ true,
      .unlink plainEnv ⟨[], ['d']⟩, .close ⟨1, false⟩ (.ok ()) none]) := by
  apply rightCounts_run (counted_empty 512)
  refine ⟨createSound_plain ?_, trivial, trivial, trivial⟩
  intro parent h
  obtain rfl : 0 = parent := Except.ok.inj h
  rfl

/-- The entry of the new directory "/d" cannot be allocated: the root keeps a link for it. -/
theorem rightCounts_leak :
    ¬ RightCounts (run step ⟨emptyFs 512, []⟩
      [.create { plainEnv with mem := { add := { entry := false } } } ⟨[], ['d']⟩ true]) := by
  intro h
  have h1 := h.linkCount 0 Lib.Paths.reached_root rfl
  revert h1
  decide

end Ltfs.HandleCounts
