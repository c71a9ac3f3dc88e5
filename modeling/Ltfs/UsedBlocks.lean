import Mathlib.Algebra.BigOperators.Group.Finset.Piecewise
import Mathlib.Data.UInt
import Mathlib.Tactic.Abel
import Ltfs.FileCounts

namespace Ltfs.UsedBlocks

open Ltfs.Format Ltfs.Dentry Ltfs.Fsops Ltfs.Handles Ltfs.DentryTree Ltfs.CreateSpec Ltfs.UnlinkSpec
  Ltfs.TreeSteps Ltfs.RenameSpec Ltfs.NamespaceRun Ltfs.HandleCounts Ltfs.FileCounts Ltfs.Lib.Run

variable {v : Volume} {s s' : Fs} {d : Ino}

/-- A handle on the dentry is open that will be closed as open for writing. -/
def Writer (hs : List Handle) (d : Ino) : Prop := ∃ h ∈ hs, h.dentry = d ∧ h.write = true

/-- `valid_blocks` sums up `used_blocks` of the linked files, and `used_blocks` is right unless a
writer may still change it. -/
structure Accounted (v : Volume) : Prop where
  dirs : ∀ d, v.fs.isdir d = true → v.fs.extentlist d = [] ∧ v.fs.usedBlocks d = 0
  used : ∀ d, Linked v.fs d → ¬ Writer v.handles d → v.fs.usedBlocks d = fsGetUsedBlocks v.fs d
  total : v.fs.validBlocks = ∑ d ∈ files v.fs, v.fs.usedBlocks d

theorem usedBlocks_congr (he : s'.extentlist d = s.extentlist d) (hb : s'.blocksize = s.blocksize) :
    fsGetUsedBlocks s' d = fsGetUsedBlocks s d := by
  simp only [fsGetUsedBlocks, he, hb]

theorem usedBlocks_nil (h : s.extentlist d = []) : fsGetUsedBlocks s d = 0 := by
  simp [fsGetUsedBlocks, h]

theorem sum_update {S : Finset Ino} {f : Ino → UInt64} {x : UInt64} (h : d ∈ S) :
    ∑ c ∈ S, Function.update f d x c = ∑ c ∈ S, f c + (x - f d) := by
  rw [Finset.sum_update_of_mem h, Finset.sum_eq_add_sum_sdiff_singleton_of_mem h]
  abel

theorem Accounted.of_same {hs : List Handle} (A : Accounted v) (h : SameFiles v.fs s')
    (hw : ∀ d, Linked v.fs d → ¬ Writer hs d → ¬ Writer v.handles d) : Accounted ⟨s', hs⟩ where
  dirs := by
    intro d hd
    rw [h.isdir] at hd
    rw [h.extentlist, h.usedBlocks]
    exact A.dirs d hd
  used := by
    intro d hd hn
    have hl := (h.linked d).mp hd
    rw [h.usedBlocks, usedBlocks_congr (congrFun h.extentlist d) h.blocksize]
    exact A.used d hl (hw d hl hn)
  total := by
    rw [h.validBlocks, h.files, h.usedBlocks]
    exact A.total

theorem accounted_added {parent : Ino} {name : Name} {isdir w : Bool} {u : UInt64} {count : Nat} (T : Tree v.fs)
    (A : Accounted v) (hp : Linked v.fs parent) (hdir : v.fs.isdir parent) (hfree : childOf v.fs parent name = none) :
    Accounted ⟨added v.fs u parent name isdir count, ⟨v.fs.nextIno, w⟩ :: v.handles⟩ where
  dirs := by
    intro d hd
    by_cases hn : d = v.fs.nextIno
    · simp [added, hn]
    · simp only [added, created_isdir, Function.update_of_ne hn] at hd
      simpa [added, hn] using A.dirs d hd
  used := by
    intro d hd hw
    by_cases hn : d = v.fs.nextIno
    · rw [usedBlocks_nil] <;> simp [added, hn]
    · have hl : Linked v.fs d := ((linked_added T hp hfree).mp hd).resolve_right hn
      have hw' : ¬ Writer v.handles d := by
        rintro ⟨h, hh, h'⟩
        exact hw ⟨h, List.mem_cons_of_mem _ hh, h'⟩
      have heq : fsGetUsedBlocks (added v.fs u parent name isdir count) d = fsGetUsedBlocks v.fs d :=
        usedBlocks_congr (by simp [added, hn]) rfl
      rw [heq, ← A.used d hl hw']
      simp [added, hn]
  total := by
    have hsum : ∑ d ∈ files v.fs, Function.update v.fs.usedBlocks v.fs.nextIno 0 d =
        ∑ d ∈ files v.fs, v.fs.usedBlocks d := Finset.sum_update_of_notMem (next_notMem T) _ _
    simp only [files_added T hp hdir hfree]
    cases isdir with
    | true => simpa [added, hsum] using A.total
    | false => simpa [added, hsum, Finset.sum_insert (next_notMem T)] using A.total

theorem accounted_unlinked {dir : Ino} {n : Name} (T : Tree v.fs) (A : Accounted v) (h : childOf v.fs dir n = some d)
    (hempty : v.fs.childList d = []) : Accounted { v with fs := unlinked v.fs dir d n } where
  dirs := A.dirs
  used := by
    intro c hc hw
    have hl := (linked_removed T h hempty).mp ((unlinked_same v.fs dir d n).linked.mp hc)
    exact A.used c hl.1 hw
  total := by
    simp only [files_unlinked T h hempty]
    simp only [unlinked, Fs.dropHandle_validBlocks, uncounted_validBlocks, Fs.dropHandle_usedBlocks, uncounted_usedBlocks, detached_validBlocks, detached_usedBlocks, A.total]
    cases hdir : v.fs.isdir d with
    | true =>
      rw [Finset.sum_erase _ (A.dirs d hdir).2, (A.dirs d hdir).2]
      exact sub_zero _
    | false =>
      have hm : d ∈ files v.fs := (mem_files T).mpr ⟨T.childOf_linked h, hdir⟩
      rw [Finset.sum_erase_eq_sub hm]

theorem accounted_removed {dir : Ino} {n : Name} (T : Tree v.fs) (A : Accounted v) (h : childOf v.fs dir n = some d)
    (hempty : v.fs.childList d = []) (hz : v.fs.usedBlocks d = 0) :
    Accounted { v with fs := removed v.fs dir d n } where
  dirs := A.dirs
  used := fun c hc hw => A.used c ((linked_removed T h hempty).mp hc).1 hw
  total := by
    simp only [files_removed T h hempty]
    simp only [removed, Fs.dropHandle_validBlocks, Fs.dropHandle_usedBlocks,
      detached_validBlocks, detached_usedBlocks]
    rw [Finset.sum_erase _ hz]
    exact A.total

/-- A writer is still there to take the change into `used_blocks`, or there is nothing to take. -/
def Pending (s : Fs) (hs : List Handle) (d : Ino) (es : List ExtentInfo) : Prop :=
  ¬ Linked s d ∨ Writer hs d ∨ fsGetUsedBlocks (s.setExtents d es) d = fsGetUsedBlocks s d

theorem accounted_wrote {h : Handle} {es : List ExtentInfo} (A : Accounted v) (hdir : v.fs.isdir h.dentry = false)
    (hp : Pending v.fs v.handles h.dentry es) : Accounted { v with fs := v.fs.setExtents h.dentry es } where
  dirs := by
    intro d hd
    have hne : d ≠ h.dentry := by
      rintro rfl
      simp [Fs.setExtents, hdir] at hd
    simpa [Fs.setExtents, hne] using A.dirs d hd
  used := by
    intro d hl hw
    by_cases hne : d = h.dentry
    · subst hne
      rw [(hp.resolve_left (fun h => h hl)).resolve_left hw]
      exact A.used _ hl hw
    · have heq : fsGetUsedBlocks (v.fs.setExtents h.dentry es) d = fsGetUsedBlocks v.fs d :=
        usedBlocks_congr (by simp [Fs.setExtents, hne]) rfl
      rw [heq]
      exact A.used d hl hw
  total := A.total

/-- What closing needs: the difference in `used_blocks` is added to the count of the volume if and
only if the file is linked, and the scheduler has nothing more to write. -/
def CloseSound (v : Volume) (h : Handle) (volume : Except Error Unit) (flushed : Option (List ExtentInfo)) :
    Prop :=
  (h.write = true → (Linked v.fs h.dentry ↔ volume = .ok ()) ∨
    fsGetUsedBlocks v.fs h.dentry = v.fs.usedBlocks h.dentry) ∧
  ∀ es, flushed = some es → Pending v.fs (v.handles.erase h) h.dentry es

theorem settled_total {h : Handle} {volume : Except Error Unit} {flushed : Option (List ExtentInfo)} (T : Tree v.fs)
    (A : Accounted v) (hs : CloseSound v h volume flushed) :
    (settled volume h.write flushed h.dentry v.fs).validBlocks =
      ∑ d ∈ files v.fs, (settled volume h.write flushed h.dentry v.fs).usedBlocks d := by
  cases hw : h.write with
  | false => exact A.total
  | true =>
    simp only [settled_validBlocks, settled_usedBlocks, if_true]
    by_cases heq : fsGetUsedBlocks v.fs h.dentry = v.fs.usedBlocks h.dentry
    · rw [heq, Function.update_eq_self, sub_self, add_zero, ← A.total]
      cases volume <;> rfl
    · have hiff := (hs.1 hw).resolve_right heq
      by_cases hl : Linked v.fs h.dentry
      · have hdir : v.fs.isdir h.dentry = false := by
          by_contra hd
          obtain ⟨h1, h2⟩ := A.dirs h.dentry (by simpa using hd)
          exact heq (by rw [h2, usedBlocks_nil h1])
        rw [hiff.mp hl, sum_update ((mem_files T).mpr ⟨hl, hdir⟩), ← A.total]
      · have hm : h.dentry ∉ files v.fs := fun h => hl ((mem_files T).mp h).1
        rw [Finset.sum_update_of_notMem hm, ← A.total]
        cases volume with
        | ok _ => exact absurd (hiff.mpr rfl) hl
        | error e => rfl

theorem writer_erase {h : Handle} (hd : d ≠ h.dentry ∨ h.write = false) (hw : Writer v.handles d) :
    Writer (v.handles.erase h) d := by
  obtain ⟨h', hh, rfl, h2⟩ := hw
  refine ⟨h', (List.mem_erase_of_ne ?_).mpr hh, rfl, h2⟩
  rintro rfl
  rcases hd with hd | hd
  · exact hd rfl
  · simp [hd] at h2

theorem accounted_settled {h : Handle} {volume : Except Error Unit} {flushed : Option (List ExtentInfo)}
    (T : Tree v.fs) (A : Accounted v) (hs : CloseSound v h volume flushed) :
    Accounted ⟨settled volume h.write flushed h.dentry v.fs, v.handles.erase h⟩ where
  dirs := by
    intro d hd
    obtain ⟨h1, h2⟩ := A.dirs d hd
    by_cases hne : d = h.dentry
    · subst hne
      constructor
      · cases flushed with
        | none => exact h1
        | some es =>
          have hd' : v.fs.isdir h.dentry = true := hd
          simpa [hd'] using h1
      · cases hw : h.write <;> simp [h2, usedBlocks_nil h1]
    · constructor
      · cases flushed with
        | none => exact h1
        | some es =>
          simp only [settled_extentlist]
          split
          · exact h1
          · rw [Function.update_of_ne hne]
            exact h1
      · cases hw : h.write <;> simp [h2, hne]
  used := by
    intro d hl hw
    have hl' : Linked v.fs d := hl
    by_cases hne : d = h.dentry
    · subst hne
      have hbefore : (if h.write then fsGetUsedBlocks v.fs h.dentry else v.fs.usedBlocks h.dentry) =
          fsGetUsedBlocks v.fs h.dentry := by
        cases hb : h.write with
        | true => rfl
        | false => exact A.used _ hl' (fun hx => hw (writer_erase (.inr hb) hx))
      have hafter : fsGetUsedBlocks (settled volume h.write flushed h.dentry v.fs) h.dentry =
          fsGetUsedBlocks v.fs h.dentry := by
        cases flushed with
        | none => exact usedBlocks_congr rfl rfl
        | some es =>
          rw [← ((hs.2 es rfl).resolve_left (fun h => h hl')).resolve_left hw]
          by_cases hdir : v.fs.isdir h.dentry = true
          · rw [((hs.2 es rfl).resolve_left (fun h => h hl')).resolve_left hw]
            exact usedBlocks_congr (by simp [hdir]) rfl
          · exact usedBlocks_congr (by simp [hdir, Fs.setExtents]) rfl
      rw [hafter, ← hbefore]
      cases hb : h.write <;> simp
    · have heq : fsGetUsedBlocks (settled volume h.write flushed h.dentry v.fs) d = fsGetUsedBlocks v.fs d := by
        refine usedBlocks_congr ?_ rfl
        cases flushed with
        | none => rfl
        | some es => by_cases hdir : v.fs.isdir h.dentry = true <;> simp [hdir, hne]
      rw [heq, ← A.used d hl' (fun hx => hw (writer_erase (.inl hne) hx))]
      cases hb : h.write <;> simp [hne]
  total := settled_total T A hs

theorem accounted_closed {h : Handle} {volume : Except Error Unit} {flushed : Option (List ExtentInfo)}
    (C : Counted v) (A : Accounted v) (hh : h ∈ v.handles) (hs : CloseSound v h volume flushed) :
    Accounted ⟨ltfsFsopsClose volume h.write flushed h.dentry v.fs, v.handles.erase h⟩ :=
  (accounted_settled C.tree A hs).of_same (closed_same C hh volume h.write flushed) (fun _ _ => id)

/-- Every difference in the blocks of a linked file is taken into `valid_blocks`, and none of an
unlinked one. -/
def Balanced (v : Volume) : Op → Prop
  | .write h es => Pending v.fs v.handles h.dentry es
  | .close h volume flushed => CloseSound v h volume flushed
  | .rename env src dst => RenameSound env src dst v.fs ∧
      ∀ t, Replaced env src dst v.fs t → v.fs.usedBlocks t = 0
  | op => Sound v op

theorem Balanced.sound {op : Op} (h : Balanced v op) : Sound v op := by
  cases op with
  | rename env src dst => exact h.1
  | write _ _ => trivial
  | close _ _ _ => trivial
  | lookup _ _ => exact h
  | create _ _ _ => exact h
  | openFile _ _ _ => exact h
  | unlink _ _ => exact h

theorem accounted_effect {op : Op} {v' : Volume} (C : Counted v) (A : Accounted v) (h : Effect v op v')
    (hb : Balanced v op) : Accounted v' := by
  have hopened : ∀ {d} (w : Bool) (ops : List LockOp),
      Accounted ⟨(v.fs.withHandles {d}).withLog ops, ⟨d, w⟩ :: v.handles⟩ := by
    intro d w ops
    refine A.of_same ⟨fun _ => Iff.rfl, rfl, rfl, rfl, rfl, rfl, rfl, rfl⟩ ?_
    rintro c - hw ⟨h, hh, h'⟩
    exact hw ⟨h, List.mem_cons_of_mem _ hh, h'⟩
  have hlog : ∀ {s : Fs} {hs : List Handle} (ops : List LockOp), Accounted ⟨s, hs⟩ →
      Accounted ⟨s.withLog ops, hs⟩ := by
    intro s hs ops A
    exact A.of_same ⟨fun _ => Iff.rfl, rfl, rfl, rfl, rfl, rfl, rfl, rfl⟩ (fun _ _ => id)
  cases h with
  | same _ u ops => exact A.of_same ⟨fun _ => Iff.rfl, rfl, rfl, rfl, rfl, rfl, rfl, rfl⟩ (fun _ _ => id)
  | opened _ d w ops hd => exact hopened w ops
  | refused _ d ops hd =>
    have hs : CloseSound ⟨(v.fs.withHandles {d}).withLog ops, ⟨d, true⟩ :: v.handles⟩ ⟨d, true⟩ (.ok ()) none :=
      ⟨fun _ => .inl ⟨fun _ => rfl, fun _ => hd⟩, by simp⟩
    have h1 := accounted_closed (counted_opened C true ops hd) (hopened true ops) (List.mem_cons_self ..) hs
    simpa using h1
  | added _ parent name isdir u ops hp hdir hfree => exact hlog ops (accounted_added C.tree A hp hdir hfree)
  | unlinked _ dir d n ops hd hempty => exact hlog ops (accounted_unlinked C.tree A hd hempty)
  | moved env src dst fromdir todir f fn tn t ops hrep hsrc hto hdir ht hn hloop =>
    cases t with
    | none => exact hlog ops (A.of_same (moved_same C.tree hsrc hto (hn rfl) hloop) (fun _ _ => id))
    | some t =>
      obtain ⟨h1, h2, -, h4, h5⟩ := ht t rfl
      obtain ⟨hsrc', hto', hfree, hloop'⟩ := after_removed C.tree hsrc hto h1 h2 h4 h5 hloop
      have A' := accounted_removed C.tree A h1 h5 (hb.2 t (hrep t rfl))
      exact hlog ops (A'.of_same (moved_same (tree_removed C.tree h1 h5) hsrc' hto' (.inl hfree) hloop')
        (fun _ _ => id))
  | wrote h es hh hw => exact accounted_wrote A hw hb
  | closed h volume flushed hh => exact accounted_closed C A hh hb

theorem accounted_empty (blocksize : Nat) : Accounted ⟨emptyFs blocksize, []⟩ where
  dirs := fun _ _ => ⟨rfl, rfl⟩
  used := fun _ _ _ => rfl
  total := by
    rw [files_empty]
    rfl

theorem validBlocks_run {ops : List Op} (C : Counted v) (A : Accounted v) (h : Meets step Balanced v ops)
    (hclosed : (run step v ops).handles = []) :
    (run step v ops).fs.validBlocks =
      ∑ d ∈ files (run step v ops).fs, fsGetUsedBlocks (run step v ops).fs d := by
  have hstep : ∀ v op, Counted v ∧ Accounted v → Balanced v op →
      Counted (step v op) ∧ Accounted (step v op) := by
    rintro v op ⟨C, A⟩ hb
    have he := step_effect C.tree op hb.sound
    exact ⟨counted_effect C he, accounted_effect C A he hb⟩
  obtain ⟨C', A'⟩ := h.invariant hstep ⟨C, A⟩
  rw [A'.total]
  refine Finset.sum_congr rfl ?_
  intro d hd
  refine A'.used d ((mem_files C'.tree).mp hd).1 ?_
  rintro ⟨h, hh, -⟩
  simp [hclosed] at hh

/-- The file "/a" is made, one block is written to it, and it is closed. -/
theorem validBlocks_run_closed :
    let v := run step ⟨emptyFs 512, []⟩ [.create plainEnv ⟨[], ['a']⟩ false,
      .write ⟨1, true⟩ [⟨⟨4, 'b'⟩, 0, 512, 0⟩], .close ⟨1, true⟩ (.ok ()) none]
    v.fs.validBlocks = ∑ d ∈ files v.fs, fsGetUsedBlocks v.fs d := by
  refine validBlocks_run (counted_empty 512) (accounted_empty 512) ⟨createSound_plain ?_, ?_, ⟨?_, ?_⟩, trivial⟩ ?_
  · intro parent h
    obtain rfl : 0 = parent := Except.ok.inj h
    rfl
  · exact .inr (.inl ⟨⟨1, true⟩, by decide +kernel, rfl, rfl⟩)
  · intro _
    exact .inl ⟨fun _ => rfl, fun _ => ⟨[['a']], by decide +kernel⟩⟩
  · intro es h
    cases h
  · decide +kernel

/-- The file "/a" is written, unlinked and then closed: its block is counted though no file is left. -/
theorem validBlocks_stale :
    let v := run step ⟨emptyFs 512, []⟩ [.create plainEnv ⟨[], ['a']⟩ false,
      .write ⟨1, true⟩ [⟨⟨4, 'b'⟩, 0, 512, 0⟩], .unlink plainEnv ⟨[], ['a']⟩, .close ⟨1, true⟩ (.ok ()) none]
    v.handles = [] ∧ v.fs.validBlocks ≠ ∑ d ∈ files v.fs, fsGetUsedBlocks v.fs d := by
  intro v
  have hr : v.fs.root = 0 := by decide +kernel
  have h0 : v.fs.childList 0 = [] := by decide +kernel
  have hfiles : files v.fs = ∅ := by
    ext d
    simp only [files, Finset.mem_filter, Finset.notMem_empty, iff_false]
    rintro ⟨-, ⟨xs, hx⟩, hdir⟩
    rw [hr] at hx
    cases xs with
    | nil =>
      obtain rfl : 0 = d := Option.some.inj hx
      revert hdir
      decide +kernel
    | cons k ks => simp [Lib.Paths.follow, childOf, h0] at hx
  refine ⟨by decide +kernel, ?_⟩
  rw [hfiles, Finset.sum_empty]
  decide +kernel

end Ltfs.UsedBlocks
