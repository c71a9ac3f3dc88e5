import Ltfs.Lib.Run
import Ltfs.RenameSpec

namespace Ltfs.NamespaceRun

open Ltfs.Format Ltfs.Dentry Ltfs.Fsops Ltfs.LockSpec Ltfs.Handles Ltfs.DentryTree Ltfs.Lookup
  Ltfs.CreateSpec Ltfs.UnlinkSpec Ltfs.RenameLookup Ltfs.TreeSteps Ltfs.RenameSpec Ltfs.Lib.Run

/-- A reference held by a caller, and whether it will be closed as open for writing. The scheduler
has references of its own that are not. -/
structure Handle where
  dentry : Ino
  write : Bool
  deriving DecidableEq, Repr

structure Volume where
  fs : Fs
  handles : List Handle

inductive Op where
  | lookup (mem : WalkMem) (names : List Name)
  | create (env : Env) (path : Path) (isdir : Bool)
  | openFile (env : Env) (path : Path) (openWrite : Bool)
  | write (h : Handle) (extents : List ExtentInfo)
  | close (h : Handle) (volume : Except Error Unit) (flushed : Option (List ExtentInfo))
  | unlink (env : Env) (path : Path)
  | rename (env : Env) (src dst : Path)

/-- The dentry a successful call hands out becomes a handle of the caller. -/
def hand (v : Volume) (write : Bool) : Fs × Except Error Ino → Volume
  | (s, .ok d) => ⟨s, ⟨d, write⟩ :: v.handles⟩
  | (s, .error _) => { v with fs := s }

/-- One operation. Only a handle that is open is written through or closed, and
`ltfs_fsops_write` refuses a directory. -/
def step (v : Volume) : Op → Volume
  | .lookup mem names => hand v false (fsPathLookup {} mem v.fs names)
  | .create env path isdir => hand v (!isdir) (ltfsFsopsCreate env path isdir v.fs)
  | .openFile env path openWrite => hand v openWrite (ltfsFsopsOpen env path openWrite v.fs)
  | .write h es => if h ∈ v.handles ∧ v.fs.isdir h.dentry = false then
      { v with fs := v.fs.setExtents h.dentry es } else v
  | .close h volume flushed => if h ∈ v.handles then
      ⟨ltfsFsopsClose volume h.write flushed h.dentry v.fs, v.handles.erase h⟩ else v
  | .unlink env path => { v with fs := (ltfsFsopsUnlink env path v.fs).1 }
  | .rename env src dst => { v with fs := (ltfsFsopsRename env src dst v.fs).1 }

/-- An index as `ltfs_index_alloc` makes it, with a root and nothing else. -/
def emptyFs (blocksize : Nat) : Fs where
  live := fun d => d = 0
  isdir := fun d => d = 0
  isslink := fun _ => false
  name := fun d => if d = 0 then some ['/'] else none
  parent := fun _ => none
  childList := fun _ => []
  numhandles := fun d => if d = 0 then 1 else 0
  linkCount := fun d => if d = 0 then 2 else 0
  deleted := fun _ => false
  extentlist := fun _ => []
  usedBlocks := fun _ => 0
  root := 0
  nextIno := 1
  uidNumber := 1
  fileCount := 0
  validBlocks := 0
  blocksize := blocksize
  log := []

def openHandles (hs : List Handle) (d : Ino) : Nat := hs.countP (fun h => h.dentry = d)

/-- The entry of the new dentry is added with all its memory, in a directory that does not have
the name yet. -/
def CreateSound (env : Env) (path : Path) (s : Fs) : Prop :=
  ∀ p parent, CreateReaches env path s p parent →
    s.isdir parent ∧ childOf s parent p.name = none ∧ CanAdd env.mem.add (s.childList parent)

/-- The target is a name in a directory that was looked up with all its memory, and so are the
entries that are removed and added. -/
def RenameSound (env : Env) (src dst : Path) (s : Fs) : Prop :=
  ∀ p q fromdir todir f u, RenameReaches env src dst s p q fromdir todir f u →
    s.isdir todir ∧ u = childOf s todir q.name ∧ (distinct u f = none ∨ env.mem.dropDst = true) ∧
      env.mem.dropSrc = true ∧
        CanAdd env.mem.add (otherEntries (base s todir q.name (distinct u f)) fromdir todir f p.name)

/-- No directory is a file and no table runs out of memory. -/
def Sound (v : Volume) : Op → Prop
  | .create env path _ => CreateSound env path v.fs
  | .rename env src dst => RenameSound env src dst v.fs
  | _ => True

/-- The call unlinks this dentry to make room for the source. -/
def Replaced (env : Env) (src dst : Path) (s : Fs) (t : Ino) : Prop :=
  ∃ p q fromdir todir f u, RenameReaches env src dst s p q fromdir todir f u ∧ distinct u f = some t

/-- The operations change the tree in these ways only. -/
inductive Effect (v : Volume) : Op → Volume → Prop
  | same (op : Op) (u : UInt64) (ops : List LockOp) :
      Effect v op ⟨(withUid v.fs u).withLog ops, v.handles⟩
  | opened (op : Op) (d : Ino) (w : Bool) (ops : List LockOp) (hd : Linked v.fs d) :
      Effect v op ⟨(v.fs.withHandles {d}).withLog ops, ⟨d, w⟩ :: v.handles⟩
  | refused (op : Op) (d : Ino) (ops : List LockOp) (hd : Linked v.fs d) :
      Effect v op ⟨ltfsFsopsClose (.ok ()) true none d ((v.fs.withHandles {d}).withLog ops), v.handles⟩
  | added (op : Op) (parent : Ino) (name : Name) (isdir : Bool) (u : UInt64) (ops : List LockOp)
      (hp : Linked v.fs parent) (hdir : v.fs.isdir parent) (hfree : childOf v.fs parent name = none) :
      Effect v op ⟨(added v.fs u parent name isdir (newCount v.fs isdir (.ok ()))).withLog ops,
        ⟨v.fs.nextIno, !isdir⟩ :: v.handles⟩
  | unlinked (op : Op) (dir d : Ino) (n : Name) (ops : List LockOp) (hc : childOf v.fs dir n = some d)
      (hempty : v.fs.childList d = []) : Effect v op ⟨(unlinked v.fs dir d n).withLog ops, v.handles⟩
  | moved (env : Env) (src dst : Path) (fromdir todir f : Ino) (fn tn : Name) (t : Option Ino)
      (ops : List LockOp) (hrep : ∀ d, t = some d → Replaced env src dst v.fs d)
      (hc : childOf v.fs fromdir fn = some f) (hto : Linked v.fs todir) (hdir : v.fs.isdir todir)
      (ht : ∀ d, t = some d → childOf v.fs todir tn = some d ∧ d ≠ f ∧ d ≠ fromdir ∧ d ≠ todir ∧
        v.fs.childList d = [])
      (hn : t = none → childOf v.fs todir tn = none ∨ (todir = fromdir ∧ tn = fn))
      (hloop : ∀ zs, Lib.Paths.follow (childOf v.fs) f zs ≠ some todir) :
      Effect v (.rename env src dst)
        ⟨(moved (base v.fs todir tn t) fromdir todir f fn tn).withLog ops, v.handles⟩
  | wrote (h : Handle) (es : List ExtentInfo) (hh : h ∈ v.handles) (hw : v.fs.isdir h.dentry = false) :
      Effect v (.write h es) { v with fs := v.fs.setExtents h.dentry es }
  | closed (h : Handle) (volume : Except Error Unit) (flushed : Option (List ExtentInfo))
      (hh : h ∈ v.handles) : Effect v (.close h volume flushed)
        ⟨ltfsFsopsClose volume h.write flushed h.dentry v.fs, v.handles.erase h⟩

variable {v : Volume}

theorem effect_idle (v : Volume) (op : Op) (ops : List LockOp) :
    Effect v op { v with fs := v.fs.withLog ops } :=
  Effect.same op v.fs.uidNumber ops

theorem effect_refl (v : Volume) (op : Op) : Effect v op v := by
  have h := effect_idle v op []
  rw [withLog_nil] at h
  exact h

theorem lookup_effect (T : Tree v.fs) (mem : WalkMem) (names : List Name) :
    Effect v (.lookup mem names) (step v (.lookup mem names)) := by
  obtain ⟨ops, -, h⟩ := pathLookup_spec T mem 0 [] names
  simp only [withHandles_zero, withLog_nil, List.nil_append] at h
  cases hr : resolvePath mem v.fs names with
  | error e =>
    rw [hr] at h
    simp only [step, h, hand]
    exact effect_idle v _ ops
  | ok d =>
    rw [hr] at h
    simp only [step, h.2, hand]
    exact Effect.opened _ d false ops h.1

theorem create_effect (T : Tree v.fs) (env : Env) (path : Path) (isdir : Bool)
    (hs : CreateSound env path v.fs) :
    Effect v (.create env path isdir) (step v (.create env path isdir)) := by
  by_cases hr : ∃ p parent, CreateReaches env path v.fs p parent
  · obtain ⟨p, parent, hr⟩ := hr
    obtain ⟨hdir, hfree, hadd⟩ := hs p parent hr
    obtain ⟨ops, -, hp, heq⟩ := create_reaches T isdir hr
    rw [addKey_ok hadd] at heq
    simp only [step, heq, hand, Except.map]
    exact Effect.added _ parent p.name isdir _ ops hp hdir hfree
  · obtain ⟨e, u, ops, -, heq⟩ := create_stops T isdir (fun p parent h => hr ⟨p, parent, h⟩)
    simp only [step, heq, hand]
    exact Effect.same _ u ops

theorem unlink_effect (T : Tree v.fs) (env : Env) (path : Path) :
    Effect v (.unlink env path) (step v (.unlink env path)) := by
  by_cases hr : ∃ p d, UnlinkReaches env path v.fs p d
  · obtain ⟨p, d, hr⟩ := hr
    by_cases hd : v.fs.isdir d ∧ v.fs.childList d ≠ []
    · obtain ⟨ops, -, heq⟩ := unlink_nonempty T hr hd
      simp only [step, heq]
      exact effect_idle v _ ops
    · cases hk : env.mem.dropSrc with
      | false =>
        obtain ⟨ops, -, heq⟩ := unlink_missed T hr hd hk
        simp only [step, heq]
        exact effect_idle v _ ops
      | true =>
        obtain ⟨ops, parent, n, -, hc, heq⟩ := unlink_done T hr hd hk
        simp only [step, heq]
        refine Effect.unlinked _ parent d n ops hc ?_
        by_contra hl
        exact hd ⟨(T.owned hl).2, hl⟩
  · obtain ⟨e, ops, -, heq⟩ := unlink_stops T (fun p d h => hr ⟨p, d, h⟩)
    simp only [step, heq]
    exact effect_idle v _ ops

theorem rename_effect (T : Tree v.fs) (env : Env) (src dst : Path) (hs : RenameSound env src dst v.fs) :
    Effect v (.rename env src dst) (step v (.rename env src dst)) := by
  by_cases he : ∃ p q fromdir todir, RenameEnters env src dst v.fs p q fromdir todir
  · obtain ⟨p, q, fromdir, todir, he⟩ := he
    by_cases hr : ∃ f u, RenameReaches env src dst v.fs p q fromdir todir f u
    · obtain ⟨f, u, hr⟩ := hr
      obtain ⟨hdir, hu, hk, hk', hadd⟩ := hs p q fromdir todir f u hr
      obtain ⟨ops, -, heq⟩ := rename_adds T hr hk hk'
      rw [addAnswer, addKey_ok hadd] at heq
      simp only [step, heq]
      refine Effect.moved env src dst fromdir todir f p.name q.name (distinct u f) ops ?_ (reaches_source hr)
        (reaches_dirs T hr).2 hdir ?_ ?_ (reaches_loop T hr)
      · intro d hd
        exact ⟨p, q, fromdir, todir, f, u, hr, hd⟩
      · intro d hd
        obtain ⟨h1, h2, h3, h4, h5, -⟩ := reaches_target T hr hd
        exact ⟨h1, h2, h3, h4, h5⟩
      · intro hd
        subst hu
        cases ht : childOf v.fs todir q.name with
        | none => exact .inl rfl
        | some t =>
          have htf : t = f := by
            by_contra hne
            simp [distinct, ht, hne] at hd
          exact .inr (T.forest.unique (htf ▸ ht) (reaches_source hr))
    · obtain ⟨e, ops, -, heq⟩ := rename_refused T he (fun f u h => hr ⟨f, u, h⟩)
      simp only [step, heq]
      exact effect_idle v _ ops
  · obtain ⟨e, ops, -, heq⟩ := rename_outside T
      (fun p q fromdir todir h => he ⟨p, q, fromdir, todir, h⟩)
    simp only [step, heq]
    exact effect_idle v _ ops

theorem open_effect (T : Tree v.fs) (env : Env) (path : Path) (w : Bool) :
    Effect v (.openFile env path w) (step v (.openFile env path w)) := by
  simp only [step, ltfsFsopsOpen]
  cases hw : (if w = true then env.writable else .ok ()) with
  | error e => exact effect_refl v _
  | ok _ =>
    cases hf : env.formatSource path with
    | error e => exact effect_refl v _
    | ok p =>
      cases hv : env.volume with
      | error e => exact effect_refl v _
      | ok _ =>
        obtain ⟨ops, -, h⟩ := pathLookup_spec T env.mem.src 0 [.acquire .volume .read] p.names
        simp only [withHandles_zero] at h
        cases hr : resolvePath env.mem.src v.fs p.names with
        | error e =>
          rw [hr] at h
          simp only [acquire_eq, h, release_eq, withLog_withLog, hand]
          exact effect_idle v _ _
        | ok d =>
          rw [hr] at h
          obtain ⟨hl, h⟩ := h
          simp only [acquire_eq, h, release_eq, withLog_withLog]
          by_cases hs : w = true ∧ v.fs.isslink d = true
          · obtain ⟨rfl, hs⟩ := hs
            simp only [Fs.withLog_isslink, Fs.withHandles_isslink, hs, and_self, if_true, hand]
            exact Effect.refused _ d _ hl
          · simp only [Fs.withLog_isslink, Fs.withHandles_isslink, hs, if_false, hand]
            exact Effect.opened _ d w _ hl

theorem step_effect (T : Tree v.fs) (op : Op) (hs : Sound v op) : Effect v op (step v op) := by
  cases op with
  | lookup mem names => exact lookup_effect T mem names
  | create env path isdir => exact create_effect T env path isdir hs
  | openFile env path w => exact open_effect T env path w
  | write h es =>
    simp only [step]
    split
    next hh => exact Effect.wrote h es hh.1 hh.2
    · exact effect_refl v _
  | close h volume flushed =>
    simp only [step]
    split
    next hh => exact Effect.closed h volume flushed hh
    · exact effect_refl v _
  | unlink env path => exact unlink_effect T env path
  | rename env src dst => exact rename_effect T env src dst hs

/-- A call that is refused nothing. -/
def plainEnv : Env where
  writable := .ok ()
  ready := .ok ()
  volume := .ok ()
  format := .ok
  iosched := false
  mem := {}

theorem createSound_plain {s : Fs} {path : Path}
    (h : ∀ parent, resolvePath {} s path.dir = .ok parent → s.isdir parent) :
    CreateSound plainEnv path s := by
  intro p parent hr
  obtain rfl : path = p := Except.ok.inj hr.format
  exact ⟨h parent hr.dir, hr.add.2.1, rfl, rfl, ite_self _⟩

theorem renameSound_plain {s : Fs} {src dst : Path}
    (h : ∀ todir, resolvePath {} s dst.dir = .ok todir → s.isdir todir) : RenameSound plainEnv src dst s := by
  intro p q fromdir todir f u hr
  obtain rfl : dst = q := Except.ok.inj hr.formatDst
  exact ⟨h todir hr.dstDir, (looked_ok hr.found).2.1, .inr rfl, rfl, rfl, rfl, ite_self _⟩

theorem linked_empty {blocksize : Nat} {d : Ino} : Linked (emptyFs blocksize) d ↔ d = 0 := by
  constructor
  · rintro ⟨xs, hx⟩
    cases xs with
    | nil => exact (Option.some.inj hx).symm
    | cons k ks => simp [childOf_nil (s := emptyFs blocksize) rfl] at hx
  · rintro rfl
    exact Lib.Paths.reached_root

theorem tree_empty (blocksize : Nat) : Tree (emptyFs blocksize) where
  root_parent := rfl
  root_dir := rfl
  entry := fun hm => absurd hm List.not_mem_nil
  listed := fun hp => nomatch hp
  keys := fun _ => List.nodup_nil
  linked := fun hp => nomatch hp
  owned := fun hp => absurd rfl hp
  counted := by
    intro c hc
    rw [linked_empty.mp hc]
    exact Nat.one_pos
  known := by
    intro c hc
    rw [linked_empty.mp hc]
    exact Nat.one_pos
  alive := by
    intro c hc
    rw [linked_empty.mp hc]
    rfl

end Ltfs.NamespaceRun
