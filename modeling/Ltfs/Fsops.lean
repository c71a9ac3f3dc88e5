import Ltfs.Dentry

namespace Ltfs.Fsops

open Ltfs.Format Ltfs.Dentry

/-- An absolute path as `fs_split_path` leaves it: the names before the last slash and the text
after it. "/a/b" has `dir` "a" and `name` "b"; "/" has no `dir` and an empty `name`. -/
structure Path where
  dir : List Name
  name : Name
  deriving DecidableEq, Repr

def Path.names (p : Path) : List Name := p.dir ++ [p.name]

/-- Which allocations of a call succeed. An operation with one path uses the `src` part. -/
structure Mem where
  src : WalkMem := {}
  dst : WalkMem := {}
  findSrc : Bool := true
  findDst : Bool := true
  dropSrc : Bool := true
  dropDst : Bool := true
  copies : Bool := true
  dentry : Bool := true
  locks : Bool := true
  add : AddMem := {}

/-- What a call gets from the rest of the library: `ltfs_get_tape_readonly`,
`ltfs_test_unit_ready`, `ltfs_get_volume_lock`, `pathname_format`, `iosched_initialized` and the
allocator. There is no dentry cache. -/
structure Env where
  writable : Except Error Unit
  ready : Except Error Unit
  volume : Except Error Unit
  format : Path → Except Error Path
  iosched : Bool
  mem : Mem

/-- A nearly full medium does not stop `ltfs_fsops_unlink` and `ltfs_fsops_rename`. -/
def tolerateLessSpace : Except Error Unit → Except Error Unit
  | .error .lessSpace => .ok ()
  | r => r

def Env.formatSource (env : Env) (p : Path) : Except Error Path :=
  match env.format p with
  | .error .invalidPath => .error .invalidSrcPath
  | r => r

/-- The counters and the parent of a new dentry. -/
def linkDentry (parent d : Ino) (isdir : Bool) (s : Fs) : Fs :=
  let s := ((s.setParent d (some parent)).incLink d).getHandle d
  if isdir then s.incLink parent else s

/-- The end of `ltfs_fsops_create` after the parent directory is found and locked. -/
def createIn (mem : Mem) (parent : Ino) (name : Name) (isdir : Bool) (s : Fs) :
    Fs × Except Error Ino :=
  let dispose := fun s : Fs => fsReleaseDentry (s.release (.contents parent) .write) parent
  match fsDirectoryLookup mem.findSrc s parent name with
  | (s, .error e) => (dispose s, .error e)
  | (s, .ok (some d)) =>
    (fsReleaseDentry (fsReleaseDentry (s.release (.contents parent) .write) d) parent,
      .error .dentryExists)
  | (s, .ok none) =>
    match fsAllocateDentry mem.dentry mem.locks s name isdir with
    | (s, none) => (dispose s, .error .noMemory)
    | (s, some d) =>
      let s := (s.acquire (.metadata parent) .write).acquire (.metadata d) .write
      let s := linkDentry parent d isdir s
      match fsAddKeyToHashTable mem.add (s.childList parent) name d with
      | (es, r) =>
        let s := s.setChildList parent es
        let s := (s.release (.metadata d) .write).release (.metadata parent) .write
        match r with
        | .error e => (dispose s, .error e)
        | .ok () => (dispose (if isdir then s else fsIncrementFileCount s), .ok d)

def ltfsFsopsCreate (env : Env) (path : Path) (isdir : Bool) (s : Fs) : Fs × Except Error Ino :=
  match env.writable with
  | .error e => (s, .error e)
  | .ok () => match env.ready with
    | .error e => (s, .error e)
    | .ok () => match env.format path with
      | .error e => (s, .error e)
      | .ok path => match env.volume with
        | .error e => (s, .error e)
        | .ok () =>
          let s := s.acquire .volume .read
          match fsPathLookup { dentryContentsW := true } env.mem.src s path.dir with
          | (s, .error e) => (s.release .volume .read, .error e)
          | (s, .ok parent) => match createIn env.mem parent path.name isdir s with
            | (s, r) => (s.release .volume .read, r)

/-- The lock taken to see whether a directory is empty. -/
def checkEmpty (d : Ino) (s : Fs) : Fs :=
  if s.isdir d then (s.acquire (.contents d) .read).release (.contents d) .read else s

/-- The entry is removed and the link of the dentry given back. -/
def unlinkEntry (parent d : Ino) (e : Name × Ino) (s : Fs) : Fs :=
  let s := s.setChildList parent ((s.childList parent).erase e)
  let s := ((s.setDeleted d).setParent d none).decLink d
  (if s.isdir d then s.decLink parent else s).putHandle d

def uncountDentry (d : Ino) (s : Fs) : Fs :=
  let s := if s.isdir d then s else fsDecrementFileCount s
  { s with validBlocks := s.validBlocks - s.usedBlocks d }

/-- `ltfs_fsops_unlink` after the dentry `d` in `parent` is found. The result is the value of
`ret` at the label `out`. -/
def unlinkFound (mem : Mem) (parent d : Ino) (s : Fs) : Fs × Except Error Unit :=
  if s.isdir d ∧ s.childList d ≠ [] then (checkEmpty d s, .error .dirNotEmpty)
  else
    let s := ((checkEmpty d s).acquire (.metadata parent) .write).acquire (.metadata d) .write
    match fsFindKeyFromHashTable mem.dropSrc (s.childList parent) (s.name d) with
    | none => (s.release (.metadata d) .write, .ok ())
    | some e => (uncountDentry d ((unlinkEntry parent d e s).release (.metadata d) .write), .ok ())

def ltfsFsopsUnlink (env : Env) (path : Path) (s : Fs) : Fs × Except Error Unit :=
  match tolerateLessSpace env.writable with
  | .error e => (s, .error e)
  | .ok () => match env.ready with
    | .error e => (s, .error e)
    | .ok () => match env.formatSource path with
      | .error e => (s, .error e)
      | .ok path => if path.names = [[]] then (s, .error .unlinkRoot) else match env.volume with
        | .error e => (s, .error e)
        | .ok () =>
          let s := s.acquire .volume .read
          match fsPathLookup { parentContentsW := true } env.mem.src s path.names with
          | (s, .error e) => (s.release .volume .read, .error e)
          | (s, .ok d) =>
            -- `d->parent` is set: a dentry found below the root has a parent
            let parent := (s.parent d).getD s.root
            match unlinkFound env.mem parent d s with
            | (s, r) =>
              let s := fsReleaseDentryUnlocked (s.release (.contents parent) .write) parent
              (fsReleaseDentry (s.release .volume .read) d, r)

/-- A handle on a dentry that may be the directory `dir`, whose `meta_lock` is already held. -/
def releaseFound (s : Fs) (d dir : Ino) : Fs :=
  if d = dir then s.putHandle d else fsReleaseDentry s d

def releaseTarget (s : Fs) (todentry : Option Ino) (dir : Ino) : Fs :=
  match todentry with
  | none => s
  | some t => releaseFound s t dir

def acquireDir (s : Fs) (d : Ino) : Fs :=
  (s.acquire (.contents d) .write).acquire (.metadata d) .write

def acquireOther (s : Fs) (d dir : Ino) : Fs := if d ≠ dir then acquireDir s d else s

/-- The source is looked up after the target. -/
def findSource (mem : Mem) (fromdir : Ino) (fromName : Name) (todentry : Option Ino) (s : Fs) :
    Fs × Except Error (Ino × Option Ino) :=
  match fsDirectoryLookup mem.findSrc s fromdir fromName with
  | (s, .ok (some fromdentry)) => (s, .ok (fromdentry, todentry))
  | (s, _) => (releaseTarget s todentry fromdir, .error .noDentry)

/-- The target directory is the source directory or lies above it, and is locked first. -/
def renameLookupUp (mem : Mem) (fromdir todir : Ino) (fromName toName : Name) (s : Fs) :
    Fs × Except Error (Ino × Option Ino) :=
  match fsDirectoryLookup mem.findDst (acquireDir s todir) todir toName with
  | (s, .error e) => (acquireOther s fromdir todir, .error e)
  | (s, .ok todentry) => findSource mem fromdir fromName todentry (acquireOther s fromdir todir)

def renameLookupDown (mem : Mem) (fromdir todir : Ino) (fromName toName : Name) (s : Fs) :
    Fs × Except Error (Ino × Option Ino) :=
  match fsDirectoryLookup mem.findSrc (acquireDir s fromdir) fromdir fromName with
  | (s, .error e) => (acquireDir s todir, .error e)
  | (s, .ok none) => (acquireDir s todir, .error .noDentry)
  | (s, .ok (some fromdentry)) =>
    match fsDirectoryLookup mem.findDst (acquireDir s todir) todir toName with
    | (s, .error e) => (releaseFound s fromdentry todir, .error e)
    | (s, .ok todentry) => (s, .ok (fromdentry, todentry))

/-- Both directories are locked, the upper one first, and both names looked up. -/
def renameLookup (mem : Mem) (fromdir todir : Ino) (fromName toName : Name) (s : Fs) :
    Fs × Except Error (Ino × Option Ino) :=
  if todir = fromdir ∨ fsIsPredecessor s todir fromdir then
    renameLookupUp mem fromdir todir fromName toName s
  else renameLookupDown mem fromdir todir fromName toName s

/-- The failure cases that depend on how source and target lie in the tree. -/
def renameCheck (s : Fs) (fromdir todir fromdentry : Ino) (todentry : Option Ino) : Option Error :=
  if fromdentry = todir ∨ fsIsPredecessor s fromdentry todir then some .renameLoop
  else match todentry with
    | none => none
    | some t => if t = fromdir ∨ fsIsPredecessor s t fromdir then
        some (if s.isdir fromdentry then .dirNotEmpty else .isFile)
      else none

/-- The link of the replaced dentry is given back, before its entry is looked for. -/
def dropTarget (todir t : Ino) (s : Fs) : Fs :=
  let s := if s.isdir t then s.decLink todir else s
  (((s.putHandle t).decLink t).setParent t none).setDeleted t

/-- The existing target is unlinked. An exit is the value of `ret` on the way to `out_unlock`,
where `none` stands for 0. -/
def renameReplace (mem : Mem) (todir fromdentry t : Ino) (s : Fs) : Fs × Except (Option Error) Unit :=
  if s.isdir t ∧ s.childList t ≠ [] then
    (fsReleaseDentry (fsReleaseDentry (checkEmpty t s) fromdentry) t, .error (some .dirNotEmpty))
  else
    let s := dropTarget todir t ((checkEmpty t s).acquire (.metadata t) .write)
    match fsFindKeyFromHashTable mem.dropDst (s.childList todir) (s.name t) with
    | none => (s.release (.metadata t) .write, .error none)
    | some e =>
      let s := s.setChildList todir ((s.childList todir).erase e)
      -- the source tests the directory, not the replaced dentry
      let s := if s.isdir todir then s else fsDecrementFileCount s
      (fsReleaseDentryUnlocked s t, .ok ())

/-- The source is taken from the table of its directory and gets its new parent and name. -/
def moveEntry (fromdir todir fromdentry : Ino) (e : Name × Ino) (toName : Name) (s : Fs) : Fs :=
  let s := s.setChildList fromdir ((s.childList fromdir).erase e)
  let s := if s.isdir fromdentry then (s.decLink fromdir).incLink todir else s
  (s.setParent fromdentry (some todir)).setName fromdentry (some toName)

def renameMove (mem : Mem) (iosched : Bool) (fromdir todir fromdentry : Ino) (toName : Name) (s : Fs) :
    Fs × Except (Option Error) Unit :=
  let s := s.acquire (.metadata fromdentry) .write
  match fsFindKeyFromHashTable mem.dropSrc (s.childList fromdir) (s.name fromdentry) with
  | none => (s.release (.metadata fromdentry) .write, .error none)
  | some e =>
    let s := moveEntry fromdir todir fromdentry e toName s
    match fsAddKeyToHashTable mem.add (s.childList todir) toName fromdentry with
    | (es, r) =>
      let s := s.setChildList todir es
      match r with
      | .error e => (s.release (.metadata fromdentry) .write, .error (some e))
      | .ok () =>
        (if iosched then s.release (.metadata fromdentry) .write
          else fsReleaseDentryUnlocked s fromdentry, .ok ())

/-- What follows the lookups, up to `out_unlock`. -/
def renameFound (env : Env) (fromdir todir fromdentry : Ino) (todentry : Option Ino) (toName : Name)
    (s : Fs) : Fs × Except (Option Error) Unit :=
  match renameCheck s fromdir todir fromdentry todentry with
  | some e => (releaseTarget (releaseFound s fromdentry todir) todentry fromdir, .error (some e))
  | none =>
    let r : Fs × Except (Option Error) Unit := match todentry with
      | none => (s, .ok ())
      | some t => if t = fromdentry then (fsReleaseDentry s t, .ok ())
        else renameReplace env.mem todir fromdentry t s
    match r with
    | (s, .error e) => (s, .error e)
    | (s, .ok ()) => renameMove env.mem env.iosched fromdir todir fromdentry toName s

def renameUnlock (fromdir todir : Ino) (s : Fs) : Fs :=
  let s := s.release (.contents fromdir) .write
  let s := if fromdir ≠ todir then s.release (.contents todir) .write else s
  let s := fsReleaseDentryUnlocked s fromdir
  if todir = fromdir then fsReleaseDentry s todir else fsReleaseDentryUnlocked s todir

/-- From `out_unlock` to the end, after the source was found. -/
def renameFinish (iosched : Bool) (fromdir todir fromdentry : Ino) :
    Fs × Except (Option Error) Unit → Fs × Except Error Unit
  | (s, .error (some e)) => ((renameUnlock fromdir todir s).release .volume .read, .error e)
  | (s, _) =>
    let s := (renameUnlock fromdir todir s).release .volume .read
    (if iosched then fsReleaseDentry s fromdentry else s, .ok ())

def renameDirs (env : Env) (fromdir todir : Ino) (src dst : Path) (s : Fs) : Fs × Except Error Unit :=
  match renameLookup env.mem fromdir todir src.name dst.name s with
  | (s, .error e) => ((renameUnlock fromdir todir s).release .volume .read, .error e)
  | (s, .ok (fromdentry, todentry)) => renameFinish env.iosched fromdir todir fromdentry
      (renameFound env fromdir todir fromdentry todentry dst.name s)

def ltfsFsopsRename (env : Env) (src dst : Path) (s : Fs) : Fs × Except Error Unit :=
  match tolerateLessSpace env.writable with
  | .error e => (s, .error e)
  | .ok () => match env.ready with
    | .error e => (s, .error e)
    | .ok () => match env.formatSource src with
      | .error e => (s, .error e)
      | .ok src => match env.format dst with
        | .error e => (s, .error e)
        | .ok dst => if !env.mem.copies then (s, .error .noMemory) else match env.volume with
          | .error e => (s, .error e)
          | .ok () =>
            let s := s.acquire .volume .read
            match fsPathLookup {} env.mem.src s src.dir with
            | (s, .error e) => (s.release .volume .read, .error e)
            | (s, .ok fromdir) => match fsPathLookup {} env.mem.dst s dst.dir with
              | (s, .error e) =>
                let s := fsReleaseDentryUnlocked (s.acquire (.metadata fromdir) .write) fromdir
                (s.release .volume .read, .error e)
              | (s, .ok todir) => renameDirs env fromdir todir src dst s

/-- `ltfs_fsops_update_used_blocks`. -/
def ltfsFsopsUpdateUsedBlocks (volume : Except Error Unit) (d : Ino) (s : Fs) : Fs :=
  let used := fsGetUsedBlocks s d
  let diff := used - s.usedBlocks d
  let s := (s.acquire (.contents d) .read).acquire (.metadata d) .write
  let s := { s with usedBlocks := Function.update s.usedBlocks d used }
  let s := (s.release (.metadata d) .write).release (.contents d) .read
  match volume with
  | .error _ => s
  | .ok () =>
    let s := s.acquire .volume .read
    ({ s with validBlocks := s.validBlocks + diff }).release .volume .read

/-- `ltfs_fsops_close` up to the release of the dentry. `flushed` holds the extents of the file
after the scheduler has written what it still held, if it held anything; a directory is not passed
to the scheduler. -/
def closeUpdate (volume : Except Error Unit) (openWrite : Bool) (flushed : Option (List ExtentInfo))
    (d : Ino) (s : Fs) : Fs :=
  let s := if openWrite then ltfsFsopsUpdateUsedBlocks volume d s else s
  match flushed with
  | none => s
  | some es => if s.isdir d then s else s.setExtents d es

def ltfsFsopsClose (volume : Except Error Unit) (openWrite : Bool) (flushed : Option (List ExtentInfo))
    (d : Ino) (s : Fs) : Fs := fsReleaseDentry (closeUpdate volume openWrite flushed d s) d

/-- `ltfs_fsops_open`. -/
def ltfsFsopsOpen (env : Env) (path : Path) (openWrite : Bool) (s : Fs) : Fs × Except Error Ino :=
  match if openWrite then env.writable else .ok () with
  | .error e => (s, .error e)
  | .ok () => match env.formatSource path with
    | .error e => (s, .error e)
    | .ok path => match env.volume with
      | .error e => (s, .error e)
      | .ok () =>
        match fsPathLookup {} env.mem.src (s.acquire .volume .read) path.names with
        | (s, .error e) => (s.release .volume .read, .error e)
        | (s, .ok d) =>
          let s := s.release .volume .read
          if openWrite ∧ s.isslink d then (ltfsFsopsClose env.volume openWrite none d s, .error .readOnly)
          else (s, .ok d)

end Ltfs.Fsops
