import Mathlib.Logic.Function.Basic
import Ltfs.Format

namespace Ltfs.Dentry

open Ltfs.Format

/-- The address of a `struct dentry`. -/
abbrev Ino := Nat

/-- A file name in its normalized form, by code points. -/
abbrev Name := List Char

/-- `LTFS_FILENAME_MAX`. -/
def filenameMax : Nat := 255

inductive Error where
  | noMemory
  | noDentry
  | nameTooLong
  | dentryExists
  | dirNotEmpty
  | unlinkRoot
  | renameLoop
  | isFile
  | invalidPath
  | invalidSrcPath
  | lessSpace
  | readOnly
  | other (code : Nat)
  deriving DecidableEq, Repr

inductive Mode where
  | read
  | write
  deriving DecidableEq, Repr

/-- The `MultiReaderSingleWriter` locks: `vol->lock`, and `contents_lock` and `meta_lock` of a
dentry. -/
inductive Lock where
  | volume
  | contents (d : Ino)
  | metadata (d : Ino)
  deriving DecidableEq, Repr

inductive LockOp where
  | acquire (l : Lock) (m : Mode)
  | release (l : Lock) (m : Mode)
  deriving DecidableEq, Repr

abbrev Entries := List (Name × Ino)

/-- The dentries and the index, field by field, with the lock operations done so far. A freed
address is not used again. -/
@[ext]
structure Fs where
  live : Ino → Bool
  isdir : Ino → Bool
  isslink : Ino → Bool
  name : Ino → Option Name
  parent : Ino → Option Ino
  childList : Ino → Entries
  numhandles : Ino → Nat
  linkCount : Ino → Nat
  deleted : Ino → Bool
  extentlist : Ino → List ExtentInfo
  usedBlocks : Ino → UInt64
  root : Ino
  nextIno : Ino
  uidNumber : UInt64
  fileCount : Nat
  validBlocks : UInt64
  blocksize : Nat
  log : List LockOp

namespace Fs

def acquire (s : Fs) (l : Lock) (m : Mode) : Fs := { s with log := s.log ++ [.acquire l m] }

def release (s : Fs) (l : Lock) (m : Mode) : Fs := { s with log := s.log ++ [.release l m] }

def getHandle (s : Fs) (d : Ino) : Fs :=
  { s with numhandles := Function.update s.numhandles d (s.numhandles d + 1) }

def putHandle (s : Fs) (d : Ino) : Fs :=
  { s with numhandles := Function.update s.numhandles d (s.numhandles d - 1) }

def setParent (s : Fs) (d : Ino) (p : Option Ino) : Fs :=
  { s with parent := Function.update s.parent d p }

def setName (s : Fs) (d : Ino) (n : Option Name) : Fs :=
  { s with name := Function.update s.name d n }

def setChildList (s : Fs) (d : Ino) (es : Entries) : Fs :=
  { s with childList := Function.update s.childList d es }

def incLink (s : Fs) (d : Ino) : Fs :=
  { s with linkCount := Function.update s.linkCount d (s.linkCount d + 1) }

def decLink (s : Fs) (d : Ino) : Fs :=
  { s with linkCount := Function.update s.linkCount d (s.linkCount d - 1) }

def setDeleted (s : Fs) (d : Ino) : Fs :=
  { s with deleted := Function.update s.deleted d true }

def setExtents (s : Fs) (d : Ino) (es : List ExtentInfo) : Fs :=
  { s with extentlist := Function.update s.extentlist d es }

end Fs

def fsIncrementFileCount (s : Fs) : Fs := { s with fileCount := s.fileCount + 1 }

def fsDecrementFileCount (s : Fs) : Fs := { s with fileCount := s.fileCount - 1 }

/-- Which allocations of a call of `fs_add_key_to_hash_table` succeed: the list entry, the copy
of the key, the table of a first entry, and the larger bucket array if one is needed. -/
structure AddMem where
  entry : Bool := true
  key : Bool := true
  table : Bool := true
  expand : Bool := true

/-- Which allocations of a call of `fs_path_lookup` succeed: the copy of the path, and the key
copied for each name, numbered by the names that follow. -/
structure WalkMem where
  copy : Bool := true
  key : Nat → Bool := fun _ => true

-- `generate_hash_key_name` reports success when `strdup` fails, and the search is skipped.
def fsFindKeyFromHashTable (key : Bool) (list : Entries) (name : Option Name) : Option (Name × Ino) :=
  if key then list.find? (fun e => some e.1 == name) else none

def fsAddKeyToHashTable (mem : AddMem) (list : Entries) (name : Name) (d : Ino) :
    Entries × Except Error Unit :=
  if !mem.entry then (list, .error .noMemory)
  -- `*rc` stays 0 when the key cannot be copied
  else if !mem.key then (list, .ok ())
  else match list with
    | [] => if mem.table then ([(name, d)], .ok ()) else ([], .error .noMemory)
    -- the entry is in its bucket before the bucket array grows
    | e :: es => ((name, d) :: e :: es, if mem.expand then .ok () else .error .noMemory)

/-- `_fs_dispose_dentry_contents` with `gc` unset. The depth bounds the nesting of directories;
the copy of the key is taken to succeed. -/
def fsDisposeDentryContents : Nat → Fs → Ino → Bool → Fs
  | 0, s, _, _ => s
  | depth + 1, s, d, unlock =>
    let s := (s.childList d).foldl (fun s e =>
      if s.numhandles e.2 ≠ 1 then s.setParent e.2 none
      else fsDisposeDentryContents depth (s.putHandle e.2) e.2 false) s
    let s := match s.parent d with
      | none => s
      | some p => match fsFindKeyFromHashTable true (s.childList p) (s.name d) with
        | some e => (s.setChildList p ((s.childList p).erase e)).setParent d none
        | none => s.setParent d none
    let s := s.setName d none
    let s := if unlock then s.release (.metadata d) .write else s
    { s.setChildList d [] with live := Function.update s.live d false }

def fsReleaseDentryUnlocked (s : Fs) (d : Ino) : Fs :=
  let s := s.putHandle d
  if s.numhandles d ≠ 0 then s.release (.metadata d) .write
  else fsDisposeDentryContents (s.nextIno + 1) s d true

def fsReleaseDentry (s : Fs) (d : Ino) : Fs :=
  fsReleaseDentryUnlocked (s.acquire (.metadata d) .write) d

def fsDirectoryLookup (key : Bool) (s : Fs) (basedir : Ino) (name : Name) :
    Fs × Except Error (Option Ino) :=
  if filenameMax < name.length then (s, .error .nameTooLong)
  else if s.childList basedir = [] then (s, .ok none)
  else match fsFindKeyFromHashTable key (s.childList basedir) (some name) with
    | none => (s, .ok none)
    | some e =>
      (((s.acquire (.metadata e.2) .write).getHandle e.2).release (.metadata e.2) .write,
        .ok (some e.2))

/-- `LOCK_PARENT_CONTENTS_W` and `LOCK_DENTRY_CONTENTS_W`; the other flags are not used by the
operations below. -/
structure LookupFlags where
  parentContentsW : Bool := false
  dentryContentsW : Bool := false

def LookupFlags.mode (flags : LookupFlags) (rest : List Name) : Mode :=
  if rest = [] ∧ flags.parentContentsW then .write else .read

def releaseParent (s : Fs) : Option Ino → Fs
  | none => s
  | some p => s.release (.contents p) .read

/-- The loop of `fs_path_lookup`: `d` is the directory in which the next name is looked up and
`parent` the one before it, whose `contents_lock` is still held. -/
def pathWalk (flags : LookupFlags) (key : Nat → Bool) :
    List Name → Fs → Option Ino → Ino → Fs × Except Error (Option Ino × Ino)
  | [], s, parent, d => (s, .ok (parent, d))
  | name :: rest, s, parent, d =>
    let s := releaseParent (s.acquire (.contents d) (flags.mode rest)) parent
    match fsDirectoryLookup (key rest.length) s d name with
    | (s, .error e) => (fsReleaseDentry (s.release (.contents d) (flags.mode rest)) d, .error e)
    | (s, .ok none) =>
      (fsReleaseDentry (s.release (.contents d) (flags.mode rest)) d, .error .noDentry)
    | (s, .ok (some c)) =>
      let s := if rest ≠ [] ∨ !flags.parentContentsW then
          ((s.acquire (.metadata d) .write).putHandle d).release (.metadata d) .write
        else s
      pathWalk flags key rest s (some d) c

def fsPathLookup (flags : LookupFlags) (mem : WalkMem) (s : Fs) (names : List Name) :
    Fs × Except Error Ino :=
  if !mem.copy then (s, .error .noMemory)
  else
    let s := ((s.acquire (.metadata s.root) .write).getHandle s.root).release (.metadata s.root) .write
    -- the path is "" or "/"
    let r : Fs × Except Error Ino := if names = [] ∨ names = [[]] then (s, .ok s.root)
      else match pathWalk flags mem.key names s none s.root with
        | (s, .error e) => (s, .error e)
        | (s, .ok (parent, d)) =>
          (if flags.parentContentsW then s else releaseParent s parent, .ok d)
    match r with
    | (s, .error e) => (s, .error e)
    | (s, .ok d) => (if flags.dentryContentsW then s.acquire (.contents d) .write else s, .ok d)

/-- A dentry and its parents, as far as the parent pointers lead. -/
def parents (s : Fs) : Nat → Ino → List Ino
  | 0, _ => []
  | depth + 1, d => d :: match s.parent d with
    | none => []
    | some p => parents s depth p

/-- `fs_is_predecessor`. -/
def fsIsPredecessor (s : Fs) (d1 d2 : Ino) : Bool :=
  (parents s (s.nextIno + 1) d2).contains d1

def fsAllocateUid (s : Fs) : Fs × UInt64 :=
  if s.uidNumber = 0 then (s, 0)
  else ({ s with uidNumber := s.uidNumber + 1 }, s.uidNumber + 1)

/-- The fields of a new dentry. -/
def initDentry (s : Fs) (name : Name) (isdir : Bool) : Fs :=
  { s with
    live := Function.update s.live s.nextIno true
    isdir := Function.update s.isdir s.nextIno isdir
    isslink := Function.update s.isslink s.nextIno false
    name := Function.update s.name s.nextIno (some name)
    parent := Function.update s.parent s.nextIno none
    childList := Function.update s.childList s.nextIno []
    numhandles := Function.update s.numhandles s.nextIno 1
    linkCount := Function.update s.linkCount s.nextIno (if isdir then 1 else 0)
    deleted := Function.update s.deleted s.nextIno false
    extentlist := Function.update s.extentlist s.nextIno []
    usedBlocks := Function.update s.usedBlocks s.nextIno 0
    nextIno := s.nextIno + 1 }

/-- `fs_allocate_dentry` without a parent: `mem` and `locks` say whether the memory of the
dentry and its names is there and whether its locks can be set up. -/
def fsAllocateDentry (mem locks : Bool) (s : Fs) (name : Name) (isdir : Bool) : Fs × Option Ino :=
  if !mem then (s, none)
  else match fsAllocateUid s with
    | (s, uid) =>
      if uid = 0 ∨ !locks then (s, none) else (initDentry s name isdir, some s.nextIno)

/-- `fs_get_used_blocks`. -/
def fsGetUsedBlocks (s : Fs) (d : Ino) : UInt64 :=
  (s.extentlist d).foldl (fun used x =>
    let bytes := (x.byteoffset + x.bytecount) % 2 ^ 64
    used + UInt64.ofNat (bytes / s.blocksize) + (if bytes % s.blocksize ≠ 0 then 1 else 0)) 0

/-- Which allocations of `fs_dentry_lookup` succeed. -/
structure NameMem where
  names : Bool := true
  copy : Nat → Bool := fun _ => true
  path : Bool := true

/-- The loop of `fs_dentry_lookup` that copies the names from the dentry up to the root. -/
def copyNames (copy : Nat → Bool) : List Ino → Fs → Fs × Except (Option Error) (List Name)
  | [], s => (s, .ok [])
  | d :: ds, s =>
    let s := match s.parent d with
      | some p => s.acquire (.contents p) .read
      | none => s
    let lookup : Except Error Name := match s.name d with
      | some n => .ok n
      | none => if s.deleted d ∨ (s.parent d).isSome then .error .noDentry else .ok ['/']
    match lookup with
    | .error e => (s, .error (some e))
    | .ok n =>
      -- a failed copy leaves the loop with `ret` still 0
      if !copy ds.length then (s, .error none)
      else
        let s := match s.parent d with
          | some p => s.release (.contents p) .read
          | none => s
        match copyNames copy ds s with
        | (s, .error e) => (s, .error e)
        | (s, .ok ns) => (s, .ok (ns ++ [n]))

/-- The names are joined from the root on; a slash follows every name but the first and the last. -/
def joinNames : List Name → Name
  | [] => []
  | n :: ns => n ++ List.flatten (ns.intersperse ['/'])

/-- `fs_dentry_lookup`; the result is the value of `*name`. -/
def fsDentryLookup (mem : NameMem) (s : Fs) (d : Ino) : Fs × Except Error (Option Name) :=
  if !mem.names then (s, .error .noMemory)
  else match copyNames mem.copy (parents s (s.nextIno + 1) d) s with
    | (s, .error (some e)) => (s, .error e)
    | (s, .error none) => (s, .ok none)
    | (s, .ok ns) => if mem.path then (s, .ok (some (joinNames ns))) else (s, .error .noMemory)

end Ltfs.Dentry
