import Ltfs.Criteria
import Ltfs.Format
import Ltfs.Lib.Keyed

namespace Ltfs.Xattr

open Format Lib.Keyed
open Criteria (bytes hasPrefix)

inductive Errno where
  | noMemory
  | noXattr
  | rdonlyXattr
  | xattrExists
  | smallBuffer
  | largeXattr
  | other (code : Nat)
  deriving DecidableEq, Repr

/-- `LTFS_MAX_XATTR_SIZE` -/
def maxXattrSize : Nat := 4096

/-- `LTFS_LIVELINK_EA_NAME` -/
def livelinkEaName : Bytes := bytes "ltfs.vendor.IBM.prefixLength"

/-- Which of the allocations of `xattr_do_set` have memory -/
structure Mem where
  xattr : Bool
  key : Bool
  value : Bool
  deriving DecidableEq, Repr

structure Flags where
  create : Bool
  replace : Bool
  deriving DecidableEq, Repr

/-- What `_xattr_is_virtual` looks at, and what the functions for virtual attributes answer -/
structure Outside where
  isdir : Bool
  extentlistEmpty : Bool
  isRoot : Bool
  haveCriteria : Bool
  getVirtual : Bytes → Nat → Except Errno (Nat × Bytes)
  setVirtual : Bytes → Bytes → Except Errno Unit
  removeVirtual : Bytes → Except Errno Unit

def dentryNames : List String :=
  ["ltfs.createTime", "ltfs.modifyTime", "ltfs.accessTime", "ltfs.changeTime", "ltfs.backupTime", "ltfs.fileUID",
    "ltfs.volumeUUID", "ltfs.volumeName", "ltfs.driveCaptureDump", "ltfs.softwareVersion", "ltfs.softwareFormatSpec",
    "ltfs.softwareVendor", "ltfs.softwareProduct", "ltfs.mamApplicationVendor", "ltfs.mamApplicationName",
    "ltfs.mamApplicationVersion", "ltfs.mamApplicationFormatVersion", "ltfs.mamVolumeName", "ltfs.mamBarcode"]

def fileNames : List String := ["ltfs.partition", "ltfs.startblock"]

/-- Those of the root dentry; the ones that begin with `ltfs.vendor` are left to the test of the prefix. -/
def rootNames : List String :=
  ["ltfs.commitMessage", "ltfs.indexVersion", "ltfs.labelVersion", "ltfs.sync", "ltfs.indexGeneration",
    "ltfs.indexTime", "ltfs.policyExists", "ltfs.policyAllowUpdate", "ltfs.volumeFormatTime", "ltfs.volumeBlocksize",
    "ltfs.volumeCompression", "ltfs.indexLocation", "ltfs.indexPrevious", "ltfs.indexCreator", "ltfs.labelCreator",
    "ltfs.partitionMap", "ltfs.volumeSerial", "ltfs.mediaLoads", "ltfs.mediaRecoveredWriteErrors",
    "ltfs.mediaPermanentWriteErrors", "ltfs.mediaRecoveredReadErrors", "ltfs.mediaPermanentReadErrors",
    "ltfs.mediaPreviousPermanentWriteErrors", "ltfs.mediaPreviousPermanentReadErrors",
    "ltfs.mediaBeginningMediumPasses", "ltfs.mediaMiddleMediumPasses", "ltfs.mediaEfficiency",
    "ltfs.mediaStorageAlert", "ltfs.mediaDatasetsWritten", "ltfs.mediaDatasetsRead", "ltfs.mediaMBWritten",
    "ltfs.mediaMBRead", "ltfs.mediaDataPartitionTotalCapacity", "ltfs.mediaDataPartitionAvailableSpace",
    "ltfs.mediaIndexPartitionTotalCapacity", "ltfs.mediaIndexPartitionAvailableSpace", "ltfs.mediaEncrypted",
    "ltfs.driveEncryptionState", "ltfs.driveEncryptionMethod"]

def isOneOf (names : List String) (name : Bytes) : Bool := names.any fun s => name = bytes s

/-- `_xattr_is_virtual` -/
def xattrIsVirtual (o : Outside) (name : Bytes) : Bool :=
  isOneOf dentryNames name ||
    !o.isdir && !o.extentlistEmpty && isOneOf fileNames name ||
    o.isRoot && (o.haveCriteria && name = bytes "ltfs.policyMaxFileSize" || isOneOf rootNames name ||
      (bytes "ltfs.vendor").isPrefixOf name)

/-- The reserved names, which are neither set nor removed -/
def isReserved (name : Bytes) : Bool :=
  hasPrefix (bytes "ltfs") name && name ≠ bytes "ltfs.spannedFileOffset" &&
    !hasPrefix (bytes "ltfs.permissions.") name && !hasPrefix (bytes "ltfs.hash.") name

/-- `_xattr_seek` -/
def xattrSeek (name : Bytes) (l : List XattrInfo) : Option XattrInfo := seek XattrInfo.key name l

def putValue (name : Bytes) (value : Option Bytes) (l : List XattrInfo) : List XattrInfo :=
  modify XattrInfo.key name (fun x => { x with value }) l

/-- Clear the existing attribute, or put a new one at the head of the list. -/
def prepare (name : Bytes) (mem : Mem) (xattr : Option XattrInfo) (l : List XattrInfo) : Option (List XattrInfo) :=
  match xattr with
  | some _ => some (putValue name none l)
  | none => if mem.xattr && mem.key then some (⟨name, none⟩ :: l) else none

/-- `xattr_do_set`, given what `_xattr_seek` has found -/
def xattrDoSet (name value : Bytes) (mem : Mem) (xattr : Option XattrInfo) (l : List XattrInfo) :
    Except Errno Unit × List XattrInfo :=
  match prepare name mem xattr l with
  | none => (.error .noMemory, l)
  | some l =>
    if value = [] then (.ok (), l)
    else if mem.value then (.ok (), putValue name (some value) l)
    else (.error .noMemory, erase XattrInfo.key name l)

/-- `xattr_set` -/
def xattrSet (o : Outside) (name value : Bytes) (flags : Flags) (mem : Mem) (l : List XattrInfo) :
    Except Errno Unit × List XattrInfo :=
  if maxXattrSize < value.length then (.error .largeXattr, l)
  else if xattrIsVirtual o name then
    match o.setVirtual name value with
    | .error .noXattr => (.error .rdonlyXattr, l)
    | r => (r, l)
  else if isReserved name then (.error .rdonlyXattr, l)
  else
    let xattr := xattrSeek name l
    if flags.create && xattr.isSome then (.error .xattrExists, l)
    else if flags.replace && xattr.isNone then (.error .noXattr, l)
    else xattrDoSet name value mem xattr l

/-- `xattr_do_remove` -/
def xattrDoRemove (name : Bytes) (force : Bool) (l : List XattrInfo) : Except Errno Unit × List XattrInfo :=
  match xattrSeek name l with
  | none => (.error .noXattr, l)
  | some _ => if !force && isReserved name then (.error .rdonlyXattr, l) else (.ok (), erase XattrInfo.key name l)

/-- `xattr_remove` -/
def xattrRemove (o : Outside) (name : Bytes) (l : List XattrInfo) : Except Errno Unit × List XattrInfo :=
  if xattrIsVirtual o name then
    match o.removeVirtual name with
    | .error .noXattr => (.error .rdonlyXattr, l)
    | r => (r, l)
  else xattrDoRemove name false l

/-- The bytes of an attribute -/
def valueOf (x : XattrInfo) : Bytes := x.value.getD []

/-- The part of `xattr_get` for a real attribute: the number that it returns, and what it copies to the buffer -/
def getReal (name : Bytes) (size : Nat) (l : List XattrInfo) : Except Errno (Nat × Bytes) :=
  match xattrSeek name l with
  | none => .error .noXattr
  | some x =>
    if size ≠ 0 ∧ size < (valueOf x).length then .error .smallBuffer
    else if size ≠ 0 then .ok ((valueOf x).length, valueOf x)
    else .ok ((valueOf x).length, [])

/-- `xattr_get` -/
def xattrGet (o : Outside) (name : Bytes) (size : Nat) (l : List XattrInfo) : Except Errno (Nat × Bytes) :=
  if xattrIsVirtual o name then
    match o.getVirtual name size with
    | .error .noXattr => getReal name size l
    | r => r
  else getReal name size l

/-- `pathname_unformat`: the conversion to the encoding of the system, and which of the calls have memory -/
structure Unformat where
  convert : Bytes → Bytes
  mem : Nat → Bool

/-- The loop of `_xattr_list_physicals`, behind `k` calls of `pathname_unformat` -/
def listLoop (u : Unformat) (before : Bytes) (size : Nat) :
    List XattrInfo → Nat → Nat → Bytes → Except Errno (Nat × Bytes)
  | [], _, nbytes, list => .ok (nbytes, list)
  | entry :: l, k, nbytes, list =>
    if !u.mem k then .error .noMemory
    else
      let newName := u.convert entry.key
      if newName = livelinkEaName then listLoop u before size l (k + 1) nbytes list
      else
        let nbytes := nbytes + (before.length + newName.length + 1)
        listLoop u before size l (k + 1) nbytes
          (if size ≠ 0 ∧ nbytes ≤ size then list ++ (before ++ newName ++ [0]) else list)

/-- `_xattr_list_physicals` -/
def xattrListPhysicals (u : Unformat) (size : Nat) (l : List XattrInfo) : Except Errno (Nat × Bytes) :=
  if !u.mem 0 then .error .noMemory else listLoop u (u.convert (bytes "user.")) size l 1 0 []

/-- `xattr_list`: the number that it returns, and what it puts in the buffer -/
def xattrList (u : Unformat) (size : Nat) (l : List XattrInfo) : Except Errno (Nat × Bytes) :=
  match xattrListPhysicals u size l with
  | .error e => .error e
  | .ok (nbytes, list) => if size ≠ 0 ∧ size < nbytes then .error .smallBuffer else .ok (nbytes, list)

end Ltfs.Xattr
