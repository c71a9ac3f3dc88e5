import Ltfs.Dentry

namespace Ltfs.VolumeLock

open Ltfs.Dentry (Mode)

/-- What a thread does with `vol->lock`; `release_mrsw` releases it in the mode it is held in. -/
inductive VolOp where
  | acquire (m : Mode)
  | release (m : Mode)
  | releaseAny
  deriving DecidableEq, Repr

/-- The values of `vol->reval`. -/
inductive Reval where
  | running
  | failed
  | valid
  deriving DecidableEq, Repr

/-- The return codes the callers tell apart. `needReval` is a code for which `NEED_REVAL` holds. -/
inductive Ret where
  | ok
  | needReval
  | unexpectedMove
  | fenced
  | noXattr
  | other
  deriving DecidableEq, Repr

/-- `ltfs_get_volume_lock`, with the values of `vol->reval` seen each time the lock is taken. The
result says whether the lock is held; `none` stands for a thread that still waits. -/
def ltfsGetVolumeLock (m : Mode) : List Reval → List VolOp × Option Bool
  | [] => ([], none)
  | .running :: rs => match ltfsGetVolumeLock m rs with
    | (ops, r) => (.acquire m :: .releaseAny :: ops, r)
  | .failed :: _ => ([.acquire m, .releaseAny], some false)
  | .valid :: _ => ([.acquire m], some true)

/-- The lock operations of `ltfs_revalidate`. -/
def ltfsRevalidate (haveWriteLock : Bool) : List VolOp :=
  (if haveWriteLock then [] else [.releaseAny, .acquire .write]) ++ [.release .write]

/-- The lock operations of `ltfs_wait_revalidation`. -/
def ltfsWaitRevalidation : List VolOp := [.releaseAny]

/-- What one pass of `ltfs_unmount` meets: the lock, the result of writing an index if one has to be
written, and whether a revalidation succeeds. -/
structure UnmountRound where
  reval : List Reval
  write : Option Ret
  revalidated : Bool

/-- `ltfs_unmount`. A pass follows another when the medium was revalidated; no result means that
the call has not returned after these passes. -/
def ltfsUnmount : List UnmountRound → List VolOp × Option Ret
  | [] => ([], none)
  | r :: rs => match ltfsGetVolumeLock .write r.reval with
    | (ops, none) => (ops, none)
    | (ops, some false) => (ops, some .other)
    | (ops, some true) => match r.write with
      | some .needReval =>
        if r.revalidated then
          match ltfsUnmount rs with
          | (ops', ret) => (ops ++ ltfsRevalidate true ++ .release .write :: ops', ret)
        else (ops ++ ltfsRevalidate true ++ [.release .write], some .other)
      | some ret => (ops ++ [.release .write], some ret)
      | none => (ops ++ [.release .write], some .ok)

structure SyncRound where
  readonly : Bool
  revalRead : List Reval
  dirty : Bool
  revalWrite : List Reval
  deviceLock : Bool
  write : Ret
  revalidated : Bool

/-- The part of `ltfs_sync_index` that takes the lock to read the state of the index. -/
def syncRead (indexLocking : Bool) (r : SyncRound) : List VolOp × Option Bool :=
  if indexLocking then
    match ltfsGetVolumeLock .read r.revalRead with
    | (ops, some true) => (ops ++ [.release .read], some true)
    | x => x
  else ([], some true)

def syncAcquire (indexLocking : Bool) (r : SyncRound) : List VolOp × Option Bool :=
  if indexLocking then ltfsGetVolumeLock .write r.revalWrite else ([], some true)

/-- `ltfs_sync_index`. -/
def ltfsSyncIndex (indexLocking : Bool) : List SyncRound → List VolOp × Option Ret
  | [] => ([], none)
  | r :: rs =>
    if r.readonly then ([], some .ok)
    else match syncRead indexLocking r with
      | (ops, none) => (ops, none)
      | (ops, some false) => (ops, some .other)
      | (ops, some true) =>
        if !r.dirty then (ops, some .ok)
        else match syncAcquire indexLocking r with
          | (ops', none) => (ops ++ ops', none)
          | (ops', some false) => (ops ++ ops', some .other)
          | (ops', some true) =>
            let release : List VolOp := if indexLocking then [.release .write] else []
            if !r.deviceLock then (ops ++ ops' ++ release, some .other)
            else if indexLocking ∧ r.write = .needReval then
              if r.revalidated then
                match ltfsSyncIndex indexLocking rs with
                | (ops'', ret) => (ops ++ ops' ++ ltfsRevalidate true ++ ops'', ret)
              else (ops ++ ops' ++ ltfsRevalidate true, some .other)
            else (ops ++ ops' ++ release, some r.write)

/-- What `xattr_get` meets: the result of `_xattr_get_virtual` if the attribute is virtual, how the
revalidation it waits for or asks for ends, and the result of looking for a real attribute. -/
structure XattrAnswers where
  virtual : Option Ret
  revalidated : Bool
  real : Ret

inductive XattrRet where
  | restart
  | ret (r : Ret)
  deriving DecidableEq, Repr

/-- `xattr_get`. -/
def xattrGet (a : XattrAnswers) : List VolOp × XattrRet :=
  match a.virtual with
  | some .fenced => (ltfsWaitRevalidation, if a.revalidated then .restart else .ret .other)
  | some .needReval => (ltfsRevalidate false, if a.revalidated then .restart else .ret .other)
  | some .noXattr => ([], .ret a.real)
  | some r => ([], .ret r)
  | none => ([], .ret a.real)

structure GetRound where
  reval : List Reval
  lookup : Bool
  xattr : XattrAnswers

/-- `ltfs_fsops_getxattr` after the names are formatted. -/
def ltfsFsopsGetxattr : List GetRound → List VolOp × Option Ret
  | [] => ([], none)
  | r :: rs => match ltfsGetVolumeLock .read r.reval with
    | (ops, none) => (ops, none)
    | (ops, some false) => (ops, some .other)
    | (ops, some true) =>
      if !r.lookup then (ops ++ [.release .read], some .other)
      else match xattrGet r.xattr with
        | (ops', .restart) => match ltfsFsopsGetxattr rs with
          | (ops'', ret) => (ops ++ ops' ++ ops'', ret)
        | (ops', .ret ret) => (ops ++ ops' ++ [.release .read], some ret)

structure SetRound where
  flushed : Bool
  reval : List Reval
  lookup : Bool
  save : XattrAnswers
  set : Ret
  revalidated : Bool

/-- `ltfs_fsops_setxattr` after the names are formatted. `sync` says that the attribute is "ltfs.sync"
of the root, which is set under the write lock. -/
def ltfsFsopsSetxattr (sync : Bool) : List SetRound → List VolOp × Option Ret
  | [] => ([], none)
  | r :: rs =>
    if sync ∧ !r.flushed then ([], some .other)
    else match ltfsGetVolumeLock (if sync then .write else .read) r.reval with
      | (ops, none) => (ops, none)
      | (ops, some false) => (ops, some .other)
      | (ops, some true) =>
        if !r.lookup then (ops ++ [.releaseAny], some .other)
        else
          -- the result of saving the old value is not looked at before the new one is set
          let ops := ops ++ (xattrGet r.save).1
          if r.set = .needReval then
            if r.revalidated then
              match ltfsFsopsSetxattr sync rs with
              | (ops', ret) => (ops ++ ltfsRevalidate sync ++ ops', ret)
            else (ops ++ ltfsRevalidate sync, some .other)
          else (ops ++ [.releaseAny], some r.set)

end Ltfs.VolumeLock
