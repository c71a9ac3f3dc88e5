import Ltfs.RenameTree

namespace Ltfs.FailedCalls

open Ltfs.Dentry Ltfs.Fsops Ltfs.Handles Ltfs.DentryTree Ltfs.Lookup Ltfs.CreateSpec Ltfs.TreeSteps
  Ltfs.RenameSpec Ltfs.NamespaceRun Ltfs.HandleCounts Ltfs.RenameTree Ltfs.Lib.Paths

variable {s s' : Fs} {env : Env} {path p q src dst : Path} {parent fromdir todir f : Ino} {u : Option Ino}
  {isdir : Bool}

inductive Call where
  | create (env : Env) (path : Path) (isdir : Bool)
  | rename (env : Env) (src dst : Path)
  | addKey (mem : AddMem) (list : Entries) (name : Name) (d : Ino)

section AddKey

variable {mem : AddMem} {list : Entries} {name : Name} {d : Ino}

end AddKey

section Rename

variable (T : Tree s) (h : RenameReaches env src dst s p q fromdir todir f u)
include T h

end Rename

end Ltfs.FailedCalls
