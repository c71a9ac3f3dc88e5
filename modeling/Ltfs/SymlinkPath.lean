import Ltfs.Lib.Split
import Ltfs.Lib.Lexical

namespace Ltfs.SymlinkPath

open Lib.Lexical

/-- `strstr`: the text from the first place on where the needle stands -/
def strstr (needle : List Char) : List Char → Option (List Char)
  | [] => if needle = [] then some [] else none
  | c :: s => if needle <+: c :: s then some (c :: s) else strstr needle s

/-- `strrchr`: the text from the last `c` on -/
def strrchr (c : Char) : List Char → Option (List Char)
  | [] => none
  | d :: s =>
    match strrchr c s with
    | some t => some t
    | none => if d = c then some (d :: s) else none

/-- The calls of `strtok` with the delimiter `/`, one after the other. -/
def strtok (s : List Char) : List (List Char) :=
  (s.splitOn '/').filter (· ≠ [])

inductive Outcome where
  | badArg
  | smallBuffer
  | fault
  | ok (buf : List Char)
  deriving DecidableEq, Repr

/-- The work buffer up to the suffix that was found in it. -/
def cut (work suffix : List Char) : List Char :=
  work.take (work.length - suffix.length)

/-- The loop over the tokens and what follows it. The work buffer is what stands before `len`. The last
token is appended as it is; without any token the code reads a missing one. -/
def walk (size : Nat) : List Char → List (List Char) → Outcome
  | _, [] => .fault
  | work, [token] =>
    if size < (work ++ '/' :: token).length + 1 then .smallBuffer else .ok (work ++ '/' :: token)
  | work, token :: next :: ts =>
    if token = ['.', '.'] then
      match strrchr '/' work with
      | none => .ok []
      | some temp => walk size (cut work temp) (next :: ts)
    else if token ≠ ['.'] then walk size (work ++ '/' :: token) (next :: ts)
    else walk size work (next :: ts)

/-- `ltfs_fsops_target_absolute_path`. `strstr` and `strrchr` are not checked before their results are
used. -/
def targetAbsolutePath (link target : List Char) (size : Nat) : Outcome :=
  if link.head? ≠ some '/' then .badArg
  else if target.head? = some '/' ∧ strstr ['.', '/'] target = none then
    if size < target.length + 1 then .smallBuffer else .ok target
  else if target.head? = some '/' then
    match strstr ['/', '.'] target with
    | none => .fault
    | some temp => walk size (target.take (target.length - (temp.tail.length + 1))) (strtok temp.tail)
  else
    match strrchr '/' link with
    | none => .fault
    | some temp => walk size (cut link temp) (strtok target)

/-- What a component of a path stands for. -/
def stepOf (c : List Char) : Step (List Char) :=
  if c = [] ∨ c = ['.'] then .stay
  else if c = ['.', '.'] then .up
  else .into c

/-- The components of a path behind its first slash. -/
def components (path : List Char) : List (List Char) :=
  path.tail.splitOn '/'

/-- The components a target is resolved against: none for an absolute one, else those of the directory of
the link. -/
def origin (link target : List Char) : List (List Char) :=
  if target.head? = some '/' then [] else (components link).dropLast

/-- The names on the way from the root to the target, `none` if the target lies outside the volume. -/
def resolution (link target : List Char) : Option (List (List Char)) :=
  run [] ((origin link target ++ target.splitOn '/').map stepOf)

/-- The buffer holds the path of these names, or nothing for a place outside the volume. -/
def Shows (buf : List Char) : Option (List (List Char)) → Prop
  | none => buf = []
  | some ns => buf.head? = some '/' ∧ (components buf).filter (· ≠ []) = ns

/-- An outcome gives a resolution, or says that the buffer is too small where it need not hold `n`
characters and the final NUL. -/
def Gives (n : Nat) (r : Option (List (List Char))) (size : Nat) : Outcome → Prop
  | .ok buf => Shows buf r
  | .smallBuffer => size ≤ n
  | _ => False

def Resolves (link target : List Char) (size : Nat) : Prop :=
  Gives (link.length + target.length) (resolution link target) size (targetAbsolutePath link target size)

end Ltfs.SymlinkPath
