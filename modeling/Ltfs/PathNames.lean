import Ltfs.HandleCounts

namespace Ltfs.PathNames

open Ltfs.Dentry Ltfs.LockSpec Ltfs.Handles Ltfs.DentryTree Ltfs.Lookup Ltfs.Lib.Paths

variable {s : Fs} {d e : Ino} {xs names : List Name}

/-- The names that the loop of `fs_path_lookup` finds in an absolute path. -/
def pathNames (path : Name) : List Name := (path.drop 1).splitOn '/'

/-- What `pathname_validate_file` accepts of the texts that can be a name. -/
structure FileName (n : Name) : Prop where
  ne_nil : n ≠ []
  slash : '/' ∉ n
  length : n.length ≤ filenameMax

/-- Taken apart again, the path has the names it was made of. -/
theorem pathNames_joinNames (hx : ∀ n ∈ xs, FileName n) :
    pathNames (joinNames (['/'] :: xs)) = if xs = [] then [[]] else xs := by
  rw [joinNames, pathNames, List.singleton_append, List.drop_succ_cons, List.drop_zero]
  split_ifs with hnil
  · rw [hnil]
    rfl
  · exact List.splitOn_intercalate '/' (fun n hn => (hx n hn).slash) hnil

theorem resolve_of_follow (h : follow (childOf s) d names = some e) (hx : ∀ n ∈ names, FileName n) :
    resolve (fun _ => true) s names d = .ok e := by
  induction names generalizing d with
  | nil => rw [resolve, Option.some.inj h]
  | cons n names ih =>
    rw [follow_cons] at h
    obtain ⟨c, hc, hrest⟩ := Option.bind_eq_some_iff.1 h
    have hlength := (hx n (by simp)).length
    rw [resolve, if_neg (Nat.not_lt.2 hlength), found, if_pos rfl, hc]
    exact ih hrest (fun m hm => hx m (List.mem_cons_of_mem n hm))

end Ltfs.PathNames
