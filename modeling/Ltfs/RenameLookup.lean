import Ltfs.UnlinkSpec

namespace Ltfs.RenameLookup

open Ltfs.Dentry Ltfs.Fsops Ltfs.LockSpec Ltfs.Handles Ltfs.DentryTree Ltfs.Lookup

variable {s : Fs} {d fromdir todir f : Ino} {fn tn : Name} {t : Option Ino} {mem : Mem}
  {log : List LockOp} {M : Multiset Ino} {a : Held}

@[simp] theorem parents_with (n : Nat) (d : Ino) :
    parents ((s.withHandles M).withLog log) n d = parents s n d := by
  induction n generalizing d with
  | zero => rfl
  | succ n ih =>
    simp only [parents, Fs.withLog_parent, Fs.withHandles_parent]
    cases s.parent d with
    | none => rfl
    | some p => exact congrArg (d :: ·) (ih p)

@[simp] theorem isPredecessor_with (a b : Ino) :
    fsIsPredecessor ((s.withHandles M).withLog log) a b = fsIsPredecessor s a b := by
  simp [fsIsPredecessor]

def dirOps (d : Ino) : List LockOp := [.acquire (.contents d) .write, .acquire (.metadata d) .write]

/-- Both locks of a directory. -/
def dirLocks (d : Ino) (a : Held) : Held := (.metadata d, .write) ::ₘ (.contents d, .write) ::ₘ a

theorem dirOps_runs : Runs (dirOps d) a (dirLocks d a) :=
  Runs.acquire.append (Runs.acquire (a := (.contents d, .write) ::ₘ a))

theorem acquireDir_eq (s : Fs) (d : Ino) : acquireDir s d = s.withLog (dirOps d) := by
  simp [acquireDir, acquire_eq, dirOps]

def dirsHeld (fromdir todir : Ino) : Held :=
  if fromdir = todir then dirLocks todir 0 else dirLocks fromdir (dirLocks todir 0)

theorem dirLocks_comm (c d : Ino) : dirLocks c (dirLocks d a) = dirLocks d (dirLocks c a) := by
  simp only [dirLocks]
  rw [Multiset.cons_swap (Lock.contents c, Mode.write), Multiset.cons_swap (Lock.metadata c, Mode.write),
    Multiset.cons_swap (Lock.contents c, Mode.write), Multiset.cons_swap (Lock.metadata c, Mode.write)]

def lookedUp (mem : Mem) (s : Fs) (fromdir todir : Ino) (fn tn : Name) : Except Error (Ino × Option Ino) :=
  if filenameMax < tn.length then .error .nameTooLong
  else if filenameMax < fn.length then .error .noDentry
  else match found mem.findSrc s fromdir fn with
    | none => .error .noDentry
    | some f => .ok (f, found mem.findDst s todir tn)

def lookedDown (mem : Mem) (s : Fs) (fromdir todir : Ino) (fn tn : Name) :
    Except Error (Ino × Option Ino) :=
  if filenameMax < fn.length then .error .nameTooLong
  else match found mem.findSrc s fromdir fn with
    | none => .error .noDentry
    | some f =>
      if filenameMax < tn.length then .error .nameTooLong else .ok (f, found mem.findDst s todir tn)

/-- The source and the target that are found, given which keys can be copied. -/
def looked (mem : Mem) (s : Fs) (fromdir todir : Ino) (fn tn : Name) : Except Error (Ino × Option Ino) :=
  if todir = fromdir ∨ fsIsPredecessor s todir fromdir then lookedUp mem s fromdir todir fn tn
  else lookedDown mem s fromdir todir fn tn

def withTarget (t : Option Ino) (M : Multiset Ino) : Multiset Ino :=
  match t with
  | none => M
  | some t => t ::ₘ M

theorem childOf_of_found {key : Bool} {p c : Ino} {n : Name} (h : found key s p n = some c) :
    childOf s p n = some c := by
  cases key with
  | false => cases h
  | true => exact h

theorem releaseFound_spec (hd : 0 < s.numhandles d) (dir : Ino) (M : Multiset Ino) (log : List LockOp) :
    ∃ ops, (∀ a, Runs ops a a) ∧ releaseFound ((s.withHandles (d ::ₘ M)).withLog log) d dir =
      (s.withHandles M).withLog (log ++ ops) := by
  by_cases h : d = dir
  · exact ⟨[], fun _ => Runs.nil, by simp [releaseFound, h]⟩
  · refine ⟨lookupOps d, fun _ => lookupOps_runs, ?_⟩
    rw [releaseFound, if_neg h, release_linked hd (Multiset.mem_cons_self _ _), Multiset.erase_cons_head]
    rfl

/-- A search that keeps what it finds; a failed one changes nothing. -/
theorem directoryLookup_spec (key : Bool) (s : Fs) (p : Ino) (n : Name) (M : Multiset Ino)
    (log : List LockOp) :
    ∃ ops, (∀ a, Runs ops a a) ∧ fsDirectoryLookup key ((s.withHandles M).withLog log) p n =
      if filenameMax < n.length then ((s.withHandles M).withLog (log ++ ops), .error .nameTooLong)
      else ((s.withHandles (withTarget (found key s p n) M)).withLog (log ++ ops),
        .ok (found key s p n)) := by
  by_cases hn : filenameMax < n.length
  · exact ⟨[], fun _ => Runs.nil, by simp [directoryLookup_long _ hn, hn]⟩
  · cases hf : found key s p n with
    | none => exact ⟨[], fun _ => Runs.nil, by simp [directoryLookup_none hn hf, hn, withTarget]⟩
    | some c =>
      refine ⟨lookupOps c, fun _ => lookupOps_runs, ?_⟩
      rw [directoryLookup_some hn hf, if_neg hn]
      rfl

theorem releaseTarget_spec (ht : ∀ d, t = some d → 0 < s.numhandles d) (dir : Ino) (M : Multiset Ino)
    (log : List LockOp) :
    ∃ ops, (∀ a, Runs ops a a) ∧ releaseTarget ((s.withHandles (withTarget t M)).withLog log) t dir =
      (s.withHandles M).withLog (log ++ ops) := by
  cases t with
  | none => exact ⟨[], fun _ => Runs.nil, by simp [releaseTarget, withTarget]⟩
  | some d => exact releaseFound_spec (ht d rfl) dir M log

/-- The state and the answer a lookup leaves. -/
def afterLooked (s : Fs) (M : Multiset Ino) (log : List LockOp) :
    Except Error (Ino × Option Ino) → Fs × Except Error (Ino × Option Ino)
  | .error e => ((s.withHandles M).withLog log, .error e)
  | .ok (f, t) => ((s.withHandles (f ::ₘ withTarget t M)).withLog log, .ok (f, t))

theorem acquireOther_spec (fromdir todir : Ino) : ∃ ops,
    Runs ops (dirLocks todir 0) (dirsHeld fromdir todir) ∧
      ∀ s : Fs, acquireOther s fromdir todir = s.withLog ops := by
  by_cases he : fromdir = todir
  · exact ⟨[], by simpa [dirsHeld, he] using Runs.nil, by simp [acquireOther, he]⟩
  · exact ⟨dirOps fromdir, by simpa [dirsHeld, he] using dirOps_runs, by simp [acquireOther, he, acquireDir_eq]⟩

theorem renameLookupUp_spec (T : Tree s) (mem : Mem) (fromdir todir : Ino) (fn tn : Name)
    (M : Multiset Ino) (log : List LockOp) :
    ∃ ops, Runs ops 0 (dirsHeld fromdir todir) ∧
      renameLookupUp mem fromdir todir fn tn ((s.withHandles M).withLog log) =
        afterLooked s M (log ++ ops) (lookedUp mem s fromdir todir fn tn) := by
  obtain ⟨o1, r1, h1⟩ := directoryLookup_spec mem.findDst s todir tn M (log ++ dirOps todir)
  obtain ⟨o2, r2, h2⟩ := acquireOther_spec fromdir todir
  have hlocks : Runs (dirOps todir ++ o1 ++ o2) 0 (dirsHeld fromdir todir) :=
    (dirOps_runs.append (r1 _)).append r2
  simp only [renameLookupUp, acquireDir_eq, withLog_withLog, h1, lookedUp]
  by_cases htn : filenameMax < tn.length
  · refine ⟨dirOps todir ++ o1 ++ o2, hlocks, ?_⟩
    simp only [htn, if_true, h2, withLog_withLog, List.append_assoc, afterLooked]
  · obtain ⟨o3, r3, h3⟩ := directoryLookup_spec mem.findSrc s fromdir fn
      (withTarget (found mem.findDst s todir tn) M) (log ++ dirOps todir ++ o1 ++ o2)
    have htarget : ∀ d, found mem.findDst s todir tn = some d → 0 < s.numhandles d :=
      fun d hd => T.counted (T.childOf_linked (childOf_of_found hd))
    obtain ⟨o4, r4, h4⟩ := releaseTarget_spec htarget fromdir M (log ++ dirOps todir ++ o1 ++ o2 ++ o3)
    simp only [htn, if_false, h2, withLog_withLog, findSource, h3]
    simp only [List.append_assoc] at h4
    by_cases hfn : filenameMax < fn.length
    · refine ⟨dirOps todir ++ o1 ++ o2 ++ o3 ++ o4, (hlocks.append (r3 _)).append (r4 _), ?_⟩
      simp only [hfn, if_true, h4, afterLooked, List.append_assoc]
    · simp only [hfn, if_false]
      cases hf : found mem.findSrc s fromdir fn with
      | none =>
        refine ⟨dirOps todir ++ o1 ++ o2 ++ o3 ++ o4, (hlocks.append (r3 _)).append (r4 _), ?_⟩
        have hsame : ∀ N, withTarget none N = N := fun _ => rfl
        simp only [hsame, h4, afterLooked, List.append_assoc]
      | some f =>
        refine ⟨dirOps todir ++ o1 ++ o2 ++ o3, hlocks.append (r3 _), ?_⟩
        simp only [afterLooked, List.append_assoc]
        rfl

theorem renameLookupDown_spec (T : Tree s) (mem : Mem) (fn tn : Name) (hne : fromdir ≠ todir)
    (M : Multiset Ino) (log : List LockOp) :
    ∃ ops, Runs ops 0 (dirsHeld fromdir todir) ∧
      renameLookupDown mem fromdir todir fn tn ((s.withHandles M).withLog log) =
        afterLooked s M (log ++ ops) (lookedDown mem s fromdir todir fn tn) := by
  obtain ⟨o1, r1, h1⟩ := directoryLookup_spec mem.findSrc s fromdir fn M (log ++ dirOps fromdir)
  have hlocks : Runs (dirOps fromdir ++ o1 ++ dirOps todir) 0 (dirsHeld fromdir todir) := by
    have h := (dirOps_runs.append (r1 (dirLocks fromdir 0))).append (dirOps_runs (d := todir))
    rw [dirLocks_comm] at h
    simpa [dirsHeld, hne] using h
  simp only [renameLookupDown, acquireDir_eq, withLog_withLog, h1, lookedDown]
  by_cases hfn : filenameMax < fn.length
  · refine ⟨dirOps fromdir ++ o1 ++ dirOps todir, hlocks, ?_⟩
    simp only [hfn, if_true, withLog_withLog, afterLooked, List.append_assoc]
  · simp only [hfn, if_false]
    cases hf : found mem.findSrc s fromdir fn with
    | none =>
      refine ⟨dirOps fromdir ++ o1 ++ dirOps todir, hlocks, ?_⟩
      simp only [withLog_withLog, afterLooked, List.append_assoc, withTarget]
    | some f =>
      obtain ⟨o2, r2, h2⟩ := directoryLookup_spec mem.findDst s todir tn (f ::ₘ M)
        (log ++ dirOps fromdir ++ o1 ++ dirOps todir)
      have hpos : 0 < s.numhandles f := T.counted (T.childOf_linked (childOf_of_found hf))
      have hsome : withTarget (some f) M = f ::ₘ M := rfl
      simp only [hsome, withLog_withLog, h2]
      by_cases htn : filenameMax < tn.length
      · obtain ⟨o3, r3, h3⟩ := releaseFound_spec hpos todir M (log ++ dirOps fromdir ++ o1 ++ dirOps todir ++ o2)
        refine ⟨dirOps fromdir ++ o1 ++ dirOps todir ++ o2 ++ o3, (hlocks.append (r2 _)).append (r3 _), ?_⟩
        simp only [List.append_assoc] at h3
        simp only [htn, if_true, h3, afterLooked, List.append_assoc]
      · refine ⟨dirOps fromdir ++ o1 ++ dirOps todir ++ o2, hlocks.append (r2 _), ?_⟩
        simp only [htn, if_false, afterLooked, List.append_assoc]
        cases found mem.findDst s todir tn with
        | none => rfl
        | some t => simp only [withTarget, Multiset.cons_swap t f]

theorem renameLookup_spec (T : Tree s) (mem : Mem) (fromdir todir : Ino) (fn tn : Name)
    (M : Multiset Ino) (log : List LockOp) :
    ∃ ops, Runs ops 0 (dirsHeld fromdir todir) ∧
      renameLookup mem fromdir todir fn tn ((s.withHandles M).withLog log) =
        afterLooked s M (log ++ ops) (looked mem s fromdir todir fn tn) := by
  by_cases hup : todir = fromdir ∨ fsIsPredecessor s todir fromdir = true
  · obtain ⟨ops, hr, h⟩ := renameLookupUp_spec T mem fromdir todir fn tn M log
    refine ⟨ops, hr, ?_⟩
    simp only [renameLookup, looked, isPredecessor_with, hup, if_true]
    exact h
  · have hne : fromdir ≠ todir := fun h => hup (.inl h.symm)
    obtain ⟨ops, hr, h⟩ := renameLookupDown_spec T mem fn tn hne M log
    refine ⟨ops, hr, ?_⟩
    simp only [renameLookup, looked, isPredecessor_with, hup, if_false]
    exact h

theorem renameUnlock_spec (hf : 0 < s.numhandles fromdir) (ht : 0 < s.numhandles todir)
    (M : Multiset Ino) (log : List LockOp) :
    ∃ ops, Runs ops (dirsHeld fromdir todir) 0 ∧
      renameUnlock fromdir todir ((s.withHandles (fromdir ::ₘ todir ::ₘ M)).withLog log) =
        (s.withHandles M).withLog (log ++ ops) := by
  by_cases he : fromdir = todir
  · subst he
    refine ⟨[.release (.contents fromdir) .write, .release (.metadata fromdir) .write] ++
      lookupOps fromdir, ?_, ?_⟩
    · simp only [dirsHeld, if_true, dirLocks]
      exact (Runs.release_second.append (Runs.release (a := 0))).append lookupOps_runs
    · simp only [renameUnlock, ne_eq, not_true_eq_false, if_false, if_true, release_eq, withLog_withLog]
      rw [releaseUnlocked_linked hf (Multiset.mem_cons_self _ _), Multiset.erase_cons_head,
        release_linked hf (Multiset.mem_cons_self _ _), Multiset.erase_cons_head]
      simp [lookupOps]
  · refine ⟨[.release (.contents fromdir) .write, .release (.contents todir) .write,
      .release (.metadata fromdir) .write, .release (.metadata todir) .write], ?_, ?_⟩
    · intro rest
      simp [dirsHeld, he, dirLocks, check, Multiset.erase_cons_tail]
    · simp only [renameUnlock, ne_eq, he, not_false_eq_true, if_true, release_eq, withLog_withLog,
        Ne.symm he, if_false]
      rw [releaseUnlocked_linked hf (Multiset.mem_cons_self _ _), Multiset.erase_cons_head,
        releaseUnlocked_linked ht (Multiset.mem_cons_self _ _), Multiset.erase_cons_head]
      simp

end Ltfs.RenameLookup
