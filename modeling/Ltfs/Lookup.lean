import Ltfs.DentryTree

namespace Ltfs.Lookup

open Ltfs.Dentry Ltfs.LockSpec Ltfs.Handles Ltfs.DentryTree Ltfs.Lib.Paths

variable {s : Fs} {d p c : Ino} {n : Name} {names : List Name} {M : Multiset Ino}
  {log : List LockOp} {flags : LookupFlags} {key : Nat → Bool} {parent : Option Ino}

/-- The entry a search of a directory finds, given whether its key can be copied. -/
def found (key : Bool) (s : Fs) (p : Ino) (n : Name) : Option Ino := if key then childOf s p n else none

/-- What the names lead to, given which keys can be copied. -/
def resolve (key : Nat → Bool) (s : Fs) : List Name → Ino → Except Error Ino
  | [], d => .ok d
  | n :: rest, d =>
    if filenameMax < n.length then .error .nameTooLong
    else match found (key rest.length) s d n with
      | none => .error .noDentry
      | some c => resolve key s rest c

def lookupOps (c : Ino) : List LockOp :=
  [.acquire (.metadata c) .write, .release (.metadata c) .write]

theorem lookupOps_runs {a : Held} : Runs (lookupOps c) a a := Runs.balanced

theorem findKey_eq (key : Bool) (es : Entries) (n : Name) :
    fsFindKeyFromHashTable key es (some n) = if key then es.find? (fun e => e.1 == n) else none := by
  simp [fsFindKeyFromHashTable]

theorem directoryLookup_long (key : Bool) (h : filenameMax < n.length) :
    fsDirectoryLookup key s p n = (s, .error .nameTooLong) := by
  rw [fsDirectoryLookup, if_pos h]

theorem directoryLookup_none {key : Bool} (hn : ¬ filenameMax < n.length)
    (h : found key s p n = none) :
    fsDirectoryLookup key ((s.withHandles M).withLog log) p n =
      ((s.withHandles M).withLog log, .ok none) := by
  rw [fsDirectoryLookup, if_neg hn]
  simp only [Fs.withLog_childList, Fs.withHandles_childList]
  by_cases he : s.childList p = []
  · rw [if_pos he]
  · rw [if_neg he, findKey_eq]
    cases key with
    | false => rfl
    | true =>
      have hf : (s.childList p).find? (fun e => e.1 == n) = none := by
        simpa [found, childOf] using h
      simp [hf]

theorem directoryLookup_some {key : Bool} (hn : ¬ filenameMax < n.length)
    (h : found key s p n = some c) :
    fsDirectoryLookup key ((s.withHandles M).withLog log) p n =
      ((s.withHandles (c ::ₘ M)).withLog (log ++ lookupOps c), .ok (some c)) := by
  cases key with
  | false => cases h
  | true =>
    have hm : (s.childList p).find? (fun e => e.1 == n) = some (n, c) := by
      simp only [found, if_true, childOf, Option.map_eq_some_iff, Prod.exists] at h
      obtain ⟨n', c', hf, rfl⟩ := h
      have hk : n' = n := by simpa using List.find?_some hf
      rw [hf, hk]
    have hne : s.childList p ≠ [] := by
      intro he
      simp [he] at hm
    rw [fsDirectoryLookup, if_neg hn]
    simp only [Fs.withLog_childList, Fs.withHandles_childList, hne, if_false, findKey_eq, if_true, hm,
      acquire_eq, release_eq, getHandle_withLog, withLog_withLog, getHandle_withHandles]
    simp [lookupOps]

/-- The lock on the directory visited before. -/
def heldParent : Option Ino → Held
  | none => 0
  | some p => {(.contents p, .read)}

theorem releaseParent_eq (s : Fs) (parent : Option Ino) : ∃ ops, releaseParent s parent = s.withLog ops ∧
    Runs ops (heldParent parent) 0 := by
  cases parent with
  | none => exact ⟨[], by simp [releaseParent], Runs.nil⟩
  | some p => exact ⟨[.release (.contents p) .read], rfl, Runs.release (a := 0)⟩

/-- What is held of the directory that was searched last. -/
def lastMode (flags : LookupFlags) : Mode := if flags.parentContentsW then .write else .read

def lastHandles (flags : LookupFlags) (p : Ino) (M : Multiset Ino) : Multiset Ino :=
  if flags.parentContentsW then p ::ₘ M else M

/-- One round of the loop: the directory is locked and the one before it let go. -/
theorem advance_runs (s : Fs) (d : Ino) (m : Mode) (parent : Option Ino) :
    ∃ ops, releaseParent (s.acquire (.contents d) m) parent = s.withLog ops ∧
      Runs ops (heldParent parent) {(.contents d, m)} := by
  obtain ⟨ops, ho, hr⟩ := releaseParent_eq (s.acquire (.contents d) m) parent
  refine ⟨.acquire (.contents d) m :: ops, ?_, ?_⟩
  · rw [ho, acquire_eq, withLog_withLog]
    rfl
  · have h2 := hr.frame {(Lock.contents d, m)}
    rw [Multiset.zero_add, Multiset.add_comm, Multiset.singleton_add] at h2
    exact Runs.acquire.append h2

theorem walk_stop (T : Tree s) (hd : Linked s d) (m : Mode) :
    fsReleaseDentry (((s.withHandles (d ::ₘ M)).withLog log).release (.contents d) m) d =
      (s.withHandles M).withLog (log ++ .release (.contents d) m :: lookupOps d) := by
  rw [release_eq, withLog_withLog, release_linked (T.counted hd) (Multiset.mem_cons_self _ _)]
  simp [lookupOps]

theorem pathWalk_spec (T : Tree s) (flags : LookupFlags) (key : Nat → Bool) (M : Multiset Ino)
    (log : List LockOp) (parent : Option Ino) (hd : Linked s d) (hne : names ≠ []) :
    ∃ ops, match resolve key s names d with
      | .error e =>
        pathWalk flags key names ((s.withHandles (d ::ₘ M)).withLog log) parent d =
          ((s.withHandles M).withLog (log ++ ops), .error e) ∧ Runs ops (heldParent parent) 0
      | .ok c => ∃ p n, childOf s p n = some c ∧
        pathWalk flags key names ((s.withHandles (d ::ₘ M)).withLog log) parent d =
          ((s.withHandles (c ::ₘ lastHandles flags p M)).withLog (log ++ ops), .ok (some p, c)) ∧
        Runs ops (heldParent parent) {(.contents p, lastMode flags)} := by
  induction names generalizing d parent log with
  | nil => exact absurd rfl hne
  | cons n rest ih =>
    obtain ⟨o1, h1, r1⟩ := advance_runs ((s.withHandles (d ::ₘ M)).withLog log) d (flags.mode rest)
      parent
    have hstop : Runs (o1 ++ .release (.contents d) (flags.mode rest) :: lookupOps d)
        (heldParent parent) 0 := by
      have h2 : Runs [.release (.contents d) (flags.mode rest)]
          {(Lock.contents d, flags.mode rest)} 0 := Runs.release (a := 0)
      exact r1.append (h2.append lookupOps_runs)
    simp only [pathWalk, resolve]
    rw [h1, withLog_withLog]
    by_cases hn : filenameMax < n.length
    · simp only [hn, if_true]
      refine ⟨_, ?_, hstop⟩
      rw [directoryLookup_long _ hn]
      simp only [walk_stop T hd, List.append_assoc]
    · simp only [hn, if_false]
      cases hf : found (key rest.length) s d n with
      | none =>
        refine ⟨_, ?_, hstop⟩
        rw [directoryLookup_none hn hf]
        simp only [walk_stop T hd, List.append_assoc]
      | some c =>
        have hc : childOf s d n = some c := by
          cases hk : key rest.length with
          | false => simp [found, hk] at hf
          | true => simpa [found, hk] using hf
        rw [directoryLookup_some hn hf]
        cases rest with
        | nil =>
          by_cases hp : flags.parentContentsW = true
          · refine ⟨o1 ++ lookupOps c, d, n, hc, ?_, ?_⟩
            · simp [pathWalk, hp, lastHandles]
            · have hm : flags.mode [] = .write := by simp [LookupFlags.mode, hp]
              simpa [lastMode, hp, hm] using r1.append lookupOps_runs
          · refine ⟨o1 ++ lookupOps c ++ lookupOps d, d, n, hc, ?_, ?_⟩
            · simp only [pathWalk, hp, lastHandles, acquire_eq, release_eq, withLog_withLog,
                putHandle_withLog, Multiset.cons_swap c d, putHandle_withHandles]
              simp [lookupOps]
            · have hm : flags.mode [] = .read := by simp [LookupFlags.mode, hp]
              simpa [lastMode, hp, hm] using (r1.append lookupOps_runs).append lookupOps_runs
        | cons n' rest =>
          have hm : flags.mode (n' :: rest) = .read := by simp [LookupFlags.mode]
          obtain ⟨o2, h2⟩ := ih (log ++ o1 ++ lookupOps c ++ lookupOps d) (some d)
            (T.childOf_linked hc) (by simp)
          refine ⟨o1 ++ lookupOps c ++ lookupOps d ++ o2, ?_⟩
          have hstep : Runs (o1 ++ lookupOps c ++ lookupOps d) (heldParent parent)
              (heldParent (some d)) := by
            rw [hm] at r1
            exact (r1.append lookupOps_runs).append lookupOps_runs
          have hstate : ((((s.withHandles (c ::ₘ d ::ₘ M)).withLog (log ++ o1 ++ lookupOps c)).acquire
              (.metadata d) .write).putHandle d).release (.metadata d) .write =
              (s.withHandles (c ::ₘ M)).withLog (log ++ o1 ++ lookupOps c ++ lookupOps d) := by
            simp only [acquire_eq, release_eq, withLog_withLog, putHandle_withLog,
              Multiset.cons_swap c d, putHandle_withHandles]
            simp [lookupOps]
          simp only [ne_eq, reduceCtorEq, not_false_eq_true, true_or, if_true]
          rw [hstate]
          cases hr : resolve key s (n' :: rest) c with
          | error e =>
            rw [hr] at h2
            refine ⟨?_, hstep.append h2.2⟩
            rw [h2.1]
            simp
          | ok c' =>
            rw [hr] at h2
            obtain ⟨p, m, hpc, h3, h4⟩ := h2
            refine ⟨p, m, hpc, ?_, hstep.append h4⟩
            rw [h3]
            simp

/-- What `fs_path_lookup` finds. -/
def resolvePath (mem : WalkMem) (s : Fs) (names : List Name) : Except Error Ino :=
  if !mem.copy then .error .noMemory
  else if names = [] ∨ names = [[]] then .ok s.root
  else resolve mem.key s names s.root

theorem root_start :
    (((((s.withHandles M).withLog log).acquire (.metadata s.root) .write).getHandle s.root).release
      (.metadata s.root) .write) = (s.withHandles (s.root ::ₘ M)).withLog (log ++ lookupOps s.root) := by
  simp only [acquire_eq, release_eq, withLog_withLog, getHandle_withLog, getHandle_withHandles]
  simp [lookupOps]

/-- The common part of the lookups that keep no lock on the directory searched last. -/
theorem pathLookup_free (T : Tree s) (mem : WalkMem) (M : Multiset Ino) (log : List LockOp)
    (names : List Name) (hf : flags.parentContentsW = false) :
    ∃ ops, Runs ops 0 0 ∧ match resolvePath mem s names with
      | .error e => fsPathLookup flags mem ((s.withHandles M).withLog log) names =
          ((s.withHandles M).withLog (log ++ ops), .error e)
      | .ok d => Linked s d ∧ fsPathLookup flags mem ((s.withHandles M).withLog log) names =
          (if flags.dentryContentsW then
              ((s.withHandles (d ::ₘ M)).withLog (log ++ ops)).acquire (.contents d) .write
            else (s.withHandles (d ::ₘ M)).withLog (log ++ ops), .ok d) := by
  by_cases hc : mem.copy = true
  · simp only [resolvePath, fsPathLookup, hc, Bool.not_true, Bool.false_eq_true, if_false,
      Fs.withLog_root, Fs.withHandles_root, root_start]
    by_cases hn : names = [] ∨ names = [[]]
    · refine ⟨lookupOps s.root, lookupOps_runs, ?_⟩
      simp only [hn, if_true]
      exact ⟨reached_root, trivial⟩
    · simp only [hn, if_false]
      obtain ⟨ops, h⟩ := pathWalk_spec T flags mem.key M (log ++ lookupOps s.root) none
        reached_root (fun h : names = [] => hn (.inl h))
      cases hr : resolve mem.key s names s.root with
      | error e =>
        rw [hr] at h
        refine ⟨lookupOps s.root ++ ops, lookupOps_runs.append h.2, ?_⟩
        rw [h.1]
        simp
      | ok c =>
        rw [hr] at h
        obtain ⟨p, n, hpc, h1, h2⟩ := h
        refine ⟨lookupOps s.root ++ ops ++ [.release (.contents p) .read], ?_,
          T.childOf_linked hpc, ?_⟩
        · have h3 : Runs [.release (.contents p) .read] {(Lock.contents p, Mode.read)} 0 :=
            Runs.release (a := 0)
          simp only [lastMode, hf, Bool.false_eq_true, if_false] at h2
          exact (lookupOps_runs.append h2).append h3
        · rw [h1]
          simp only [hf, Bool.false_eq_true, if_false, releaseParent, release_eq, withLog_withLog,
            lastHandles, List.append_assoc]
  · simp only [Bool.not_eq_true] at hc
    refine ⟨[], Runs.nil, ?_⟩
    simp [resolvePath, fsPathLookup, hc]

theorem pathLookup_spec (T : Tree s) (mem : WalkMem) (M : Multiset Ino) (log : List LockOp)
    (names : List Name) :
    ∃ ops, Runs ops 0 0 ∧ match resolvePath mem s names with
      | .error e => fsPathLookup {} mem ((s.withHandles M).withLog log) names =
          ((s.withHandles M).withLog (log ++ ops), .error e)
      | .ok d => Linked s d ∧ fsPathLookup {} mem ((s.withHandles M).withLog log) names =
          ((s.withHandles (d ::ₘ M)).withLog (log ++ ops), .ok d) := by
  have hf : ({} : LookupFlags).parentContentsW = false := rfl
  simpa using pathLookup_free T mem M log names hf

theorem pathLookup_locked (T : Tree s) (mem : WalkMem) (M : Multiset Ino) (log : List LockOp)
    (names : List Name) :
    ∃ ops, match resolvePath mem s names with
      | .error e => Runs ops 0 0 ∧
        fsPathLookup { dentryContentsW := true } mem ((s.withHandles M).withLog log) names =
          ((s.withHandles M).withLog (log ++ ops), .error e)
      | .ok d => Runs ops 0 {(.contents d, .write)} ∧ Linked s d ∧
        fsPathLookup { dentryContentsW := true } mem ((s.withHandles M).withLog log) names =
          ((s.withHandles (d ::ₘ M)).withLog (log ++ ops), .ok d) := by
  have hf : ({ dentryContentsW := true } : LookupFlags).parentContentsW = false := rfl
  obtain ⟨ops, hr, h⟩ := pathLookup_free T mem M log names hf
  cases hp : resolvePath mem s names with
  | error e =>
    rw [hp] at h
    exact ⟨ops, hr, h⟩
  | ok d =>
    rw [hp] at h
    refine ⟨ops ++ [.acquire (.contents d) .write], hr.append Runs.acquire, h.1, ?_⟩
    rw [h.2]
    simp [acquire_eq]

theorem pathLookup_parent (T : Tree s) (mem : WalkMem) (M : Multiset Ino) (log : List LockOp)
    (hn : ¬ (names = [] ∨ names = [[]])) :
    ∃ ops, match resolvePath mem s names with
      | .error e => Runs ops 0 0 ∧
        fsPathLookup { parentContentsW := true } mem ((s.withHandles M).withLog log) names =
          ((s.withHandles M).withLog (log ++ ops), .error e)
      | .ok d => ∃ p n, childOf s p n = some d ∧ Runs ops 0 {(.contents p, .write)} ∧
        fsPathLookup { parentContentsW := true } mem ((s.withHandles M).withLog log) names =
          ((s.withHandles (d ::ₘ p ::ₘ M)).withLog (log ++ ops), .ok d) := by
  by_cases hc : mem.copy = true
  · simp only [resolvePath, fsPathLookup, hc, Bool.not_true, Bool.false_eq_true, if_false,
      Fs.withLog_root, Fs.withHandles_root, root_start, hn, if_true]
    obtain ⟨ops, h⟩ := pathWalk_spec T { parentContentsW := true } mem.key M
      (log ++ lookupOps s.root) none reached_root (fun h : names = [] => hn (.inl h))
    refine ⟨lookupOps s.root ++ ops, ?_⟩
    cases hr : resolve mem.key s names s.root with
    | error e =>
      rw [hr] at h
      refine ⟨lookupOps_runs.append h.2, ?_⟩
      rw [h.1]
      simp
    | ok c =>
      rw [hr] at h
      obtain ⟨p, n, hpc, h1, h2⟩ := h
      refine ⟨p, n, hpc, lookupOps_runs.append h2, ?_⟩
      rw [h1]
      simp [lastHandles]
  · simp only [Bool.not_eq_true] at hc
    refine ⟨[], ?_⟩
    simp [resolvePath, fsPathLookup, hc, Runs.nil]

theorem resolve_follow (h : resolve key s names d = .ok c) :
    follow (childOf s) d names = some c := by
  induction names generalizing d with
  | nil => simpa [resolve] using h
  | cons n rest ih =>
    simp only [resolve] at h
    split at h
    · cases h
    · cases hk : key rest.length with
      | false => simp [found, hk] at h
      | true =>
        simp only [found, hk, if_true] at h
        cases hc : childOf s d n with
        | none => simp [hc] at h
        | some e =>
          rw [hc] at h
          simpa [hc] using ih h

theorem resolvePath_follow {mem : WalkMem} (hn : names ≠ [[]]) (h : resolvePath mem s names = .ok c) :
    follow (childOf s) s.root names = some c := by
  simp only [resolvePath] at h
  split at h
  · cases h
  · split at h
    next hr =>
      obtain rfl := hr.resolve_right hn
      simpa using h
    · exact resolve_follow h

end Ltfs.Lookup
