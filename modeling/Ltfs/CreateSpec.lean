import Ltfs.Fsops
import Ltfs.Lookup

namespace Ltfs.CreateSpec

open Ltfs.Dentry Ltfs.Fsops Ltfs.LockSpec Ltfs.Handles Ltfs.DentryTree Ltfs.Lookup

variable {s : Fs} {parent : Ino} {name : Name} {isdir : Bool} {mem : Mem} {log : List LockOp}

/-- The state with a new dentry that has one reference for its link and one for the caller. -/
@[simps -fullyApplied]
def created (s : Fs) (uid : UInt64) (parent : Ino) (name : Name) (isdir : Bool) (es : Entries)
    (count : Nat) : Fs :=
  { s with
    live := Function.update s.live s.nextIno true
    isdir := Function.update s.isdir s.nextIno isdir
    isslink := Function.update s.isslink s.nextIno false
    name := Function.update s.name s.nextIno (some name)
    parent := Function.update s.parent s.nextIno (some parent)
    childList := Function.update (Function.update s.childList s.nextIno []) parent es
    numhandles := Function.update s.numhandles s.nextIno 2
    linkCount := fun d => if d = s.nextIno then (if isdir then 2 else 1)
      else if d = parent ∧ isdir then s.linkCount d + 1 else s.linkCount d
    deleted := Function.update s.deleted s.nextIno false
    extentlist := Function.update s.extentlist s.nextIno []
    usedBlocks := Function.update s.usedBlocks s.nextIno 0
    nextIno := s.nextIno + 1
    uidNumber := uid
    fileCount := count }

@[simps -fullyApplied]
def withUid (s : Fs) (u : UInt64) : Fs := { s with uidNumber := u }

/-- A dentry can be allocated: there is memory and a uid is left. -/
def CanAllocate (mem : Mem) (s : Fs) : Prop :=
  mem.dentry = true ∧ mem.locks = true ∧ s.uidNumber ≠ 0 ∧ s.uidNumber + 1 ≠ 0

/-- `fs_add_key_to_hash_table` has all the memory it needs for this table. -/
def CanAdd (mem : AddMem) (list : Entries) : Prop :=
  mem.entry = true ∧ mem.key = true ∧ (if list = [] then mem.table else mem.expand) = true

theorem addKey_ok {mem : AddMem} {list : Entries} {d : Ino} (h : CanAdd mem list) :
    fsAddKeyToHashTable mem list name d = ((name, d) :: list, .ok ()) := by
  obtain ⟨h1, h2, h3⟩ := h
  cases list with
  | nil => simpa [fsAddKeyToHashTable, h1, h2] using h3
  | cons e es => simpa [fsAddKeyToHashTable, h1, h2] using h3

/-- The new entry is about to be put in the table of its directory. -/
def ReachesAdd (mem : Mem) (parent : Ino) (name : Name) (s : Fs) : Prop :=
  ¬ filenameMax < name.length ∧ found mem.findSrc s parent name = none ∧ CanAllocate mem s

theorem allocate_none (name : Name) (isdir : Bool) (h : ¬ CanAllocate mem s) :
    ∃ u, fsAllocateDentry mem.dentry mem.locks s name isdir = (withUid s u, none) := by
  by_cases hd : mem.dentry = true
  · by_cases h0 : s.uidNumber = 0
    · have hu : fsAllocateUid s = (s, 0) := by simp [fsAllocateUid, h0]
      exact ⟨s.uidNumber, by simp [fsAllocateDentry, hd, hu, withUid]⟩
    · refine ⟨s.uidNumber + 1, ?_⟩
      have hc : s.uidNumber + 1 = 0 ∨ (!mem.locks) = true := by
        by_contra hc
        rw [not_or, Bool.not_eq_true, Bool.not_eq_false'] at hc
        exact h ⟨hd, hc.2, h0, hc.1⟩
      simp only [fsAllocateDentry, fsAllocateUid, hd, h0, hc, Bool.not_true, Bool.false_eq_true,
        if_false, if_true, withUid]
  · exact ⟨s.uidNumber, by simp [fsAllocateDentry, hd, withUid]⟩

theorem allocate_some (name : Name) (isdir : Bool) (h : CanAllocate mem s) :
    fsAllocateDentry mem.dentry mem.locks s name isdir =
      (initDentry (withUid s (s.uidNumber + 1)) name isdir, some s.nextIno) := by
  obtain ⟨hd, hl, h0, h1⟩ := h
  simp [fsAllocateDentry, fsAllocateUid, hd, hl, h0, h1, withUid]

theorem created_eq (name : Name) (isdir : Bool) (log : List LockOp) (hne : parent ≠ s.nextIno) (u : UInt64) (ops : List LockOp) (es : Entries) :
    ((linkDentry parent s.nextIno isdir ((initDentry (withUid ((s.withHandles {parent}).withLog log) u)
      name isdir).withLog ops)).setChildList parent es) =
      ((created s u parent name isdir es s.fileCount).withHandles {parent}).withLog (log ++ ops) := by
  cases isdir <;> apply Fs.ext
  case false.parent | true.parent =>
    simp [linkDentry, initDentry, Fs.setParent, Fs.incLink, Fs.getHandle, Fs.setChildList]
  case false.numhandles | true.numhandles =>
    funext d
    by_cases hd : d = s.nextIno
    · subst hd
      simp [linkDentry, initDentry, Fs.setParent, Fs.incLink, Fs.getHandle, Fs.setChildList, hne.symm]
    · simp [linkDentry, initDentry, Fs.setParent, Fs.incLink, Fs.getHandle, Fs.setChildList, hd]
  case false.linkCount | true.linkCount =>
    funext d
    by_cases hd : d = s.nextIno
    · subst hd
      simp [linkDentry, initDentry, Fs.setParent, Fs.incLink, Fs.getHandle, Fs.setChildList, hne.symm]
    · by_cases hp : d = parent
      · subst hp
        simp [linkDentry, initDentry, Fs.setParent, Fs.incLink, Fs.getHandle, Fs.setChildList, hd]
      · simp [linkDentry, initDentry, Fs.setParent, Fs.incLink, Fs.getHandle, Fs.setChildList, hd, hp]
  case false.log | true.log => simp [linkDentry, initDentry, Fs.setParent, Fs.incLink, Fs.getHandle,
    Fs.setChildList]
  all_goals rfl

/-- The locks taken while the entry is set up. -/
def addOps (parent d : Ino) : List LockOp :=
  [.acquire (.metadata parent) .write, .acquire (.metadata d) .write, .release (.metadata d) .write,
    .release (.metadata parent) .write]

theorem addOps_runs {d : Ino} {a : Held} : Runs (addOps parent d) a a := by
  have h := (Runs.acquire (l := .metadata parent) (m := .write) (a := a)).append
    ((Runs.balanced (l := .metadata d) (m := .write)).append Runs.release)
  exact h

theorem createIn_stop (T : Tree s) (isdir : Bool) (log : List LockOp) (hp : Linked s parent) (h : ¬ ReachesAdd mem parent name s) :
    ∃ e u ops, Runs ops {(.contents parent, .write)} 0 ∧
      createIn mem parent name isdir ((s.withHandles {parent}).withLog log) =
        ((withUid s u).withLog (log ++ ops), .error e) := by
  have hstop : ∀ u, fsReleaseDentry ((((withUid s u).withHandles {parent}).withLog
      log).release (.contents parent) .write) parent =
      (withUid s u).withLog
        (log ++ .release (.contents parent) .write :: lookupOps parent) := by
    intro u
    rw [release_eq, withLog_withLog,
      release_linked (s := withUid s u) (T.counted hp) (Multiset.mem_singleton_self _)]
    simp [lookupOps]
  have hruns : Runs (.release (.contents parent) .write :: lookupOps parent)
      {(Lock.contents parent, Mode.write)} 0 := (Runs.release (a := 0)).append lookupOps_runs
  by_cases hn : filenameMax < name.length
  · refine ⟨.nameTooLong, s.uidNumber, _, hruns, ?_⟩
    simp only [createIn, directoryLookup_long _ hn]
    rw [← hstop]
    rfl
  · cases hf : found mem.findSrc s parent name with
    | none =>
      have hc : ¬ CanAllocate mem s := fun hc => h ⟨hn, hf, hc⟩
      obtain ⟨u, hu⟩ := allocate_none (s := (s.withHandles {parent}).withLog log) name isdir hc
      refine ⟨.noMemory, u, _, hruns, ?_⟩
      simp only [createIn, directoryLookup_none hn hf, hu]
      rw [← hstop]
      rfl
    | some d =>
      have hd : childOf s parent name = some d := by
        cases hk : mem.findSrc with
        | false => simp [found, hk] at hf
        | true => simpa [found, hk] using hf
      refine ⟨.dentryExists, s.uidNumber,
        lookupOps d ++ [.release (.contents parent) .write] ++ lookupOps d ++ lookupOps parent, ?_, ?_⟩
      · have h1 : Runs [.release (.contents parent) .write] {(Lock.contents parent, Mode.write)} 0 :=
          Runs.release (a := 0)
        exact ((lookupOps_runs.append h1).append lookupOps_runs).append lookupOps_runs
      · simp only [createIn, directoryLookup_some hn hf, release_eq, withLog_withLog]
        rw [release_linked (T.counted (T.childOf_linked hd)) (Multiset.mem_cons_self _ _),
          Multiset.erase_cons_head, release_linked (T.counted hp) (Multiset.mem_singleton_self _)]
        simp [lookupOps]
        rfl

/-- The number of files after a call that has put the new entry in the table, or has failed to. -/
def newCount (s : Fs) (isdir : Bool) : Except Error Unit → Nat
  | .ok () => if isdir then s.fileCount else s.fileCount + 1
  | .error _ => s.fileCount

theorem createIn_add (T : Tree s) (isdir : Bool) (log : List LockOp) (hp : Linked s parent) (h : ReachesAdd mem parent name s) :
    ∃ ops, Runs ops {(.contents parent, .write)} 0 ∧
      createIn mem parent name isdir ((s.withHandles {parent}).withLog log) =
        ((created s (s.uidNumber + 1) parent name isdir
            (fsAddKeyToHashTable mem.add (s.childList parent) name s.nextIno).1
            (newCount s isdir (fsAddKeyToHashTable mem.add (s.childList parent) name s.nextIno).2)).withLog
          (log ++ ops),
        (fsAddKeyToHashTable mem.add (s.childList parent) name s.nextIno).2.map (fun _ => s.nextIno)) := by
  obtain ⟨hn, hf, hd, hl, h0, h1⟩ := h
  have hne : parent ≠ s.nextIno := Nat.ne_of_lt (T.known hp)
  have halloc := allocate_some (s := (s.withHandles {parent}).withLog log) name isdir ⟨hd, hl, h0, h1⟩
  generalize hadd : fsAddKeyToHashTable mem.add (s.childList parent) name s.nextIno = r
  obtain ⟨es, r⟩ := r
  have hstate : ∀ count, fsReleaseDentry
      ((((created s (s.uidNumber + 1) parent name isdir es count).withHandles {parent}).withLog
        (log ++ addOps parent s.nextIno)).release (.contents parent) .write) parent =
      (created s (s.uidNumber + 1) parent name isdir es count).withLog
        (log ++ (addOps parent s.nextIno ++ .release (.contents parent) .write :: lookupOps parent)) := by
    intro count
    have hpos : 0 < (created s (s.uidNumber + 1) parent name isdir es count).numhandles parent := by
      simpa [Function.update_of_ne hne] using T.counted hp
    rw [release_eq, withLog_withLog, release_linked hpos (Multiset.mem_singleton_self _)]
    simp [lookupOps]
  refine ⟨addOps parent s.nextIno ++ .release (.contents parent) .write :: lookupOps parent, ?_, ?_⟩
  · have h2 : Runs [.release (.contents parent) .write] {(Lock.contents parent, Mode.write)} 0 :=
      Runs.release (a := 0)
    exact addOps_runs.append (h2.append lookupOps_runs)
  · have hlist : (linkDentry parent s.nextIno isdir ((initDentry (withUid
        ((s.withHandles {parent}).withLog log) (s.uidNumber + 1)) name isdir).withLog
        [.acquire (.metadata parent) .write, .acquire (.metadata s.nextIno) .write])).childList parent =
        s.childList parent := by
      cases isdir <;>
        simp [linkDentry, initDentry, Fs.setParent, Fs.incLink, Fs.getHandle, Function.update_of_ne hne]
    have hnew := created_eq name isdir log hne (s.uidNumber + 1)
      [.acquire (.metadata parent) .write, .acquire (.metadata s.nextIno) .write] es
    have hops : log ++ [.acquire (.metadata parent) .write, .acquire (.metadata s.nextIno) .write] ++
        [.release (.metadata s.nextIno) .write] ++ [.release (.metadata parent) .write] =
        log ++ addOps parent s.nextIno := by simp [addOps]
    simp only [createIn, directoryLookup_none hn hf, halloc, acquire_eq, release_eq, withLog_withLog,
      Fs.withLog_nextIno, Fs.withHandles_nextIno, Fs.withLog_uidNumber, Fs.withHandles_uidNumber,
      List.singleton_append, hlist, hadd, hnew, hops]
    simp only [release_eq, withLog_withLog] at hstate
    cases r with
    | error e => simp only [hstate, newCount, Except.map]
    | ok _ =>
      cases isdir with
      | true => simp only [if_true, withLog_withLog, hstate, newCount, Except.map]
      | false =>
        have hcount : fsIncrementFileCount (created s (s.uidNumber + 1) parent name false es s.fileCount) =
          created s (s.uidNumber + 1) parent name false es (s.fileCount + 1) := rfl
        simp only [Bool.false_eq_true, if_false, increment_withLog, increment_withHandles, hcount,
          withLog_withLog, hstate, newCount, Except.map]

/-- The call gets as far as the table of the parent directory. -/
structure CreateReaches (env : Env) (path : Path) (s : Fs) (p : Path) (parent : Ino) : Prop where
  writable : env.writable = .ok ()
  ready : env.ready = .ok ()
  format : env.format path = .ok p
  volume : env.volume = .ok ()
  dir : resolvePath env.mem.src s p.dir = .ok parent
  add : ReachesAdd env.mem parent p.name s

variable {env : Env} {path p : Path}

theorem create_reaches (T : Tree s) (isdir : Bool) (h : CreateReaches env path s p parent) :
    ∃ ops, Runs ops 0 0 ∧ Linked s parent ∧
      ltfsFsopsCreate env path isdir s =
        ((created s (s.uidNumber + 1) parent p.name isdir
            (fsAddKeyToHashTable env.mem.add (s.childList parent) p.name s.nextIno).1
            (newCount s isdir
              (fsAddKeyToHashTable env.mem.add (s.childList parent) p.name s.nextIno).2)).withLog ops,
        (fsAddKeyToHashTable env.mem.add (s.childList parent) p.name s.nextIno).2.map
          (fun _ => s.nextIno)) := by
  obtain ⟨o1, h1⟩ := pathLookup_locked T env.mem.src 0 [.acquire .volume .read] p.dir
  rw [h.dir] at h1
  obtain ⟨r1, hl, h1⟩ := h1
  obtain ⟨o2, r2, h2⟩ := createIn_add T isdir ([.acquire .volume .read] ++ o1) hl h.add
  refine ⟨[.acquire .volume .read] ++ o1 ++ o2 ++ [.release .volume .read], ?_, hl, ?_⟩
  · have h3 := (r1.append r2).frame {(Lock.volume, Mode.read)}
    simp only [Multiset.zero_add] at h3
    rw [List.append_assoc [_] o1]
    exact (Runs.acquire.append h3).append Runs.release
  · simp only [withHandles_zero] at h1
    simp only [ltfsFsopsCreate, h.writable, h.ready, h.format, h.volume, acquire_eq, h1]
    simp only [Multiset.cons_zero, h2, release_eq, withLog_withLog]

theorem create_stops (T : Tree s) (isdir : Bool) (h : ∀ p parent, ¬ CreateReaches env path s p parent) :
    ∃ e u ops, Runs ops 0 0 ∧ ltfsFsopsCreate env path isdir s = ((withUid s u).withLog ops, .error e) := by
  have hself : ∀ e : Error, ∃ e' u ops, Runs ops 0 0 ∧
      ((s, .error e) : Fs × Except Error Ino) = ((withUid s u).withLog ops, .error e') :=
    fun e => ⟨e, s.uidNumber, [], Runs.nil, by simp [withUid]⟩
  cases hw : env.writable with
  | error e => simpa [ltfsFsopsCreate, hw] using hself e
  | ok _ =>
    cases hr : env.ready with
    | error e => simpa [ltfsFsopsCreate, hw, hr] using hself e
    | ok _ =>
      cases hf : env.format path with
      | error e => simpa [ltfsFsopsCreate, hw, hr, hf] using hself e
      | ok p =>
        cases hv : env.volume with
        | error e => simpa [ltfsFsopsCreate, hw, hr, hf, hv] using hself e
        | ok _ =>
          obtain ⟨o1, h1⟩ := pathLookup_locked T env.mem.src 0 [.acquire .volume .read] p.dir
          cases hd : resolvePath env.mem.src s p.dir with
          | error e =>
            rw [hd] at h1
            refine ⟨e, s.uidNumber, [.acquire .volume .read] ++ o1 ++ [.release .volume .read], ?_, ?_⟩
            · exact (Runs.acquire.append h1.1.of_empty).append Runs.release
            · have h2 := h1.2
              simp only [withHandles_zero] at h2
              simp only [ltfsFsopsCreate, hw, hr, hf, hv, acquire_eq, h2, release_eq, withLog_withLog]
              rfl
          | ok parent =>
            rw [hd] at h1
            obtain ⟨r1, hl, h1⟩ := h1
            have hstop : ¬ ReachesAdd env.mem parent p.name s :=
              fun ha => h p parent ⟨hw, hr, hf, hv, hd, ha⟩
            obtain ⟨e, u, o2, r2, h2⟩ := createIn_stop T isdir ([.acquire .volume .read] ++ o1) hl
              hstop
            refine ⟨e, u, [.acquire .volume .read] ++ o1 ++ o2 ++ [.release .volume .read], ?_, ?_⟩
            · have h3 := (r1.append r2).frame {(Lock.volume, Mode.read)}
              simp only [Multiset.zero_add] at h3
              rw [List.append_assoc [_] o1]
              exact (Runs.acquire.append h3).append Runs.release
            · simp only [withHandles_zero] at h1
              simp only [ltfsFsopsCreate, hw, hr, hf, hv, acquire_eq, h1]
              simp only [Multiset.cons_zero, h2, release_eq, withLog_withLog]

end Ltfs.CreateSpec
