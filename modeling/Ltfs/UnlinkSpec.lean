import Ltfs.CreateSpec

namespace Ltfs.UnlinkSpec

open Ltfs.Dentry Ltfs.Fsops Ltfs.LockSpec Ltfs.Handles Ltfs.DentryTree Ltfs.Lookup

variable {s : Fs} {dir d parent : Ino} {n : Name} {mem : Mem} {log : List LockOp} {env : Env}
  {path p : Path} {M : Multiset Ino}

/-- The state after `d` is taken out of the table of `dir`, its handles apart. -/
@[simps -fullyApplied]
def detached (s : Fs) (dir d : Ino) (n : Name) : Fs :=
  { s with
    childList := Function.update s.childList dir ((s.childList dir).erase (n, d))
    parent := Function.update s.parent d none
    deleted := Function.update s.deleted d true
    linkCount := fun x => if x = d then s.linkCount d - 1
      else if x = dir ∧ s.isdir d then s.linkCount x - 1 else s.linkCount x }

/-- The counters of the index after `d` is unlinked. -/
@[simps -fullyApplied]
def uncounted (s : Fs) (d : Ino) : Fs :=
  { s with
    fileCount := if s.isdir d then s.fileCount else s.fileCount - 1
    validBlocks := s.validBlocks - s.usedBlocks d }

def unlinked (s : Fs) (dir d : Ino) (n : Name) : Fs := (uncounted (detached s dir d n) d).dropHandle d

theorem findKey_child (T : Tree s) (h : childOf s dir n = some d) (key : Bool) :
    fsFindKeyFromHashTable key (s.childList dir) (s.name d) = if key then some (n, d) else none := by
  rw [T.childOf_name h, findKey_eq]
  cases key with
  | false => rfl
  | true => simpa using (find_eq_some (T.keys dir)).mpr (mem_of_childOf h)

/-- The lock taken to see whether a directory is empty. -/
def emptyOps (s : Fs) (d : Ino) : List LockOp :=
  if s.isdir d then [.acquire (.contents d) .read, .release (.contents d) .read] else []

theorem emptyOps_runs {a : Held} : Runs (emptyOps s d) a a := by
  by_cases h : s.isdir d = true
  · simpa [emptyOps, h] using Runs.balanced
  · simpa [emptyOps, h] using Runs.nil

theorem checkEmpty_eq (s : Fs) (M : Multiset Ino) (log : List LockOp) (d : Ino) :
    checkEmpty d ((s.withHandles M).withLog log) = (s.withHandles M).withLog (log ++ emptyOps s d) := by
  by_cases h : s.isdir d = true
  · simp [checkEmpty, emptyOps, h, acquire_eq, release_eq]
  · simp [checkEmpty, emptyOps, h]

theorem unlinkFound_nonempty (hd : s.isdir d ∧ s.childList d ≠ []) :
    unlinkFound mem parent d ((s.withHandles M).withLog log) =
      ((s.withHandles M).withLog (log ++ emptyOps s d), .error .dirNotEmpty) := by
  rw [unlinkFound, checkEmpty_eq]
  exact if_pos hd

/-- The locks on the parent and on the dentry while the entry is removed; the one on the parent is
kept. -/
def dropOps (s : Fs) (parent d : Ino) : List LockOp :=
  emptyOps s d ++ [.acquire (.metadata parent) .write, .acquire (.metadata d) .write,
    .release (.metadata d) .write]

theorem dropOps_runs {a : Held} : Runs (dropOps s parent d) a ((.metadata parent, .write) ::ₘ a) := by
  have h := Runs.acquire (l := .metadata parent) (m := .write) (a := a)
  exact emptyOps_runs.append (h.append (Runs.balanced (l := .metadata d) (m := .write)))

theorem unlinkFound_missed (hd : ¬ (s.isdir d ∧ s.childList d ≠ []))
    (hk : mem.dropSrc = false) :
    unlinkFound mem parent d ((s.withHandles M).withLog log) =
      ((s.withHandles M).withLog (log ++ dropOps s parent d), .ok ()) := by
  simp only [unlinkFound, Fs.withLog_isdir, Fs.withHandles_isdir, Fs.withLog_childList,
    Fs.withHandles_childList, checkEmpty_eq, hd, if_false, hk, fsFindKeyFromHashTable, release_eq,
    acquire_eq, withLog_withLog, Bool.false_eq_true]
  simp [dropOps]

theorem unlinkEntry_eq (hne : parent ≠ d) :
    unlinkEntry parent d (n, d) s = (detached s parent d n).putHandle d := by
  have hlink : (unlinkEntry parent d (n, d) s).linkCount = (detached s parent d n).linkCount := by
    funext x
    by_cases hd : s.isdir d = true
    · by_cases hx : x = d
      · subst hx
        simp [unlinkEntry, Fs.setChildList, Fs.setDeleted, Fs.setParent, Fs.decLink, Fs.putHandle, hd,
          hne.symm]
      · by_cases hp : x = parent
        · subst hp
          simp [unlinkEntry, Fs.setChildList, Fs.setDeleted, Fs.setParent, Fs.decLink, Fs.putHandle, hd, hx]
        · simp [unlinkEntry, Fs.setChildList, Fs.setDeleted, Fs.setParent, Fs.decLink, Fs.putHandle, hd,
            hx, hp]
    · by_cases hx : x = d
      · subst hx
        simp [unlinkEntry, Fs.setChildList, Fs.setDeleted, Fs.setParent, Fs.decLink, Fs.putHandle, hd]
      · simp [unlinkEntry, Fs.setChildList, Fs.setDeleted, Fs.setParent, Fs.decLink, Fs.putHandle, hd, hx]
  by_cases hd : s.isdir d = true
  · apply Fs.ext
    case linkCount => exact hlink
    all_goals simp [unlinkEntry, Fs.setChildList, Fs.setDeleted, Fs.setParent, Fs.decLink, Fs.putHandle, hd]
  · apply Fs.ext
    case linkCount => exact hlink
    all_goals simp [unlinkEntry, Fs.setChildList, Fs.setDeleted, Fs.setParent, Fs.decLink, Fs.putHandle, hd]

theorem uncountDentry_eq (s : Fs) (d : Ino) : uncountDentry d s = uncounted s d := by
  by_cases hd : s.isdir d = true
  · simp [uncountDentry, uncounted, hd]
  · simp [uncountDentry, uncounted, hd, fsDecrementFileCount]

theorem unlinkFound_done (T : Tree s) (h : childOf s parent n = some d)
    (hd : ¬ (s.isdir d ∧ s.childList d ≠ [])) (hk : mem.dropSrc = true) (hm : d ∈ M) :
    unlinkFound mem parent d ((s.withHandles M).withLog log) =
      (((uncounted (detached s parent d n) d).withHandles (M.erase d)).withLog
        (log ++ dropOps s parent d), .ok ()) := by
  have hne : parent ≠ d := (T.childOf_ne h).symm
  have hf := findKey_child T h mem.dropSrc
  rw [hk, if_pos rfl] at hf
  simp only [unlinkFound, Fs.withLog_isdir, Fs.withHandles_isdir, Fs.withLog_childList,
    Fs.withHandles_childList, checkEmpty_eq, hd, if_false, release_eq, acquire_eq, withLog_withLog,
    Fs.withLog_name, Fs.withHandles_name, hk, hf, unlinkEntry_eq hne, uncountDentry_eq]
  have h1 : detached ((s.withHandles M).withLog (log ++ (emptyOps s d ++
      [.acquire (.metadata parent) .write, .acquire (.metadata d) .write]))) parent d n =
      ((detached s parent d n).withHandles M).withLog (log ++ (emptyOps s d ++
        [.acquire (.metadata parent) .write, .acquire (.metadata d) .write])) := rfl
  simp only [List.append_assoc, List.cons_append, List.nil_append, h1, putHandle_withLog,
    putHandle_withHandles_of_mem hm, withLog_withLog, dropOps]
  rfl

/-- The call finds the dentry to unlink. -/
structure UnlinkReaches (env : Env) (path : Path) (s : Fs) (p : Path) (d : Ino) : Prop where
  writable : tolerateLessSpace env.writable = .ok ()
  ready : env.ready = .ok ()
  format : env.formatSource path = .ok p
  noRoot : p.names ≠ [[]]
  volume : env.volume = .ok ()
  found : resolvePath env.mem.src s p.names = .ok d

theorem names_proper (h : p.names ≠ [[]]) : ¬ (p.names = [] ∨ p.names = [[]]) := by
  simp [Path.names, List.append_eq_nil_iff] at h ⊢
  exact h

theorem unlink_stops (T : Tree s) (h : ∀ p d, ¬ UnlinkReaches env path s p d) :
    ∃ e ops, Runs ops 0 0 ∧ ltfsFsopsUnlink env path s = (s.withLog ops, .error e) := by
  have hself : ∀ e : Error, ∃ e' ops, Runs ops 0 0 ∧
      ((s, .error e) : Fs × Except Error Unit) = (s.withLog ops, .error e') :=
    fun e => ⟨e, [], Runs.nil, by simp⟩
  cases hw : tolerateLessSpace env.writable with
  | error e => simpa [ltfsFsopsUnlink, hw] using hself e
  | ok _ =>
    cases hr : env.ready with
    | error e => simpa [ltfsFsopsUnlink, hw, hr] using hself e
    | ok _ =>
      cases hf : env.formatSource path with
      | error e => simpa [ltfsFsopsUnlink, hw, hr, hf] using hself e
      | ok p =>
        by_cases hn : p.names = [[]]
        · simpa [ltfsFsopsUnlink, hw, hr, hf, hn] using hself .unlinkRoot
        · cases hv : env.volume with
          | error e => simpa [ltfsFsopsUnlink, hw, hr, hf, hn, hv] using hself e
          | ok _ =>
            obtain ⟨o1, h1⟩ := pathLookup_parent T env.mem.src 0 [.acquire .volume .read] (names_proper hn)
            cases hd : resolvePath env.mem.src s p.names with
            | ok d => exact absurd ⟨hw, hr, hf, hn, hv, hd⟩ (h p d)
            | error e =>
              rw [hd] at h1
              refine ⟨e, [.acquire .volume .read] ++ o1 ++ [.release .volume .read], ?_, ?_⟩
              · exact (Runs.acquire.append h1.1.of_empty).append Runs.release
              · have h2 := h1.2
                simp only [withHandles_zero] at h2
                simp only [ltfsFsopsUnlink, hw, hr, hf, hn, hv, acquire_eq, h2, release_eq,
                  withLog_withLog, if_false]

/-- What a call does that finds its dentry, up to the step in the middle. -/
theorem unlink_found (T : Tree s) (h : UnlinkReaches env path s p d) :
    ∃ parent n o1, childOf s parent n = some d ∧ Runs o1 0 {(.contents parent, .write)} ∧
      ltfsFsopsUnlink env path s =
        (match unlinkFound env.mem parent d
            ((s.withHandles (d ::ₘ {parent})).withLog ([.acquire .volume .read] ++ o1)) with
          | (s, r) => (fsReleaseDentry ((fsReleaseDentryUnlocked (s.release (.contents parent) .write)
              parent).release .volume .read) d, r)) := by
  obtain ⟨o1, h1⟩ := pathLookup_parent T env.mem.src 0 [.acquire .volume .read] (names_proper h.noRoot)
  rw [h.found] at h1
  obtain ⟨parent, n, hc, hr, h1⟩ := h1
  refine ⟨parent, n, o1, hc, hr, ?_⟩
  simp only [withHandles_zero] at h1
  simp only [ltfsFsopsUnlink, h.writable, h.ready, h.format, h.noRoot, h.volume, acquire_eq, h1,
    if_false, Fs.withLog_parent, Fs.withHandles_parent, T.childOf_parent hc, Option.getD_some]
  rfl

/-- The tail of the call when both references are beside the ones of the links. -/
theorem unlink_tail (T : Tree s) (hp : Linked s parent) (hd : Linked s d) (log : List LockOp) :
    fsReleaseDentry ((fsReleaseDentryUnlocked (((s.withHandles (d ::ₘ {parent})).withLog log).release
      (.contents parent) .write) parent).release .volume .read) d =
      s.withLog (log ++ [.release (.contents parent) .write, .release (.metadata parent) .write,
        .release .volume .read] ++ lookupOps d) := by
  have hm : parent ∈ d ::ₘ ({parent} : Multiset Ino) := by simp
  have he : (d ::ₘ ({parent} : Multiset Ino)).erase parent = {d} := by
    by_cases h : parent = d
    · subst h
      simp
    · rw [Multiset.erase_cons_tail _ (fun h' => h h'.symm)]
      simp
  simp only [release_eq, withLog_withLog]
  rw [releaseUnlocked_linked (T.counted hp) hm, he, withLog_withLog,
    release_linked (T.counted hd) (Multiset.mem_singleton_self _)]
  simp [lookupOps]

/-- A directory that is not empty is left alone, but the lock on its parent's metadata is given
back without having been taken. -/
theorem unlink_nonempty (T : Tree s) (h : UnlinkReaches env path s p d)
    (hd : s.isdir d ∧ s.childList d ≠ []) :
    ∃ ops, check 0 ops = none ∧ ltfsFsopsUnlink env path s = (s.withLog ops, .error .dirNotEmpty) := by
  obtain ⟨parent, n, o1, hc, hr, heq⟩ := unlink_found T h
  rw [heq, unlinkFound_nonempty hd]
  refine ⟨[.acquire .volume .read] ++ o1 ++ emptyOps s d ++ [.release (.contents parent) .write,
    .release (.metadata parent) .write, .release .volume .read] ++ lookupOps d, ?_, ?_⟩
  · have h1 := hr.frame {(Lock.volume, Mode.read)}
    have h2 := (Runs.acquire (l := .volume) (m := .read) (a := 0)).append h1
    have h3 := (h2.append (emptyOps_runs (s := s) (d := d))) 0
    simp only [Multiset.add_zero] at h3
    rw [check_append, check_append, h3]
    simp [check]
  · exact congrArg (·, _) (unlink_tail T (T.parent_linked hc) (T.childOf_linked hc) _)

theorem unlinkOps_runs {o1 : List LockOp} (h : Runs o1 0 {(.contents parent, .write)}) :
    Runs ([.acquire .volume .read] ++ o1 ++ dropOps s parent d ++ [.release (.contents parent) .write,
      .release (.metadata parent) .write, .release .volume .read]) 0 0 := by
  have h1 := h.frame {(Lock.volume, Mode.read)}
  have h2 := (Runs.acquire (l := .volume) (m := .read) (a := 0)).append h1
  rw [Multiset.singleton_add] at h2
  have h3 : Runs ([.acquire .volume .read] ++ o1 ++ dropOps s parent d) 0 _ := h2.append dropOps_runs
  refine h3.append ?_
  have h4 : Runs [.release (.contents parent) .write]
      ((Lock.metadata parent, Mode.write) ::ₘ (Lock.contents parent, Mode.write) ::ₘ
        {(Lock.volume, Mode.read)}) ((Lock.metadata parent, Mode.write) ::ₘ {(Lock.volume, Mode.read)}) :=
    Runs.release_second
  exact h4.append (Runs.release.append (Runs.release (a := 0)))

theorem unlink_missed (T : Tree s) (h : UnlinkReaches env path s p d)
    (hd : ¬ (s.isdir d ∧ s.childList d ≠ [])) (hk : env.mem.dropSrc = false) :
    ∃ ops, Runs ops 0 0 ∧ ltfsFsopsUnlink env path s = (s.withLog ops, .ok ()) := by
  obtain ⟨parent, n, o1, hc, hr, heq⟩ := unlink_found T h
  rw [heq, unlinkFound_missed hd hk]
  refine ⟨[.acquire .volume .read] ++ o1 ++ dropOps s parent d ++ [.release (.contents parent) .write,
    .release (.metadata parent) .write, .release .volume .read] ++ lookupOps d, ?_, ?_⟩
  · exact (unlinkOps_runs hr).append lookupOps_runs
  · exact congrArg (·, _) (unlink_tail T (T.parent_linked hc) (T.childOf_linked hc) _)

theorem unlink_done (T : Tree s) (h : UnlinkReaches env path s p d)
    (hd : ¬ (s.isdir d ∧ s.childList d ≠ [])) (hk : env.mem.dropSrc = true) :
    ∃ ops parent n, Runs ops 0 0 ∧ childOf s parent n = some d ∧
      ltfsFsopsUnlink env path s = ((unlinked s parent d n).withLog ops, .ok ()) := by
  obtain ⟨parent, n, o1, hc, hr, heq⟩ := unlink_found T h
  have hne : parent ≠ d := (T.childOf_ne hc).symm
  have hpos : 0 < (uncounted (detached s parent d n) d).numhandles d := T.counted (T.childOf_linked hc)
  have hpp : 0 < (uncounted (detached s parent d n) d).numhandles parent :=
    T.counted (T.parent_linked hc)
  rw [heq, unlinkFound_done T hc hd hk (Multiset.mem_cons_self _ _), Multiset.erase_cons_head]
  refine ⟨[.acquire .volume .read] ++ o1 ++ dropOps s parent d ++ [.release (.contents parent) .write,
    .release (.metadata parent) .write, .release .volume .read] ++ lookupOps d, parent, n,
    (unlinkOps_runs hr).append lookupOps_runs, hc, ?_⟩
  have hchild : (uncounted (detached s parent d n) d).childList d = [] := by
    have h1 : s.childList d = [] := by
      by_contra hl
      exact hd ⟨(T.owned hl).2, hl⟩
    simpa [Function.update_of_ne hne.symm] using h1
  have hparent : (uncounted (detached s parent d n) d).parent d = none := by simp
  simp only [release_eq, withLog_withLog]
  rw [releaseUnlocked_linked hpp (Multiset.mem_singleton_self _)]
  simp only [Multiset.erase_singleton, withHandles_zero, withLog_withLog, fsReleaseDentry, acquire_eq]
  rw [releaseUnlocked_alone (s := (uncounted (detached s parent d n) d).withLog _) hpos hparent hchild]
  refine congrArg (·, _) ?_
  have hdrop : ∀ ops, ((uncounted (detached s parent d n) d).withLog ops).dropHandle d =
      (unlinked s parent d n).withLog ops := fun _ => rfl
  rw [hdrop, withLog_withLog]
  simp [lookupOps]

end Ltfs.UnlinkSpec
