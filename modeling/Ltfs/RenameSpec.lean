import Ltfs.TreeSteps

namespace Ltfs.RenameSpec

open Ltfs.Dentry Ltfs.Fsops Ltfs.LockSpec Ltfs.Handles Ltfs.DentryTree Ltfs.Lookup Ltfs.UnlinkSpec
  Ltfs.RenameLookup Ltfs.TreeSteps

variable {s : Fs} {fromdir todir f t : Ino} {fn tn : Name} {mem : Mem} {log : List LockOp}
  {M : Multiset Ino} {iosched : Bool}

/-- The replaced dentry has given back its link, but its entry is still in the table. -/
@[simps -fullyApplied]
def dropped (s : Fs) (dir d : Ino) : Fs :=
  { s with
    parent := Function.update s.parent d none
    deleted := Function.update s.deleted d true
    linkCount := fun x => if x = d then s.linkCount d - 1
      else if x = dir ∧ s.isdir d then s.linkCount x - 1 else s.linkCount x }

theorem dropTarget_eq (hne : todir ≠ t) : dropTarget todir t s = (dropped s todir t).putHandle t := by
  have hlink : (dropTarget todir t s).linkCount = (dropped s todir t).linkCount := by
    funext x
    by_cases hd : s.isdir t = true
    · by_cases hx : x = t
      · subst hx
        simp [dropTarget, Fs.setDeleted, Fs.setParent, Fs.decLink, Fs.putHandle, hd, hne.symm]
      · by_cases hp : x = todir
        · subst hp
          simp [dropTarget, Fs.setDeleted, Fs.setParent, Fs.decLink, Fs.putHandle, hd, hx]
        · simp [dropTarget, Fs.setDeleted, Fs.setParent, Fs.decLink, Fs.putHandle, hd, hx, hp]
    · by_cases hx : x = t
      · subst hx
        simp [dropTarget, Fs.setDeleted, Fs.setParent, Fs.decLink, Fs.putHandle, hd]
      · simp [dropTarget, Fs.setDeleted, Fs.setParent, Fs.decLink, Fs.putHandle, hd, hx]
  by_cases hd : s.isdir t = true
  · apply Fs.ext
    case linkCount => exact hlink
    all_goals simp [dropTarget, Fs.setDeleted, Fs.setParent, Fs.decLink, Fs.putHandle, hd]
  · apply Fs.ext
    case linkCount => exact hlink
    all_goals simp [dropTarget, Fs.setDeleted, Fs.setParent, Fs.decLink, Fs.putHandle, hd]

theorem dropTarget_with (hne : todir ≠ t) :
    dropTarget todir t ((s.withHandles (f ::ₘ t ::ₘ M)).withLog log) =
      ((dropped s todir t).withHandles (f ::ₘ M)).withLog log := by
  have h : dropped ((s.withHandles (f ::ₘ t ::ₘ M)).withLog log) todir t =
      ((dropped s todir t).withHandles (f ::ₘ t ::ₘ M)).withLog log := rfl
  rw [dropTarget_eq hne, h, Multiset.cons_swap, putHandle_withLog, putHandle_withHandles]

theorem renameReplace_nonempty (hf : 0 < s.numhandles f) (ht : 0 < s.numhandles t)
    (hd : s.isdir t ∧ s.childList t ≠ []) :
    renameReplace mem todir f t ((s.withHandles (f ::ₘ t ::ₘ M)).withLog log) =
      ((s.withHandles M).withLog (log ++ emptyOps s t ++ lookupOps f ++ lookupOps t),
        .error (some .dirNotEmpty)) := by
  rw [renameReplace, checkEmpty_eq, release_linked hf (Multiset.mem_cons_self _ _),
    Multiset.erase_cons_head, release_linked ht (Multiset.mem_cons_self _ _), Multiset.erase_cons_head]
  exact if_pos hd

theorem renameReplace_missed (hne : todir ≠ t) (hd : ¬ (s.isdir t ∧ s.childList t ≠ []))
    (hk : mem.dropDst = false) :
    renameReplace mem todir f t ((s.withHandles (f ::ₘ t ::ₘ M)).withLog log) =
      (((dropped s todir t).withHandles (f ::ₘ M)).withLog (log ++ emptyOps s t ++ lookupOps t),
        .error none) := by
  simp only [renameReplace, Fs.withLog_isdir, Fs.withHandles_isdir, Fs.withLog_childList,
    Fs.withHandles_childList, checkEmpty_eq, hd, if_false, hk, fsFindKeyFromHashTable, release_eq,
    acquire_eq, withLog_withLog, Bool.false_eq_true, dropTarget_with hne]
  simp [lookupOps]

theorem renameReplace_done (T : Tree s) (ht : childOf s todir tn = some t)
    (hd : ¬ (s.isdir t ∧ s.childList t ≠ [])) (hk : mem.dropDst = true) (hm : t ∉ f ::ₘ M) :
    renameReplace mem todir f t ((s.withHandles (f ::ₘ t ::ₘ M)).withLog log) =
      (((removed s todir t tn).withHandles (f ::ₘ M)).withLog (log ++ emptyOps s t ++ lookupOps t),
        .ok ()) := by
  have hne : todir ≠ t := (T.childOf_ne ht).symm
  have hf := findKey_child T ht mem.dropDst
  rw [hk, if_pos rfl] at hf
  have hdir : s.isdir todir = true := T.parent_isdir ht
  have hempty : s.childList t = [] := by
    by_contra hl
    exact hd ⟨(T.owned hl).2, hl⟩
  have hpos : 0 < s.numhandles t := T.counted (T.childOf_linked ht)
  have hdet : ∀ ops, ((((dropped s todir t).withHandles (f ::ₘ M)).withLog ops).setChildList todir
      ((s.childList todir).erase (tn, t))) =
      ((detached s todir t tn).withHandles (f ::ₘ M)).withLog ops := fun _ => rfl
  simp only [renameReplace, Fs.withLog_isdir, Fs.withHandles_isdir, Fs.withLog_childList,
    Fs.withHandles_childList, checkEmpty_eq, hd, if_false, acquire_eq, withLog_withLog,
    dropTarget_with hne, Fs.withLog_name, Fs.withHandles_name, dropped_childList, dropped_name, hk, hf,
    hdet, detached_isdir, hdir, if_true]
  have halone : ∀ ops, fsReleaseDentryUnlocked
      (((detached s todir t tn).withHandles (f ::ₘ M)).withLog ops) t =
      ((removed s todir t tn).withHandles (f ::ₘ M)).withLog (ops ++ [.release (.metadata t) .write]) := by
    intro ops
    have hcount : 0 < (((detached s todir t tn).withHandles (f ::ₘ M)).withLog ops).numhandles t := by
      simp only [Fs.withLog_numhandles, Fs.withHandles_numhandles, detached_numhandles]
      omega
    have h1 := releaseUnlocked_alone hcount (by simp)
      (by simpa [Function.update_of_ne hne.symm] using hempty)
    have h2 : (((detached s todir t tn).withHandles (f ::ₘ M)).withLog ops).dropHandle t =
        (((detached s todir t tn).withHandles (f ::ₘ M)).dropHandle t).withLog ops := rfl
    rw [h1, h2, dropHandle_withHandles hm (by simpa using hpos), withLog_withLog]
    rfl
  rw [halone]
  simp [lookupOps]

theorem moveEntry_eq (es : Entries) : (moveEntry fromdir todir f (fn, f) tn s).setChildList todir es =
    relinked s fromdir todir f fn tn es := by
  by_cases hd : s.isdir f = true
  · simp only [moveEntry, Fs.setChildList, relinked, Fs.setParent, Fs.setName, hd, if_true]
    rfl
  · simp only [moveEntry, Fs.setChildList, relinked, Fs.setParent, Fs.setName, hd, if_false,
      Bool.false_eq_true]

theorem moveEntry_childList : (moveEntry fromdir todir f (fn, f) tn s).childList todir =
    otherEntries s fromdir todir f fn := by
  by_cases hd : s.isdir f = true
  · simp [moveEntry, Fs.setChildList, otherEntries, Fs.setParent, Fs.setName, hd, Fs.decLink, Fs.incLink]
  · simp [moveEntry, Fs.setChildList, otherEntries, Fs.setParent, Fs.setName, hd]

theorem renameMove_missed (hk : mem.dropSrc = false) :
    renameMove mem iosched fromdir todir f tn ((s.withHandles M).withLog log) =
      ((s.withHandles M).withLog (log ++ lookupOps f), .error none) := by
  simp only [renameMove, hk, fsFindKeyFromHashTable, Bool.false_eq_true, if_false, acquire_eq,
    release_eq, withLog_withLog]
  simp [lookupOps]

/-- What the caller of the move finds for the answer of `fs_add_key_to_hash_table`. -/
def afterAdd (iosched : Bool) (b : Fs) (f : Ino) (M : Multiset Ino) (log : List LockOp) :
    Except Error Unit → Fs × Except (Option Error) Unit
  | .error e => ((b.withHandles (f ::ₘ M)).withLog log, .error (some e))
  | .ok () => ((b.withHandles (if iosched then f ::ₘ M else M)).withLog log, .ok ())

theorem renameMove_add (T : Tree s) (hf : childOf s fromdir fn = some f) (hk : mem.dropSrc = true) :
    renameMove mem iosched fromdir todir f tn ((s.withHandles (f ::ₘ M)).withLog log) =
      afterAdd iosched (relinked s fromdir todir f fn tn
          (fsAddKeyToHashTable mem.add (otherEntries s fromdir todir f fn) tn f).1) f M
        (log ++ lookupOps f) (fsAddKeyToHashTable mem.add (otherEntries s fromdir todir f fn) tn f).2 := by
  have hfind := findKey_child T hf mem.dropSrc
  rw [hk, if_pos rfl] at hfind
  have hpos : ∀ es, 0 < (relinked s fromdir todir f fn tn es).numhandles f :=
    fun _ => T.counted (T.childOf_linked hf)
  have hother : otherEntries ((s.withHandles (f ::ₘ M)).withLog (log ++ [.acquire (.metadata f) .write]))
      fromdir todir f fn = otherEntries s fromdir todir f fn := rfl
  have hrel : ∀ es, relinked ((s.withHandles (f ::ₘ M)).withLog (log ++ [.acquire (.metadata f) .write]))
      fromdir todir f fn tn es = ((relinked s fromdir todir f fn tn es).withHandles (f ::ₘ M)).withLog
        (log ++ [.acquire (.metadata f) .write]) := by
    intro es
    by_cases hd : s.isdir f = true
    · simp [relinked, Fs.withLog, Fs.withHandles, hd, Fs.decLink, Fs.incLink]
    · simp [relinked, Fs.withLog, Fs.withHandles, hd]
  generalize hadd : fsAddKeyToHashTable mem.add (otherEntries s fromdir todir f fn) tn f = r
  obtain ⟨es, r⟩ := r
  simp only [renameMove, acquire_eq, withLog_withLog, Fs.withLog_childList, Fs.withHandles_childList,
    Fs.withLog_name, Fs.withHandles_name, hk, hfind, moveEntry_childList, hother, hadd, moveEntry_eq,
    hrel, release_eq]
  cases r with
  | error e => simp [afterAdd, lookupOps]
  | ok _ =>
    cases iosched with
    | true => simp [afterAdd, lookupOps]
    | false =>
      simp only [Bool.false_eq_true, if_false, afterAdd]
      rw [releaseUnlocked_linked (hpos es) (Multiset.mem_cons_self _ _), Multiset.erase_cons_head]
      simp [lookupOps]

/-- The target of the call if it is not the source itself. -/
def distinct (t : Option Ino) (f : Ino) : Option Ino := if t = some f then none else t

/-- The call has both directories. -/
structure RenameEnters (env : Env) (src dst : Path) (s : Fs) (p q : Path) (fromdir todir : Ino) :
    Prop where
  writable : tolerateLessSpace env.writable = .ok ()
  ready : env.ready = .ok ()
  formatSrc : env.formatSource src = .ok p
  formatDst : env.format dst = .ok q
  copies : env.mem.copies = true
  volume : env.volume = .ok ()
  srcDir : resolvePath env.mem.src s p.dir = .ok fromdir
  dstDir : resolvePath env.mem.dst s q.dir = .ok todir

/-- The call gets as far as the first change of the tree. -/
structure RenameReaches (env : Env) (src dst : Path) (s : Fs) (p q : Path) (fromdir todir f : Ino)
    (u : Option Ino) : Prop extends RenameEnters env src dst s p q fromdir todir where
  found : looked env.mem s fromdir todir p.name q.name = .ok (f, u)
  check : renameCheck s fromdir todir f u = none
  empty : ∀ d, distinct u f = some d → ¬ (s.isdir d ∧ s.childList d ≠ [])

theorem looked_ok {t : Option Ino} (h : looked mem s fromdir todir fn tn = .ok (f, t)) :
    found mem.findSrc s fromdir fn = some f ∧ t = found mem.findDst s todir tn ∧
      ¬ filenameMax < tn.length := by
  simp only [looked] at h
  split at h
  · simp only [lookedUp] at h
    split at h
    · cases h
    next htn =>
      split at h
      · cases h
      · cases hf : found mem.findSrc s fromdir fn with
        | none => simp [hf] at h
        | some f' =>
          simp only [hf, Except.ok.injEq, Prod.mk.injEq] at h
          exact ⟨congrArg some h.1, h.2.symm, htn⟩
  · simp only [lookedDown] at h
    split at h
    · cases h
    · cases hf : found mem.findSrc s fromdir fn with
      | none => simp [hf] at h
      | some f' =>
        simp only [hf] at h
        split at h
        · cases h
        next htn =>
          simp only [Except.ok.injEq, Prod.mk.injEq] at h
          exact ⟨congrArg some h.1, h.2.symm, htn⟩

@[simp] theorem renameCheck_with (t : Option Ino) :
    renameCheck ((s.withHandles M).withLog log) fromdir todir f t = renameCheck s fromdir todir f t := by
  simp [renameCheck]

section Found

variable {env : Env} {u : Option Ino}

theorem renameFound_refused (env : Env) (tn : Name) (hf : 0 < s.numhandles f) (hu : ∀ d, u = some d → 0 < s.numhandles d)
    {e : Error} (h : renameCheck s fromdir todir f u = some e) (M : Multiset Ino) (log : List LockOp) :
    ∃ ops, (∀ a, Runs ops a a) ∧
      renameFound env fromdir todir f u tn ((s.withHandles (f ::ₘ withTarget u M)).withLog log) =
        ((s.withHandles M).withLog (log ++ ops), .error (some e)) := by
  obtain ⟨o1, r1, h1⟩ := releaseFound_spec hf todir (withTarget u M) log
  obtain ⟨o2, r2, h2⟩ := releaseTarget_spec hu fromdir M (log ++ o1)
  refine ⟨o1 ++ o2, fun a => (r1 a).append (r2 a), ?_⟩
  simp only [renameFound, renameCheck_with, h, h1, h2, List.append_assoc]

/-- Up to the move, when the target does not stand in the way. -/
theorem renameFound_free (env : Env) (tn : Name) (hf : 0 < s.numhandles f) (h : renameCheck s fromdir todir f u = none)
    (hd : distinct u f = none) (M : Multiset Ino) (log : List LockOp) :
    ∃ ops, (∀ a, Runs ops a a) ∧
      renameFound env fromdir todir f u tn ((s.withHandles (f ::ₘ withTarget u M)).withLog log) =
        renameMove env.mem env.iosched fromdir todir f tn
          ((s.withHandles (f ::ₘ M)).withLog (log ++ ops)) := by
  cases u with
  | none =>
    refine ⟨[], fun _ => Runs.nil, ?_⟩
    simp [renameFound, h, withTarget]
  | some t =>
    have he : t = f := by
      by_contra hne
      simp [distinct, hne] at hd
    subst he
    refine ⟨lookupOps t, fun _ => lookupOps_runs, ?_⟩
    simp only [renameFound, renameCheck_with, h, if_true, withTarget]
    rw [release_linked hf (Multiset.mem_cons_self _ _), Multiset.erase_cons_head]
    rfl

theorem renameFound_replace (h : renameCheck s fromdir todir f u = none) (hd : distinct u f = some t)
    (M : Multiset Ino) (log : List LockOp) :
    renameFound env fromdir todir f u tn ((s.withHandles (f ::ₘ withTarget u M)).withLog log) =
      match renameReplace env.mem todir f t ((s.withHandles (f ::ₘ t ::ₘ M)).withLog log) with
      | (s, .error e) => (s, .error e)
      | (s, .ok ()) => renameMove env.mem env.iosched fromdir todir f tn s := by
  cases u with
  | none => simp [distinct] at hd
  | some t' =>
    have hne : t' ≠ f := by
      rintro rfl
      simp [distinct] at hd
    have he : t' = t := by simpa [distinct, hne] using hd
    subst he
    simp only [renameFound, renameCheck_with, h, hne, if_false, withTarget]
    all_goals rfl

end Found

section Call

variable {env : Env} {src dst p q : Path} {u : Option Ino}

theorem rename_enters (T : Tree s) (h : RenameEnters env src dst s p q fromdir todir) :
    ∃ ops, Runs ops 0 {(.volume, .read)} ∧ Linked s fromdir ∧ Linked s todir ∧
      ltfsFsopsRename env src dst s =
        renameDirs env fromdir todir p q ((s.withHandles (fromdir ::ₘ {todir})).withLog ops) := by
  obtain ⟨o1, r1, h1⟩ := pathLookup_spec T env.mem.src 0 [.acquire .volume .read] p.dir
  rw [h.srcDir] at h1
  obtain ⟨l1, h1⟩ := h1
  obtain ⟨o2, r2, h2⟩ := pathLookup_spec T env.mem.dst {fromdir} ([.acquire .volume .read] ++ o1) q.dir
  rw [h.dstDir] at h2
  obtain ⟨l2, h2⟩ := h2
  refine ⟨[.acquire .volume .read] ++ o1 ++ o2, ?_, l1, l2, ?_⟩
  · exact (Runs.acquire.append r1.of_empty).append r2.of_empty
  · simp only [withHandles_zero, Multiset.cons_zero] at h1
    simp only [ltfsFsopsRename, h.writable, h.ready, h.formatSrc, h.formatDst, h.copies, h.volume,
      Bool.not_true, Bool.false_eq_true, if_false, acquire_eq, h1, h2]
    have hswap : (todir ::ₘ ({fromdir} : Multiset Ino)) = fromdir ::ₘ {todir} :=
      Multiset.cons_swap todir fromdir 0
    rw [hswap]

theorem rename_outside (T : Tree s) (h : ∀ p q fromdir todir, ¬ RenameEnters env src dst s p q fromdir todir) :
    ∃ e ops, Runs ops 0 0 ∧ ltfsFsopsRename env src dst s = (s.withLog ops, .error e) := by
  have hself : ∀ e : Error, ∃ e' ops, Runs ops 0 0 ∧
      ((s, .error e) : Fs × Except Error Unit) = (s.withLog ops, .error e') :=
    fun e => ⟨e, [], Runs.nil, by simp⟩
  cases hw : tolerateLessSpace env.writable with
  | error e => simpa [ltfsFsopsRename, hw] using hself e
  | ok _ =>
    cases hr : env.ready with
    | error e => simpa [ltfsFsopsRename, hw, hr] using hself e
    | ok _ =>
      cases hf : env.formatSource src with
      | error e => simpa [ltfsFsopsRename, hw, hr, hf] using hself e
      | ok p =>
        cases hg : env.format dst with
        | error e => simpa [ltfsFsopsRename, hw, hr, hf, hg] using hself e
        | ok q =>
          by_cases hc : env.mem.copies = true
          · cases hv : env.volume with
            | error e => simpa [ltfsFsopsRename, hw, hr, hf, hg, hc, hv] using hself e
            | ok _ =>
              obtain ⟨o1, r1, h1⟩ := pathLookup_spec T env.mem.src 0 [.acquire .volume .read] p.dir
              have hin : Runs ([.acquire .volume .read] ++ o1) 0 {(.volume, .read)} :=
                Runs.acquire.append r1.of_empty
              cases hd : resolvePath env.mem.src s p.dir with
              | error e =>
                rw [hd] at h1
                refine ⟨e, [.acquire .volume .read] ++ o1 ++ [.release .volume .read],
                  hin.append Runs.release, ?_⟩
                simp only [withHandles_zero] at h1
                simp only [ltfsFsopsRename, hw, hr, hf, hg, hc, hv, Bool.not_true, Bool.false_eq_true,
                  if_false, acquire_eq, h1, release_eq, withLog_withLog]
              | ok fromdir =>
                rw [hd] at h1
                obtain ⟨l1, h1⟩ := h1
                obtain ⟨o2, r2, h2⟩ := pathLookup_spec T env.mem.dst {fromdir}
                  ([.acquire .volume .read] ++ o1) q.dir
                cases he : resolvePath env.mem.dst s q.dir with
                | ok todir => exact absurd ⟨hw, hr, hf, hg, hc, hv, hd, he⟩ (h p q fromdir todir)
                | error e =>
                  rw [he] at h2
                  refine ⟨e, [.acquire .volume .read] ++ o1 ++ o2 ++ lookupOps fromdir ++
                    [.release .volume .read], ?_, ?_⟩
                  · exact ((hin.append r2.of_empty).append lookupOps_runs).append Runs.release
                  · simp only [withHandles_zero, Multiset.cons_zero] at h1
                    simp only [ltfsFsopsRename, hw, hr, hf, hg, hc, hv, Bool.not_true,
                      Bool.false_eq_true, if_false, acquire_eq, h1, h2, release_eq, withLog_withLog]
                    rw [releaseUnlocked_linked (T.counted l1) (Multiset.mem_singleton_self _)]
                    simp [lookupOps]
          · simp only [Bool.not_eq_true] at hc
            simpa [ltfsFsopsRename, hw, hr, hf, hg, hc] using hself .noMemory

/-- The directories and the volume are let go. -/
theorem rename_leave {b : Fs} (hf : 0 < b.numhandles fromdir) (ht : 0 < b.numhandles todir)
    (N : Multiset Ino) (log : List LockOp) :
    ∃ ops, Runs ops (dirsHeld fromdir todir + {(.volume, .read)}) 0 ∧
      (renameUnlock fromdir todir ((b.withHandles (fromdir ::ₘ todir ::ₘ N)).withLog log)).release
        .volume .read = (b.withHandles N).withLog (log ++ ops) := by
  obtain ⟨ops, hr, h⟩ := renameUnlock_spec hf ht N log
  refine ⟨ops ++ [.release .volume .read], ?_, ?_⟩
  · have h1 := hr.frame {(Lock.volume, Mode.read)}
    rw [Multiset.zero_add] at h1
    exact h1.append (Runs.release (a := 0))
  · rw [h, release_eq, withLog_withLog, List.append_assoc]

theorem rename_refused (T : Tree s) (h : RenameEnters env src dst s p q fromdir todir)
    (hno : ∀ f u, ¬ RenameReaches env src dst s p q fromdir todir f u) :
    ∃ e ops, Runs ops 0 0 ∧ ltfsFsopsRename env src dst s = (s.withLog ops, .error e) := by
  obtain ⟨o1, r1, hl, hm, heq⟩ := rename_enters T h
  obtain ⟨o2, r2, h2⟩ := renameLookup_spec T env.mem fromdir todir p.name q.name (fromdir ::ₘ {todir}) o1
  have hin : Runs (o1 ++ o2) 0 (dirsHeld fromdir todir + {(.volume, .read)}) := by
    have h3 := r2.frame {(Lock.volume, Mode.read)}
    rw [Multiset.zero_add] at h3
    exact r1.append h3
  -- every refusal leaves the dentries as they were and leaves through the same label
  have hout : ∀ (e : Error) (o3 : List LockOp), Runs o3 (dirsHeld fromdir todir + {(.volume, .read)})
      (dirsHeld fromdir todir + {(.volume, .read)}) →
      ∃ e' ops, Runs ops 0 0 ∧ (((renameUnlock fromdir todir ((s.withHandles (fromdir ::ₘ {todir})).withLog
        (o1 ++ o2 ++ o3))).release .volume .read, .error e) : Fs × Except Error Unit) =
        (s.withLog ops, .error e') := by
    intro e o3 r3
    obtain ⟨o4, r4, h4⟩ := rename_leave (T.counted hl) (T.counted hm) 0 (o1 ++ o2 ++ o3)
    refine ⟨e, o1 ++ o2 ++ o3 ++ o4, (hin.append r3).append r4, ?_⟩
    rw [Multiset.cons_zero, withHandles_zero] at h4
    rw [h4]
  rw [heq, renameDirs, h2]
  cases hk : looked env.mem s fromdir todir p.name q.name with
  | error e =>
    have h5 := hout e [] Runs.nil
    rw [List.append_nil] at h5
    exact h5
  | ok r =>
    obtain ⟨f, u⟩ := r
    obtain ⟨hf, rfl, -⟩ := looked_ok hk
    have hfpos : 0 < s.numhandles f := T.counted (T.childOf_linked (childOf_of_found hf))
    have hupos : ∀ d, found env.mem.findDst s todir q.name = some d → 0 < s.numhandles d :=
      fun d hd => T.counted (T.childOf_linked (childOf_of_found hd))
    cases hc : renameCheck s fromdir todir f (found env.mem.findDst s todir q.name) with
    | some e =>
      obtain ⟨o3, r3, h3⟩ := renameFound_refused env q.name hfpos hupos hc
        (fromdir ::ₘ {todir}) (o1 ++ o2)
      simp only [afterLooked, h3, renameFinish]
      exact hout e o3 (r3 _)
    | none =>
      have hfull : ∃ d, distinct (found env.mem.findDst s todir q.name) f = some d ∧
          s.isdir d ∧ s.childList d ≠ [] := by
        by_contra hn
        refine hno f _ { toRenameEnters := h, found := hk, check := hc, empty := ?_ }
        intro d hd hfull
        exact hn ⟨d, hd, hfull⟩
      obtain ⟨d, hd, hfull⟩ := hfull
      have hdpos : 0 < s.numhandles d := by
        apply hupos
        simp only [distinct] at hd
        split at hd
        · cases hd
        · exact hd
      simp only [afterLooked, renameFound_replace hc hd, renameReplace_nonempty hfpos hdpos hfull,
        renameFinish]
      have hr : Runs (emptyOps s d ++ lookupOps f ++ lookupOps d)
          (dirsHeld fromdir todir + {(.volume, .read)}) (dirsHeld fromdir todir + {(.volume, .read)}) :=
        (emptyOps_runs.append lookupOps_runs).append lookupOps_runs
      have h5 := hout .dirNotEmpty _ hr
      simp only [List.append_assoc] at h5 ⊢
      exact h5

variable (T : Tree s) (h : RenameReaches env src dst s p q fromdir todir f u)
include T h

theorem reaches_dirs : Linked s fromdir ∧ Linked s todir := by
  obtain ⟨-, -, h1, h2, -⟩ := rename_enters T h.toRenameEnters
  exact ⟨h1, h2⟩

omit T in
theorem reaches_source : childOf s fromdir p.name = some f :=
  childOf_of_found (looked_ok h.found).1

/-- The source is not moved below itself. -/
theorem reaches_loop (zs : List Name) : Lib.Paths.follow (childOf s) f zs ≠ some todir := by
  intro hz
  have hf : Linked s f := T.childOf_linked (reaches_source h)
  have hpred : fsIsPredecessor s f todir = true :=
    (isPredecessor_below T (reaches_dirs T h).2).mpr ⟨hf, zs, hz⟩
  have hc := h.check
  simp [renameCheck, hpred] at hc

theorem reaches_target (hd : distinct u f = some t) :
    childOf s todir q.name = some t ∧ t ≠ f ∧ t ≠ fromdir ∧ t ≠ todir ∧ s.childList t = [] ∧
      ∀ zs, Lib.Paths.follow (childOf s) t zs ≠ some fromdir := by
  have hu : u = some t ∧ t ≠ f := by
    simp only [distinct] at hd
    split at hd
    · cases hd
    next hne => exact ⟨hd, fun he => hne (by rw [hd, he])⟩
  obtain ⟨rfl, hne⟩ := hu
  have ht : childOf s todir q.name = some t := childOf_of_found (looked_ok h.found).2.1.symm
  have hpred : ¬ (t = fromdir ∨ fsIsPredecessor s t fromdir = true) := by
    intro hp
    have hc := h.check
    simp only [renameCheck, if_pos hp] at hc
    split at hc <;> cases hc
  have hbelow : ∀ zs, Lib.Paths.follow (childOf s) t zs ≠ some fromdir := by
    intro zs hz
    refine hpred (.inr ?_)
    exact (isPredecessor_below T (reaches_dirs T h).1).mpr ⟨T.childOf_linked ht, zs, hz⟩
  refine ⟨ht, hne, fun he => hpred (.inl he), T.childOf_ne ht, ?_, hbelow⟩
  by_contra hl
  exact h.empty t hd ⟨(T.owned hl).2, hl⟩

/-- The state in which the source is moved: a target that is not the source is gone. -/
def base (s : Fs) (todir : Ino) (tn : Name) : Option Ino → Fs
  | none => s
  | some t => removed s todir t tn

theorem base_tree : Tree (base s todir q.name (distinct u f)) := by
  cases hd : distinct u f with
  | none => exact T
  | some t =>
    obtain ⟨ht, -, -, -, hempty, -⟩ := reaches_target T h hd
    exact tree_removed T ht hempty

theorem base_source : childOf (base s todir q.name (distinct u f)) fromdir p.name = some f := by
  cases hd : distinct u f with
  | none => exact reaches_source h
  | some t =>
    obtain ⟨ht, hne, -⟩ := reaches_target T h hd
    exact (childOf_removed T ht).mpr ⟨reaches_source h, hne.symm⟩

theorem base_dirs : Linked (base s todir q.name (distinct u f)) fromdir ∧
    Linked (base s todir q.name (distinct u f)) todir := by
  obtain ⟨hl, hm⟩ := reaches_dirs T h
  cases hd : distinct u f with
  | none => exact ⟨hl, hm⟩
  | some t =>
    obtain ⟨ht, -, h1, h2, hempty, -⟩ := reaches_target T h hd
    exact ⟨(linked_removed T ht hempty).mpr ⟨hl, h1.symm⟩, (linked_removed T ht hempty).mpr ⟨hm, h2.symm⟩⟩

/-- The call up to the step that takes the source out of its directory. -/
theorem rename_moving (hdst : distinct u f = none ∨ env.mem.dropDst = true) :
    ∃ ops, Runs ops 0 (dirsHeld fromdir todir + {(.volume, .read)}) ∧
      ltfsFsopsRename env src dst s = renameFinish env.iosched fromdir todir f
        (renameMove env.mem env.iosched fromdir todir f q.name
          (((base s todir q.name (distinct u f)).withHandles (f ::ₘ fromdir ::ₘ {todir})).withLog ops)) := by
  obtain ⟨o1, r1, -, -, heq⟩ := rename_enters T h.toRenameEnters
  obtain ⟨o2, r2, h2⟩ := renameLookup_spec T env.mem fromdir todir p.name q.name (fromdir ::ₘ {todir}) o1
  have hin : Runs (o1 ++ o2) 0 (dirsHeld fromdir todir + {(.volume, .read)}) := by
    have h3 := r2.frame {(Lock.volume, Mode.read)}
    rw [Multiset.zero_add] at h3
    exact r1.append h3
  rw [heq, renameDirs, h2, h.found]
  simp only [afterLooked]
  cases hd : distinct u f with
  | none =>
    have hfpos : 0 < s.numhandles f := T.counted (T.childOf_linked (reaches_source h))
    obtain ⟨o3, r3, h3⟩ := renameFound_free env q.name hfpos h.check hd
      (fromdir ::ₘ {todir}) (o1 ++ o2)
    exact ⟨o1 ++ o2 ++ o3, hin.append (r3 _), by rw [h3]; rfl⟩
  | some t =>
    obtain ⟨ht, hne, h1, h2, -, -⟩ := reaches_target T h hd
    have hk : env.mem.dropDst = true := hdst.resolve_left (by simp [hd])
    have hmem : t ∉ f ::ₘ fromdir ::ₘ ({todir} : Multiset Ino) := by simp [hne, h1, h2]
    refine ⟨o1 ++ o2 ++ emptyOps s t ++ lookupOps t,
      (hin.append emptyOps_runs).append lookupOps_runs, ?_⟩
    rw [renameFound_replace h.check hd, renameReplace_done T ht (h.empty t hd) hk hmem]
    rfl

/-- What a caller still holds of the source when the call stops on the way with `ret` 0. -/
def leaked (iosched : Bool) (f : Ino) : Multiset Ino := if iosched then 0 else {f}

omit T h in
theorem swap_handles : f ::ₘ fromdir ::ₘ ({todir} : Multiset Ino) = fromdir ::ₘ todir ::ₘ {f} := by
  rw [Multiset.cons_swap f fromdir]
  exact congrArg (fromdir ::ₘ ·) (Multiset.cons_swap f todir 0)

omit T h in
/-- The end of a call that stops with `ret` 0. -/
theorem finish_missed {b : Fs} (hl : 0 < b.numhandles fromdir) (hm : 0 < b.numhandles todir)
    (hf : 0 < b.numhandles f) (iosched : Bool) (log : List LockOp) :
    ∃ ops, Runs ops (dirsHeld fromdir todir + {(.volume, .read)}) 0 ∧
      renameFinish iosched fromdir todir f
        ((b.withHandles (f ::ₘ fromdir ::ₘ {todir})).withLog log, .error none) =
        ((b.withHandles (leaked iosched f)).withLog (log ++ ops), .ok ()) := by
  obtain ⟨o1, r1, h1⟩ := rename_leave hl hm {f} log
  rw [← swap_handles] at h1
  simp only [renameFinish, h1]
  cases iosched with
  | false => exact ⟨o1, r1, rfl⟩
  | true =>
    refine ⟨o1 ++ lookupOps f, r1.append lookupOps_runs, ?_⟩
    rw [if_pos rfl, release_linked hf (Multiset.mem_singleton_self _)]
    simp [leaked, lookupOps]

/-- The entry of the target is not found because its key cannot be copied. -/
theorem rename_keepsTarget (hd : distinct u f = some t) (hk : env.mem.dropDst = false) :
    ∃ ops, Runs ops 0 0 ∧ ltfsFsopsRename env src dst s =
      (((dropped s todir t).withHandles (leaked env.iosched f)).withLog ops, .ok ()) := by
  obtain ⟨o1, r1, hl, hm, heq⟩ := rename_enters T h.toRenameEnters
  obtain ⟨o2, r2, h2⟩ := renameLookup_spec T env.mem fromdir todir p.name q.name (fromdir ::ₘ {todir}) o1
  have hin : Runs (o1 ++ o2) 0 (dirsHeld fromdir todir + {(.volume, .read)}) := by
    have h3 := r2.frame {(Lock.volume, Mode.read)}
    rw [Multiset.zero_add] at h3
    exact r1.append h3
  obtain ⟨-, -, -, ht, -⟩ := reaches_target T h hd
  have hfpos : 0 < s.numhandles f := T.counted (T.childOf_linked (reaches_source h))
  obtain ⟨o3, r3, h3⟩ := finish_missed (b := dropped s todir t) (T.counted hl) (T.counted hm) hfpos
    env.iosched (o1 ++ o2 ++ emptyOps s t ++ lookupOps t)
  refine ⟨o1 ++ o2 ++ emptyOps s t ++ lookupOps t ++ o3,
    ((hin.append emptyOps_runs).append lookupOps_runs).append r3, ?_⟩
  rw [heq, renameDirs, h2, h.found]
  simp only [afterLooked]
  rw [renameFound_replace h.check hd, renameReplace_missed ht.symm (h.empty t hd) hk]
  exact h3

/-- The entry of the source is not found because its key cannot be copied. -/
theorem rename_keepsSource (hdst : distinct u f = none ∨ env.mem.dropDst = true)
    (hk : env.mem.dropSrc = false) :
    ∃ ops, Runs ops 0 0 ∧ ltfsFsopsRename env src dst s =
      (((base s todir q.name (distinct u f)).withHandles (leaked env.iosched f)).withLog ops, .ok ()) := by
  obtain ⟨o1, r1, heq⟩ := rename_moving T h hdst
  have B := base_tree T h
  obtain ⟨hl, hm⟩ := base_dirs T h
  obtain ⟨o2, r2, h2⟩ := finish_missed (B.counted hl) (B.counted hm)
    (B.counted (B.childOf_linked (base_source T h))) env.iosched (o1 ++ lookupOps f)
  refine ⟨o1 ++ lookupOps f ++ o2, (r1.append lookupOps_runs).append r2, ?_⟩
  rw [heq, renameMove_missed hk, h2]

/-- The answer of `fs_add_key_to_hash_table` for the new entry of the source. -/
def addAnswer (env : Env) (s : Fs) (q : Path) (fromdir todir f : Ino) (fn : Name) (u : Option Ino) :
    Entries × Except Error Unit :=
  fsAddKeyToHashTable env.mem.add
    (otherEntries (base s todir q.name (distinct u f)) fromdir todir f fn) q.name f

theorem rename_adds (hdst : distinct u f = none ∨ env.mem.dropDst = true) (hk : env.mem.dropSrc = true) :
    ∃ ops, Runs ops 0 0 ∧ ltfsFsopsRename env src dst s =
      match (addAnswer env s q fromdir todir f p.name u).2 with
      | .error e => (((relinked (base s todir q.name (distinct u f)) fromdir todir f p.name q.name
          (addAnswer env s q fromdir todir f p.name u).1).withHandles {f}).withLog ops, .error e)
      | .ok () => ((relinked (base s todir q.name (distinct u f)) fromdir todir f p.name q.name
          (addAnswer env s q fromdir todir f p.name u).1).withLog ops, .ok ()) := by
  obtain ⟨o1, r1, heq⟩ := rename_moving T h hdst
  have B := base_tree T h
  obtain ⟨hl, hm⟩ := base_dirs T h
  have hf : Linked (base s todir q.name (distinct u f)) f := B.childOf_linked (base_source T h)
  rw [heq, renameMove_add B (base_source T h) hk]
  simp only [addAnswer]
  generalize fsAddKeyToHashTable env.mem.add
    (otherEntries (base s todir q.name (distinct u f)) fromdir todir f p.name) q.name f = r
  obtain ⟨es, r⟩ := r
  have hleave := fun N => rename_leave (b := relinked (base s todir q.name (distinct u f)) fromdir todir f
    p.name q.name es) (B.counted hl) (B.counted hm) N (o1 ++ lookupOps f)
  cases r with
  | error e =>
    obtain ⟨o2, r2, h2⟩ := hleave {f}
    rw [← swap_handles] at h2
    refine ⟨o1 ++ lookupOps f ++ o2, (r1.append lookupOps_runs).append r2, ?_⟩
    simp only [afterAdd, renameFinish, h2]
  | ok _ =>
    cases hi : env.iosched with
    | false =>
      obtain ⟨o2, r2, h2⟩ := hleave 0
      rw [Multiset.cons_zero, withHandles_zero] at h2
      refine ⟨o1 ++ lookupOps f ++ o2, (r1.append lookupOps_runs).append r2, ?_⟩
      simp only [afterAdd, renameFinish, Bool.false_eq_true, if_false, h2]
    | true =>
      obtain ⟨o2, r2, h2⟩ := hleave {f}
      rw [← swap_handles] at h2
      refine ⟨o1 ++ lookupOps f ++ o2 ++ lookupOps f,
        ((r1.append lookupOps_runs).append r2).append lookupOps_runs, ?_⟩
      simp only [afterAdd, renameFinish, if_true, h2]
      rw [release_linked (s := relinked _ fromdir todir f p.name q.name es) (B.counted hf)
        (Multiset.mem_singleton_self _)]
      simp [lookupOps]

end Call

end Ltfs.RenameSpec
