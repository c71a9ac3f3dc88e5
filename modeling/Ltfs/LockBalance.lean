import Ltfs.HandleCounts

namespace Ltfs.LockBalance

open Ltfs.Dentry Ltfs.Fsops Ltfs.LockSpec Ltfs.Handles Ltfs.DentryTree Ltfs.Lookup Ltfs.CreateSpec
  Ltfs.UnlinkSpec Ltfs.RenameSpec Ltfs.NamespaceRun Ltfs.HandleCounts Ltfs.Lib.Run

variable {s s' : Fs} {ops : List LockOp}

inductive Call where
  | create (env : Env) (path : Path) (isdir : Bool)
  | unlink (env : Env) (path : Path)
  | rename (env : Env) (src dst : Path)
  | dentryLookup (mem : NameMem) (d : Ino)

def after (s : Fs) : Call → Fs
  | .create env path isdir => (ltfsFsopsCreate env path isdir s).1
  | .unlink env path => (ltfsFsopsUnlink env path s).1
  | .rename env src dst => (ltfsFsopsRename env src dst s).1
  | .dentryLookup mem d => (fsDentryLookup mem s d).1

/-- The operations between the two states release only what is held, in its mode, and leave nothing
held. -/
def LocksRight (s s' : Fs) : Prop := ∃ ops, s'.log = s.log ++ ops ∧ check 0 ops = some 0

theorem locksRight_iff (h : s'.log = s.log ++ ops) : LocksRight s s' ↔ check 0 ops = some 0 := by
  constructor
  · rintro ⟨ops', h1, h2⟩
    rw [h1] at h
    rwa [List.append_cancel_left h] at h2
  · intro hc
    exact ⟨ops, h, hc⟩

theorem locksRight_of_runs (h : s'.log = s.log ++ ops) (hr : Runs ops 0 0) : LocksRight s s' :=
  (locksRight_iff h).mpr (hr 0)

/-- The names of all dentries with a parent can be copied. -/
def Copied (copy : Nat → Bool) (s : Fs) : List Ino → Prop
  | [] => True
  | d :: ds => (s.parent d ≠ none → copy ds.length = true) ∧ Copied copy s ds

/-- No directory that is unlinked has entries, and the names on the way to the root are copied. -/
def Releases (s : Fs) : Call → Prop
  | .unlink env path => ∀ p d, UnlinkReaches env path s p d → ¬ (s.isdir d ∧ s.childList d ≠ [])
  | .dentryLookup mem d => mem.names = true → Copied mem.copy s (parents s (s.nextIno + 1) d)
  | _ => True

theorem create_locks (T : Tree s) (env : Env) (path : Path) (isdir : Bool) :
    LocksRight s (ltfsFsopsCreate env path isdir s).1 := by
  by_cases hr : ∃ p parent, CreateReaches env path s p parent
  · obtain ⟨p, parent, hr⟩ := hr
    obtain ⟨ops, hruns, -, heq⟩ := create_reaches T isdir hr
    rw [heq]
    exact locksRight_of_runs rfl hruns
  · obtain ⟨e, u, ops, hruns, heq⟩ := create_stops T isdir (fun p parent h => hr ⟨p, parent, h⟩)
    rw [heq]
    exact locksRight_of_runs rfl hruns

theorem unlink_locks (T : Tree s) (env : Env) (path : Path) :
    LocksRight s (ltfsFsopsUnlink env path s).1 ↔
      ∀ p d, UnlinkReaches env path s p d → ¬ (s.isdir d ∧ s.childList d ≠ []) := by
  by_cases hr : ∃ p d, UnlinkReaches env path s p d
  · obtain ⟨p, d, hr⟩ := hr
    by_cases hd : s.isdir d ∧ s.childList d ≠ []
    · obtain ⟨ops, hnone, heq⟩ := unlink_nonempty T hr hd
      rw [heq]
      constructor
      · intro h
        have hsome := (locksRight_iff rfl).mp h
        rw [hnone] at hsome
        cases hsome
      · intro h
        exact absurd hd (h p d hr)
    · have hall : ∀ p' d', UnlinkReaches env path s p' d' → ¬ (s.isdir d' ∧ s.childList d' ≠ []) := by
        intro p' d' hr'
        obtain rfl : p = p' := Except.ok.inj (hr.format.symm.trans hr'.format)
        obtain rfl : d = d' := Except.ok.inj (hr.found.symm.trans hr'.found)
        exact hd
      refine iff_of_true ?_ hall
      cases hk : env.mem.dropSrc with
      | false =>
        obtain ⟨ops, hruns, heq⟩ := unlink_missed T hr hd hk
        rw [heq]
        exact locksRight_of_runs rfl hruns
      | true =>
        obtain ⟨ops, parent, n, hruns, -, heq⟩ := unlink_done T hr hd hk
        rw [heq]
        exact locksRight_of_runs rfl hruns
  · refine iff_of_true ?_ (fun p d h => absurd ⟨p, d, h⟩ hr)
    obtain ⟨e, ops, hruns, heq⟩ := unlink_stops T (fun p d h => hr ⟨p, d, h⟩)
    rw [heq]
    exact locksRight_of_runs rfl hruns

theorem base_log (s : Fs) (todir : Ino) (tn : Name) (t : Option Ino) : (base s todir tn t).log = s.log := by
  cases t <;> rfl

theorem rename_locks (T : Tree s) (env : Env) (src dst : Path) :
    LocksRight s (ltfsFsopsRename env src dst s).1 := by
  by_cases he : ∃ p q fromdir todir, RenameEnters env src dst s p q fromdir todir
  · obtain ⟨p, q, fromdir, todir, he⟩ := he
    by_cases hr : ∃ f u, RenameReaches env src dst s p q fromdir todir f u
    · obtain ⟨f, u, hr⟩ := hr
      by_cases hd : distinct u f = none ∨ env.mem.dropDst = true
      · cases hk : env.mem.dropSrc with
        | false =>
          obtain ⟨ops, hruns, heq⟩ := rename_keepsSource T hr hd hk
          rw [heq]
          exact locksRight_of_runs (congrArg (· ++ ops) (base_log ..)) hruns
        | true =>
          obtain ⟨ops, hruns, heq⟩ := rename_adds T hr hd hk
          rw [heq]
          cases (addAnswer env s q fromdir todir f p.name u).2 with
          | error e => exact locksRight_of_runs (congrArg (· ++ ops) (base_log ..)) hruns
          | ok _ => exact locksRight_of_runs (congrArg (· ++ ops) (base_log ..)) hruns
      · rw [not_or, Bool.not_eq_true] at hd
        obtain ⟨t, ht⟩ := Option.ne_none_iff_exists'.mp hd.1
        obtain ⟨ops, hruns, heq⟩ := rename_keepsTarget T hr ht hd.2
        rw [heq]
        exact locksRight_of_runs rfl hruns
    · obtain ⟨e, ops, hruns, heq⟩ := rename_refused T he (fun f u h => hr ⟨f, u, h⟩)
      rw [heq]
      exact locksRight_of_runs rfl hruns
  · obtain ⟨e, ops, hruns, heq⟩ := rename_outside T
      (fun p q fromdir todir h => he ⟨p, q, fromdir, todir, h⟩)
    rw [heq]
    exact locksRight_of_runs rfl hruns

/-- The names are copied one dentry at a time; the first one with a parent that cannot be copied
leaves the table of the parent locked. -/
theorem copyNames_spec (T : Tree s) (copy : Nat → Bool) (n : Nat) (d : Ino) (log : List LockOp) :
    ∃ ops r, copyNames copy (parents s n d) (s.withLog log) = (s.withLog (log ++ ops), r) ∧
      (Copied copy s (parents s n d) → Runs ops 0 0) ∧
      (¬ Copied copy s (parents s n d) → ∃ x, Runs ops 0 {x}) := by
  induction n generalizing d log with
  | zero => exact ⟨[], .ok [], by simp [parents, copyNames], fun _ => Runs.nil, fun h => absurd trivial h⟩
  | succ n ih =>
    cases hp : s.parent d with
    | none =>
      have hcopied : Copied copy s (parents s (n + 1) d) := by simp [parents, hp, Copied]
      suffices h : ∃ r, copyNames copy (parents s (n + 1) d) (s.withLog log) = (s.withLog (log ++ []), r) by
        obtain ⟨r, hr⟩ := h
        exact ⟨[], r, hr, fun _ => Runs.nil, fun h => absurd hcopied h⟩
      simp only [parents, hp, copyNames, Fs.withLog_parent, Fs.withLog_name, List.append_nil]
      cases hn : s.name d with
      | some k => cases copy 0 <;> simp
      | none =>
        by_cases hdel : (s.withLog log).deleted d = true
        · simp [hdel]
        · cases copy 0 <;> simp [hdel]
    | some p =>
      obtain ⟨k, hk, -⟩ := T.listed hp
      have hcons : parents s (n + 1) d = d :: parents s n p := by simp [parents, hp]
      cases hc : copy (parents s n p).length with
      | false =>
        refine ⟨[.acquire (.contents p) .read], .error none, ?_, ?_, ?_⟩
        · simp [hcons, copyNames, hp, hk, hc, acquire_eq]
        · intro h
          rw [hcons] at h
          simp [Copied, hp, hc] at h
        · intro _
          exact ⟨_, Runs.acquire⟩
      | true =>
        obtain ⟨ops, r, heq, h1, h2⟩ := ih p (log ++ [.acquire (.contents p) .read, .release (.contents p) .read])
        have hiff : Copied copy s (parents s (n + 1) d) ↔ Copied copy s (parents s n p) := by
          rw [hcons]
          simp [Copied, hc]
        refine ⟨[.acquire (.contents p) .read, .release (.contents p) .read] ++ ops,
          r.map (· ++ [k]), ?_, ?_, ?_⟩
        · simp only [hcons, copyNames, Fs.withLog_parent, hp, acquire_eq, release_eq, withLog_withLog, Fs.withLog_name,
            hk, hc, List.append_assoc, List.cons_append, List.nil_append, Bool.not_true, Bool.false_eq_true, if_false]
          simp only [List.append_assoc, List.cons_append, List.nil_append] at heq
          rw [heq]
          cases r <;> rfl
        · intro h
          exact Runs.balanced.append (h1 (hiff.mp h))
        · intro h
          obtain ⟨x, hx⟩ := h2 (fun hc => h (hiff.mpr hc))
          exact ⟨x, Runs.balanced.append hx⟩

theorem dentryLookup_locks (T : Tree s) (mem : NameMem) (d : Ino) :
    LocksRight s (fsDentryLookup mem s d).1 ↔
      (mem.names = true → Copied mem.copy s (parents s (s.nextIno + 1) d)) := by
  cases hm : mem.names with
  | false =>
    refine iff_of_true ?_ (by simp)
    simp only [fsDentryLookup, hm, Bool.not_false, if_true]
    exact ⟨[], by simp, rfl⟩
  | true =>
    obtain ⟨ops, r, heq, h1, h2⟩ := copyNames_spec T mem.copy (s.nextIno + 1) d []
    have hlog : (fsDentryLookup mem s d).1.log = s.log ++ ops := by
      simp only [withLog_nil, List.nil_append] at heq
      simp only [fsDentryLookup, hm, Bool.not_true, Bool.false_eq_true, if_false, heq]
      rcases r with (_ | e) | ns
      · rfl
      · rfl
      · cases mem.path <;> rfl
    rw [locksRight_iff hlog]
    constructor
    · intro hc _
      by_contra hcop
      obtain ⟨x, hx⟩ := h2 hcop
      have h3 := hx 0
      simp only [Multiset.add_zero] at h3
      rw [hc] at h3
      simp at h3
    · intro hc
      exact h1 (hc rfl) 0

/-- Each call leaves no lock held and releases none it does not hold, unless it unlinks a directory
with entries or cannot copy a name. -/
theorem locks_iff (T : Tree s) (c : Call) : LocksRight s (after s c) ↔ Releases s c := by
  cases c with
  | create env path isdir => exact iff_of_true (create_locks T env path isdir) trivial
  | unlink env path => exact unlink_locks T env path
  | rename env src dst => exact iff_of_true (rename_locks T env src dst) trivial
  | dentryLookup mem d => exact dentryLookup_locks T mem d

theorem locks_iff_unlink : LocksRight oneFile (after oneFile (.unlink plainEnv ⟨[], ['a']⟩)) := by
  refine (locks_iff oneFile_tree _).mpr ?_
  intro p d hr hd
  obtain rfl : (⟨[], ['a']⟩ : Path) = p := Except.ok.inj hr.format
  obtain rfl : 1 = d := Except.ok.inj hr.found
  exact absurd hd.1 (by decide)

/-- A volume with the directory "/d" and the file "/d/a". -/
def nested : Fs := (run step ⟨emptyFs 512, []⟩
  [.create plainEnv ⟨[], ['d']⟩ true, .create plainEnv ⟨[['d']], ['a']⟩ false]).fs

theorem nested_tree : Tree nested := by
  refine Counted.tree (v := run step ⟨emptyFs 512, []⟩ _) ?_
  apply counted_run (counted_empty 512)
  refine ⟨createSound_plain ?_, createSound_plain ?_, trivial⟩
  · intro parent h
    obtain rfl : 0 = parent := Except.ok.inj h
    rfl
  · intro parent h
    obtain rfl : 1 = parent := Except.ok.inj h
    rfl

/-- Unlinking "/d" releases the `meta_lock` of the root, which it has not taken. -/
theorem locks_extra :
    Tree nested ∧ ¬ LocksRight nested (after nested (.unlink plainEnv ⟨[], ['d']⟩)) := by
  refine ⟨nested_tree, ?_⟩
  rintro ⟨ops, hlog, hcheck⟩
  have hops : ops = (after nested (.unlink plainEnv ⟨[], ['d']⟩)).log.drop nested.log.length := by
    rw [hlog, List.drop_left]
  revert hcheck
  rw [hops]
  decide +kernel

end Ltfs.LockBalance
