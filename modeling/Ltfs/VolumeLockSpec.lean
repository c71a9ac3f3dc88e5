import Ltfs.VolumeLock

namespace Ltfs.VolumeLockSpec

open Ltfs.Dentry (Mode)
open Ltfs.VolumeLock

variable {m : Mode} {held : Option Mode}

/-- How the thread holds the lock after the operations, or `none` when one of them releases a lock
that is not held so, or takes the lock a second time. -/
def check : Option Mode → List VolOp → Option (Option Mode)
  | held, [] => some held
  | none, .acquire m :: ops => check (some m) ops
  | some _, .acquire _ :: _ => none
  | some m, .release m' :: ops => if m = m' then check none ops else none
  | none, .release _ :: _ => none
  | some _, .releaseAny :: ops => check none ops
  | none, .releaseAny :: _ => none

theorem check_append (held : Option Mode) (ops ops' : List VolOp) :
    check held (ops ++ ops') = (check held ops).bind (fun h => check h ops') := by
  induction ops generalizing held with
  | nil => rfl
  | cons op ops ih =>
    cases held with
    | none =>
      cases op with
      | acquire m => exact ih _
      | release m => rfl
      | releaseAny => rfl
    | some h =>
      cases op with
      | acquire m => rfl
      | release m =>
        simp only [List.cons_append, check]
        split
        · exact ih none
        · rfl
      | releaseAny => exact ih none

inductive Call where
  | getVolumeLock (m : Mode) (reval : List Reval)
  | syncIndex (indexLocking : Bool) (rounds : List SyncRound)
  | unmount (rounds : List UnmountRound)
  | getxattr (rounds : List GetRound)
  | setxattr (sync : Bool) (rounds : List SetRound)

def ops : Call → List VolOp
  | .getVolumeLock m reval => (ltfsGetVolumeLock m reval).1
  | .syncIndex indexLocking rounds => (ltfsSyncIndex indexLocking rounds).1
  | .unmount rounds => (ltfsUnmount rounds).1
  | .getxattr rounds => (ltfsFsopsGetxattr rounds).1
  | .setxattr sync rounds => (ltfsFsopsSetxattr sync rounds).1

/-- Only `ltfs_get_volume_lock` hands the lock to its caller. -/
def heldAfter : Call → Option Mode
  | .getVolumeLock m reval => if (ltfsGetVolumeLock m reval).2 = some true then some m else none
  | _ => none

/-- A pass that gets the lock. -/
def Locked (m : Mode) (reval : List Reval) : Prop := (ltfsGetVolumeLock m reval).2 = some true

/-- The attribute cannot be read before the medium is revalidated. -/
def Interrupted (a : XattrAnswers) : Prop := a.virtual = some .fenced ∨ a.virtual = some .needReval

instance (a : XattrAnswers) : Decidable (Interrupted a) := inferInstanceAs (Decidable (_ ∨ _))

/-- No revalidation fails while an attribute is read. -/
def Restarts : List GetRound → Prop
  | [] => True
  | r :: rs => Locked .read r.reval → r.lookup = true → Interrupted r.xattr →
      r.xattr.revalidated = true ∧ Restarts rs

/-- No revalidation is needed while the old value is saved. -/
def SavesQuietly (sync : Bool) : List SetRound → Prop
  | [] => True
  | r :: rs => (sync = true → r.flushed = true) → Locked (if sync then .write else .read) r.reval →
      r.lookup = true → ¬ Interrupted r.save ∧
        (r.set = .needReval → r.revalidated = true → SavesQuietly sync rs)

/-- The calls that release the lock as often as they take it. -/
def Releases : Call → Prop
  | .unmount (r :: _) => Locked .write r.reval → r.write ≠ some .needReval
  | .getxattr rounds => Restarts rounds
  | .setxattr sync rounds => SavesQuietly sync rounds
  | _ => True

theorem getVolumeLock_check (m : Mode) (reval : List Reval) :
    check none (ltfsGetVolumeLock m reval).1 =
      some (if (ltfsGetVolumeLock m reval).2 = some true then some m else none) := by
  induction reval with
  | nil => rfl
  | cons r rs ih =>
    cases r with
    | running => exact ih
    | failed => rfl
    | valid => rfl

theorem locked_check {ops : List VolOp} {reval : List Reval} (h : ltfsGetVolumeLock m reval = (ops, some true)) :
    check none ops = some (some m) := by
  have hc := getVolumeLock_check m reval
  rw [h] at hc
  exact hc

theorem unlocked_check {ops : List VolOp} {r : Option Bool} {reval : List Reval}
    (h : ltfsGetVolumeLock m reval = (ops, r)) (hr : r ≠ some true) : check none ops = some none := by
  have hc := getVolumeLock_check m reval
  rw [h] at hc
  simpa [hr] using hc

theorem unmount_check (rounds : List UnmountRound) :
    check none (ltfsUnmount rounds).1 = some none ↔ Releases (.unmount rounds) := by
  cases rounds with
  | nil => exact iff_of_true rfl trivial
  | cons r rs =>
    simp only [ltfsUnmount, Releases, Locked]
    rcases hl : ltfsGetVolumeLock .write r.reval with ⟨ops, _ | _ | _⟩
    · exact iff_of_true (unlocked_check hl (by simp)) (by simp)
    · exact iff_of_true (unlocked_check hl (by simp)) (by simp)
    · simp only
      have hops := locked_check hl
      have hone : check none (ops ++ [.release .write]) = some none := by
        rw [check_append, hops]
        rfl
      cases hw : r.write with
      | none => exact iff_of_true hone (by simp)
      | some w =>
        cases w with
        | needReval =>
          -- the lock is released by `ltfs_revalidate` and then once more
          refine iff_of_false ?_ (by simp)
          simp only
          have htwice : ∀ rest, check none (ops ++ ltfsRevalidate true ++ .release .write :: rest) = none := by
            intro rest
            rw [List.append_assoc, check_append, hops]
            rfl
          split
          · rw [htwice]
            simp
          · rw [htwice]
            simp
        | ok => exact iff_of_true hone (by simp)
        | unexpectedMove => exact iff_of_true hone (by simp)
        | fenced => exact iff_of_true hone (by simp)
        | noXattr => exact iff_of_true hone (by simp)
        | other => exact iff_of_true hone (by simp)

theorem syncIndex_check (indexLocking : Bool) (rounds : List SyncRound) :
    check none (ltfsSyncIndex indexLocking rounds).1 = some none := by
  induction rounds with
  | nil => rfl
  | cons r rs ih =>
    simp only [ltfsSyncIndex]
    split
    · rfl
    cases indexLocking with
    | false =>
      simp only [syncRead, syncAcquire, Bool.false_eq_true, if_false, false_and]
      split
      · rfl
      · split <;> rfl
    | true =>
      simp only [syncRead, syncAcquire, if_true, true_and]
      rcases hl : ltfsGetVolumeLock .read r.revalRead with ⟨ops, _ | _ | _⟩
      · exact unlocked_check hl (by simp)
      · exact unlocked_check hl (by simp)
      · simp only
        have hread : check none (ops ++ [.release .read]) = some none := by
          rw [check_append, locked_check hl]
          rfl
        split
        · exact hread
        rcases hw : ltfsGetVolumeLock .write r.revalWrite with ⟨ops', _ | _ | _⟩
        · simp only
          rw [check_append, hread]
          exact unlocked_check hw (by simp)
        · simp only
          rw [check_append, hread]
          exact unlocked_check hw (by simp)
        · have hwrite : check none (ops ++ [.release .read] ++ ops') = some (some .write) := by
            rw [check_append, hread]
            exact locked_check hw
          have hdone : check none (ops ++ [.release .read] ++ ops' ++ [.release .write]) = some none := by
            rw [check_append, hwrite]
            rfl
          simp only
          split
          · exact hdone
          · split
            · split
              · rw [check_append, check_append, hwrite]
                exact ih
              · rw [check_append, hwrite]
                rfl
            · exact hdone

theorem xattrGet_interrupted {a : XattrAnswers} (h : Interrupted a) (m : Mode) :
    check (some m) (xattrGet a).1 = some none ∧
      (xattrGet a).2 = if a.revalidated then .restart else .ret .other := by
  rcases h with h | h <;> simp only [xattrGet, h, and_true] <;> rfl

theorem xattrGet_quiet {a : XattrAnswers} (h : ¬ Interrupted a) : ∃ r, xattrGet a = ([], .ret r) := by
  simp only [Interrupted, not_or] at h
  simp only [xattrGet]
  split
  next hv => exact absurd hv h.1
  next hv => exact absurd hv h.2
  · exact ⟨_, rfl⟩
  · exact ⟨_, rfl⟩
  · exact ⟨_, rfl⟩

theorem getxattr_check (rounds : List GetRound) :
    check none (ltfsFsopsGetxattr rounds).1 = some none ↔ Restarts rounds := by
  induction rounds with
  | nil => exact iff_of_true rfl trivial
  | cons r rs ih =>
    simp only [ltfsFsopsGetxattr, Restarts, Locked]
    rcases hl : ltfsGetVolumeLock .read r.reval with ⟨ops, _ | _ | _⟩
    · exact iff_of_true (unlocked_check hl (by simp)) (by simp)
    · exact iff_of_true (unlocked_check hl (by simp)) (by simp)
    · simp only [forall_const]
      have hops := locked_check hl
      have hone : check none (ops ++ [.release .read]) = some none := by
        rw [check_append, hops]
        rfl
      cases r.lookup with
      | false => exact iff_of_true hone (by simp)
      | true =>
        simp only [Bool.not_true, Bool.false_eq_true, if_false, forall_const]
        by_cases hi : Interrupted r.xattr
        · obtain ⟨hc, hret⟩ := xattrGet_interrupted hi .read
          rcases hx : xattrGet r.xattr with ⟨ops', ret⟩
          rw [hx] at hc hret
          simp only at hc hret
          have hreleased : check none (ops ++ ops') = some none := by
            rw [check_append, hops]
            exact hc
          cases hr : r.xattr.revalidated with
          | true =>
            obtain rfl : ret = .restart := by simpa [hr] using hret
            simp only [hi, forall_const, true_and]
            rw [check_append, hreleased]
            exact ih
          | false =>
            -- the lock is released although `xattr_get` has done so
            obtain rfl : ret = .ret .other := by simpa [hr] using hret
            simp only [hi, forall_const, Bool.false_eq_true, false_and, iff_false]
            rw [check_append, hreleased]
            simp [check]
        · obtain ⟨ret, hx⟩ := xattrGet_quiet hi
          simp only [hx, hi, false_implies, List.append_nil, iff_true]
          exact hone

theorem setxattr_check (sync : Bool) (rounds : List SetRound) :
    check none (ltfsFsopsSetxattr sync rounds).1 = some none ↔ SavesQuietly sync rounds := by
  induction rounds with
  | nil => exact iff_of_true rfl trivial
  | cons r rs ih =>
    simp only [ltfsFsopsSetxattr, SavesQuietly, Locked]
    by_cases hf : sync = true ∧ (!r.flushed) = true
    · rw [if_pos hf]
      refine iff_of_true rfl ?_
      intro hflushed
      simp [hflushed hf.1] at hf
    · rw [if_neg hf]
      have hflushed : sync = true → r.flushed = true := by
        intro hs
        by_contra hn
        exact hf ⟨hs, by simpa using hn⟩
      rw [forall_prop_of_true hflushed]
      generalize hm : (if sync then Mode.write else .read) = m
      rcases hl : ltfsGetVolumeLock m r.reval with ⟨ops, _ | _ | _⟩
      · exact iff_of_true (unlocked_check hl (by simp)) (by simp)
      · exact iff_of_true (unlocked_check hl (by simp)) (by simp)
      · simp only [forall_const]
        have hops := locked_check hl
        have hone : check none (ops ++ [.releaseAny]) = some none := by
          rw [check_append, hops]
          rfl
        cases r.lookup with
        | false => exact iff_of_true hone (by simp)
        | true =>
          simp only [Bool.not_true, Bool.false_eq_true, if_false, forall_const]
          by_cases hi : Interrupted r.save
          · -- whatever follows releases the lock again
            refine iff_of_false ?_ (fun h => h.1 hi)
            have hreleased : check none (ops ++ (xattrGet r.save).1) = some none := by
              rw [check_append, hops]
              exact (xattrGet_interrupted hi m).1
            have htwice : ∀ rest, check none (ops ++ (xattrGet r.save).1 ++ (ltfsRevalidate sync ++ rest)) = none := by
              intro rest
              rw [check_append, hreleased]
              cases sync <;> rfl
            split
            · split
              · rw [List.append_assoc, htwice]
                simp
              · have h0 := htwice []
                rw [List.append_nil] at h0
                rw [h0]
                simp
            · rw [check_append, hreleased]
              simp [check]
          · obtain ⟨ret, hx⟩ := xattrGet_quiet hi
            have hreval : check none (ops ++ ltfsRevalidate sync) = some none := by
              rw [check_append, hops, ← hm]
              cases sync <;> rfl
            simp only [hx, hi, not_false_eq_true, true_and, List.append_nil]
            by_cases hs : r.set = .needReval
            · simp only [hs, if_true, forall_const]
              cases r.revalidated with
              | true =>
                simp only [if_true, forall_const]
                rw [check_append, hreval]
                exact ih
              | false => exact iff_of_true hreval (by simp)
            · simp only [hs, if_false, false_implies, iff_true]
              exact hone

/-- The lock is released once for each acquisition, by every caller and on every path on which the
callers do not release it after `ltfs_revalidate` or `ltfs_wait_revalidation` has done so. -/
theorem volumeLock_iff (c : Call) : check none (ops c) = some (heldAfter c) ↔ Releases c := by
  cases c with
  | getVolumeLock m reval => exact iff_of_true (getVolumeLock_check m reval) trivial
  | syncIndex indexLocking rounds => exact iff_of_true (syncIndex_check indexLocking rounds) trivial
  | unmount rounds => exact unmount_check rounds
  | getxattr rounds => exact getxattr_check rounds
  | setxattr sync rounds => exact setxattr_check sync rounds

/-- The index cannot be written at unmount before the medium is revalidated, which succeeds. -/
theorem volumeLock_twice :
    check none (ops (.unmount [⟨[.valid], some .needReval, true⟩, ⟨[.valid], some .ok, true⟩])) ≠
      some (heldAfter (.unmount [⟨[.valid], some .needReval, true⟩, ⟨[.valid], some .ok, true⟩])) := by
  decide

end Ltfs.VolumeLockSpec
