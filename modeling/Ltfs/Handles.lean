import Mathlib.Tactic.Simps.Basic
import Mathlib.Data.Multiset.Count
import Ltfs.LockSpec

namespace Ltfs.Dentry.Fs

/-- More lock operations done. -/
@[simps -fullyApplied]
def withLog (s : Fs) (ops : List LockOp) : Fs := { s with log := s.log ++ ops }

/-- More references taken. -/
@[simps -fullyApplied]
def withHandles (s : Fs) (M : Multiset Ino) : Fs :=
  { s with numhandles := fun d => s.numhandles d + M.count d }

/-- The last reference frees a dentry that is in no directory and has no entries. -/
@[simps -fullyApplied]
def dropHandle (s : Fs) (d : Ino) : Fs :=
  { s with
    numhandles := Function.update s.numhandles d (s.numhandles d - 1)
    name := if s.numhandles d = 1 then Function.update s.name d none else s.name
    live := if s.numhandles d = 1 then Function.update s.live d false else s.live }

end Ltfs.Dentry.Fs

namespace Ltfs.Handles

open Ltfs.Dentry Ltfs.LockSpec

variable {s : Fs} {d p c : Ino} {M : Multiset Ino} {ops ops' : List LockOp} {l : Lock} {m : Mode}

theorem acquire_eq (s : Fs) : s.acquire l m = s.withLog [.acquire l m] := rfl

theorem release_eq (s : Fs) : s.release l m = s.withLog [.release l m] := rfl

@[simp] theorem withLog_nil (s : Fs) : s.withLog [] = s := by simp [Fs.withLog]

@[simp] theorem withLog_withLog (s : Fs) : (s.withLog ops).withLog ops' = s.withLog (ops ++ ops') := by
  simp [Fs.withLog]

@[simp] theorem withHandles_zero (s : Fs) : s.withHandles 0 = s := by simp [Fs.withHandles]

section Commute

variable {x : Option Ino} {n : Option Name} {es : Entries}

@[simp] theorem getHandle_withLog : (s.withLog ops).getHandle d = (s.getHandle d).withLog ops := rfl

@[simp] theorem putHandle_withLog : (s.withLog ops).putHandle d = (s.putHandle d).withLog ops := rfl

@[simp] theorem setParent_withLog : (s.withLog ops).setParent d x = (s.setParent d x).withLog ops := rfl

@[simp] theorem setName_withLog : (s.withLog ops).setName d n = (s.setName d n).withLog ops := rfl

@[simp] theorem setChildList_withLog :
    (s.withLog ops).setChildList d es = (s.setChildList d es).withLog ops := rfl

@[simp] theorem incLink_withLog : (s.withLog ops).incLink d = (s.incLink d).withLog ops := rfl

@[simp] theorem decLink_withLog : (s.withLog ops).decLink d = (s.decLink d).withLog ops := rfl

@[simp] theorem setDeleted_withLog : (s.withLog ops).setDeleted d = (s.setDeleted d).withLog ops := rfl

@[simp] theorem withHandles_withLog :
    (s.withLog ops).withHandles M = (s.withHandles M).withLog ops := rfl

@[simp] theorem setParent_withHandles :
    (s.withHandles M).setParent d x = (s.setParent d x).withHandles M := rfl

@[simp] theorem setName_withHandles :
    (s.withHandles M).setName d n = (s.setName d n).withHandles M := rfl

@[simp] theorem setChildList_withHandles :
    (s.withHandles M).setChildList d es = (s.setChildList d es).withHandles M := rfl

@[simp] theorem incLink_withHandles : (s.withHandles M).incLink d = (s.incLink d).withHandles M := rfl

@[simp] theorem decLink_withHandles : (s.withHandles M).decLink d = (s.decLink d).withHandles M := rfl

@[simp] theorem setDeleted_withHandles :
    (s.withHandles M).setDeleted d = (s.setDeleted d).withHandles M := rfl

@[simp] theorem increment_withLog :
    fsIncrementFileCount (s.withLog ops) = (fsIncrementFileCount s).withLog ops := rfl

@[simp] theorem increment_withHandles :
    fsIncrementFileCount (s.withHandles M) = (fsIncrementFileCount s).withHandles M := rfl

@[simp] theorem decrement_withLog :
    fsDecrementFileCount (s.withLog ops) = (fsDecrementFileCount s).withLog ops := rfl

@[simp] theorem decrement_withHandles :
    fsDecrementFileCount (s.withHandles M) = (fsDecrementFileCount s).withHandles M := rfl

end Commute

@[simp] theorem getHandle_withHandles : (s.withHandles M).getHandle d = s.withHandles (d ::ₘ M) := by
  simp only [Fs.withHandles, Fs.getHandle]
  congr 1
  funext x
  by_cases hx : x = d
  · subst hx
    simp [Nat.add_assoc]
  · simp [Function.update_of_ne hx, Multiset.count_cons_of_ne hx]

theorem getHandle_eq (s : Fs) (d : Ino) : s.getHandle d = s.withHandles {d} := by
  simpa using getHandle_withHandles (s := s) (M := 0) (d := d)

@[simp] theorem putHandle_withHandles : (s.withHandles (d ::ₘ M)).putHandle d = s.withHandles M := by
  simp only [Fs.withHandles, Fs.putHandle]
  congr 1
  funext x
  by_cases hx : x = d
  · subst hx
    simp
  · simp [Function.update_of_ne hx, Multiset.count_cons_of_ne hx]

theorem putHandle_withHandles_of_mem (h : d ∈ M) :
    (s.withHandles M).putHandle d = s.withHandles (M.erase d) := by
  rw [← Multiset.cons_erase h, putHandle_withHandles, Multiset.erase_cons_head]

theorem releaseUnlocked_withHandles (h : 0 < s.numhandles d) :
    fsReleaseDentryUnlocked (s.withHandles (d ::ₘ M)) d =
      (s.withHandles M).withLog [.release (.metadata d) .write] := by
  have hne : (s.withHandles M).numhandles d ≠ 0 := by simp only [Fs.withHandles]; omega
  simp only [fsReleaseDentryUnlocked, putHandle_withHandles, ne_eq, hne, not_false_eq_true, if_true]
  rfl

/-- A reference beside the one of the link is given back. -/
theorem releaseUnlocked_linked (h : 0 < s.numhandles d) (hm : d ∈ M) :
    fsReleaseDentryUnlocked ((s.withHandles M).withLog ops) d =
      (s.withHandles (M.erase d)).withLog (ops ++ [.release (.metadata d) .write]) := by
  have h1 := releaseUnlocked_withHandles (s := s.withLog ops) (M := M.erase d) (d := d) h
  rw [Multiset.cons_erase hm] at h1
  simpa using h1

theorem release_linked (h : 0 < s.numhandles d) (hm : d ∈ M) :
    fsReleaseDentry ((s.withHandles M).withLog ops) d = (s.withHandles (M.erase d)).withLog
      (ops ++ [.acquire (.metadata d) .write, .release (.metadata d) .write]) := by
  simp only [fsReleaseDentry, acquire_eq, withLog_withLog]
  rw [releaseUnlocked_linked h hm]
  simp

theorem dispose_alone (n : Nat) (hp : s.parent d = none) (hc : s.childList d = []) :
    fsDisposeDentryContents (n + 1) s d true =
      { s.withLog [.release (.metadata d) .write] with
        name := Function.update s.name d none
        live := Function.update s.live d false } := by
  simp only [fsDisposeDentryContents, hc, List.foldl_nil, hp]
  simp only [Fs.setName, Fs.release, Fs.setChildList, Fs.withLog, if_true]
  congr 1
  rw [← hc, Function.update_eq_self]

theorem releaseUnlocked_alone (h : 0 < s.numhandles d) (hp : s.parent d = none)
    (hc : s.childList d = []) :
    fsReleaseDentryUnlocked s d = (s.dropHandle d).withLog [.release (.metadata d) .write] := by
  by_cases h1 : s.numhandles d = 1
  · have h0 : (s.putHandle d).numhandles d = 0 := by simp [Fs.putHandle, h1]
    simp only [fsReleaseDentryUnlocked, h0, ne_eq, not_true_eq_false, if_false]
    rw [dispose_alone (s := s.putHandle d) _ hp hc]
    simp [Fs.dropHandle, Fs.withLog, h1, Fs.putHandle]
  · have h0 : (s.putHandle d).numhandles d ≠ 0 := by
      simp only [Fs.putHandle, Function.update_self]
      omega
    simp only [fsReleaseDentryUnlocked, ne_eq, h0, not_false_eq_true, if_true]
    simp [Fs.dropHandle, Fs.withLog, h1, Fs.putHandle, Fs.release]

/-- References on other dentries do not matter for what happens to this one. -/
theorem dropHandle_withHandles (h : d ∉ M) (hpos : 0 < s.numhandles d) :
    (s.withHandles M).dropHandle d = (s.dropHandle d).withHandles M := by
  have hz : M.count d = 0 := Multiset.count_eq_zero_of_notMem h
  simp only [Fs.dropHandle, Fs.withHandles, hz, Nat.add_zero]
  congr 1
  funext x
  by_cases hx : x = d
  · subst hx
    simp [hz]
  · simp [Function.update_of_ne hx]

end Ltfs.Handles
