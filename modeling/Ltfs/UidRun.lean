import Ltfs.Dentry
import Ltfs.Lib.Run
import Ltfs.XmlUids

namespace Ltfs.UidRun

open XmlReader XmlIndex XmlUids Lib.Labels Lib.Run

/-- The counter of an index, and every dentry that has ever been in it. -/
structure History where
  uidNumber : Nat
  dentries : List Label
deriving DecidableEq, Repr

/-- `fs_allocate_dentry` for a create, as far as the UID goes. `mem` and `locks` say whether the memory of the
dentry is there and whether its locks can be set up; a UID that is not used is lost. -/
def fsAllocateDentry (s : History) (mem locks : Bool) : History × Option Nat :=
  if !mem then (s, none)
  else
    let uid := fsAllocateUid s.uidNumber
    if uid.1 = 0 ∨ !locks then ({ s with uidNumber := uid.2 }, none)
    else (⟨uid.2, s.dentries ++ [⟨uid.1, true⟩]⟩, some uid.1)

theorem uint64_eq_zero_iff (u : UInt64) : u = 0 ↔ u.toNat = 0 := by
  rw [← UInt64.toNat_inj]
  rfl

/-- It is the counter of the dentries: the two allocations agree. -/
theorem fsAllocateDentry_dentry (fs : Dentry.Fs) (ls : List Label) (name : Dentry.Name) (isdir mem locks : Bool) :
    (Dentry.fsAllocateDentry mem locks fs name isdir).1.uidNumber.toNat =
        (fsAllocateDentry ⟨fs.uidNumber.toNat, ls⟩ mem locks).1.uidNumber ∧
      (Dentry.fsAllocateDentry mem locks fs name isdir).2.isSome =
        (fsAllocateDentry ⟨fs.uidNumber.toNat, ls⟩ mem locks).2.isSome := by
  have hsucc : (fs.uidNumber + 1).toNat = wrap (fs.uidNumber.toNat + 1) := UInt64.toNat_add _ _
  cases mem with
  | false => exact ⟨rfl, rfl⟩
  | true =>
    by_cases hzero : fs.uidNumber.toNat = 0
    · have hzero' := (uint64_eq_zero_iff _).2 hzero
      simp [Dentry.fsAllocateDentry, Dentry.fsAllocateUid, fsAllocateDentry, fsAllocateUid, hzero']
    · have hzero' : fs.uidNumber ≠ 0 := fun h => hzero ((uint64_eq_zero_iff _).1 h)
      by_cases hstop : wrap (fs.uidNumber.toNat + 1) = 0 ∨ (!locks) = true
      · have hstop' : fs.uidNumber + 1 = 0 ∨ (!locks) = true := by rwa [uint64_eq_zero_iff, hsucc]
        simp only [Dentry.fsAllocateDentry, Dentry.fsAllocateUid, fsAllocateDentry, fsAllocateUid, hzero, hzero', hstop,
          hstop', Bool.not_true, Bool.false_eq_true, if_false, if_true, hsucc, Option.isSome_none, and_self]
      · have hstop' : ¬ (fs.uidNumber + 1 = 0 ∨ (!locks) = true) := by rwa [uint64_eq_zero_iff, hsucc]
        simp only [Dentry.fsAllocateDentry, Dentry.fsAllocateUid, fsAllocateDentry, fsAllocateUid, hzero, hzero', hstop,
          hstop', Bool.not_true, Bool.false_eq_true, if_false, Dentry.initDentry, hsucc, Option.isSome_some, and_self]

def create (s : History) (call : Bool × Bool) : History :=
  (fsAllocateDentry s call.1 call.2).1

/-- The creates that follow the parse of a document. -/
def creates (s : History) (calls : List (Bool × Bool)) : History :=
  run create s calls

/-- What a history keeps. A counter that has wrapped says nothing about the dentries any more. -/
structure Kept (s : History) : Prop where
  lt : s.uidNumber < 2 ^ 64
  apart : s.dentries.Pairwise Apart
  bound : s.uidNumber ≠ 0 → ∀ l ∈ s.dentries, l.value ≤ s.uidNumber

variable {s : History}

/-- The counter stands at zero, wraps to it, or goes on to the next number. -/
theorem fsAllocateUid_cases {k : Nat} (hlt : k < 2 ^ 64) :
    fsAllocateUid k = (0, 0) ∨ fsAllocateUid k = (k + 1, k + 1) ∧ k ≠ 0 ∧ k + 1 < 2 ^ 64 := by
  by_cases hzero : k = 0
  · exact .inl (if_pos hzero)
  · by_cases hne : (fsAllocateUid k).1 = 0
    · rw [fsAllocateUid, if_neg hzero] at hne ⊢
      have hwrap : wrap (k + 1) = 0 := hne
      rw [hwrap]
      exact .inl rfl
    · obtain ⟨heq, hroom⟩ := fsAllocateUid_eq (Nat.pos_of_ne_zero hzero) hne hlt
      exact .inr ⟨heq, hzero, hroom⟩

/-- The step lemma. -/
theorem Kept.create (h : Kept s) (call : Bool × Bool) : Kept (create s call) := by
  obtain ⟨mem, locks⟩ := call
  cases mem with
  | false => exact h
  | true =>
    rcases fsAllocateUid_cases h.lt with heq | ⟨heq, hne, hroom⟩
    · simp only [UidRun.create, fsAllocateDentry, heq, Bool.not_true, Bool.false_eq_true, if_false, true_or, if_true]
      exact ⟨Nat.two_pow_pos 64, h.apart, fun hno => absurd rfl hno⟩
    · have hbound : ∀ l ∈ s.dentries, l.value ≤ s.uidNumber + 1 := fun l hl => Nat.le_succ_of_le (h.bound hne l hl)
      simp only [UidRun.create, fsAllocateDentry, heq, Bool.not_true, Bool.false_eq_true, if_false, Nat.succ_ne_zero,
        false_or]
      cases locks with
      | false => exact ⟨hroom, h.apart, fun _ => hbound⟩
      | true =>
        refine ⟨hroom, apart_issue h.apart (h.bound hne), fun _ => ?_⟩
        simp only [Bool.not_true, Bool.false_eq_true, if_false, List.forall_mem_append, List.forall_mem_singleton]
        exact ⟨hbound, le_refl _⟩

theorem Kept.creates (h : Kept s) (calls : List (Bool × Bool)) : Kept (creates s calls) := by
  induction calls generalizing s with
  | nil => exact h
  | cons call calls ih => exact ih (h.create call)

theorem fsAllocateDentry_refused (hzero : s.uidNumber = 0) (mem locks : Bool) :
    fsAllocateDentry s mem locks = (s, none) := by
  obtain ⟨uidNumber, dentries⟩ := s
  obtain rfl : uidNumber = 0 := hzero
  cases mem <;> rfl

theorem creates_refused (hzero : s.uidNumber = 0) (calls : List (Bool × Bool)) : creates s calls = s := by
  induction calls with
  | nil => rfl
  | cons call calls ih =>
    rw [creates, run_cons, create, fsAllocateDentry_refused hzero]
    exact ih

/-- Every UID that the counter gives, to a dentry of an older document or to one created later, is nobody else's;
and when the counter has wrapped no dentry is created any more. -/
theorem allocated_apart {c : Checks} {doc : Document} {idx : XmlIndex.Index} (h : xmlParseSchema c doc = .ok idx)
    (calls : List (Bool × Bool)) :
    (creates ⟨idx.uidNumber, documentDentries c doc⟩ calls).dentries.Pairwise Apart ∧
      ((creates ⟨idx.uidNumber, documentDentries c doc⟩ calls).uidNumber = 0 → ∀ more mem locks,
        fsAllocateDentry (creates ⟨idx.uidNumber, documentDentries c doc⟩ (calls ++ more)) mem locks =
          (creates ⟨idx.uidNumber, documentDentries c doc⟩ calls, none)) := by
  obtain ⟨-, hlt, hcovers⟩ := documentDentries_covers h
  have hkept : Kept ⟨idx.uidNumber, documentDentries c doc⟩ := ⟨hlt, hcovers.apart, fun _ => hcovers.bound⟩
  refine ⟨(hkept.creates calls).apart, fun hzero more mem locks => ?_⟩
  have hmore : creates ⟨idx.uidNumber, documentDentries c doc⟩ (calls ++ more) =
      creates ⟨idx.uidNumber, documentDentries c doc⟩ calls := by
    rw [creates, run_append]
    exact creates_refused hzero more
  rw [hmore]
  exact fsAllocateDentry_refused hzero mem locks

/-- An index of version 1.0.0 with one file. -/
def oldDocument : Document := { XmlSpec.oneFile ['5'] [] with version := makeLtfsVersion 1 0 0 }

/-- The file and three creates, of which the second loses its UID. -/
theorem allocated_apart_oldDocument :
    (creates ⟨2, documentDentries XmlSpec.checks oldDocument⟩ [(true, true), (true, false), (true, true)]).dentries =
        [⟨2, true⟩, ⟨1, false⟩, ⟨3, true⟩, ⟨5, true⟩] ∧
      [Label.mk 2 true, ⟨1, false⟩, ⟨3, true⟩, ⟨5, true⟩].Pairwise Apart := by
  have haccepted : xmlParseSchema XmlSpec.checks oldDocument = .ok ⟨2, 0, [⟨5, 2, none, 0, 0, []⟩]⟩ := by decide
  have hcreates : (creates ⟨2, documentDentries XmlSpec.checks oldDocument⟩
      [(true, true), (true, false), (true, true)]).dentries = [⟨2, true⟩, ⟨1, false⟩, ⟨3, true⟩, ⟨5, true⟩] := by decide
  have hapart := (allocated_apart haccepted [(true, true), (true, false), (true, true)]).1
  rw [hcreates] at hapart
  exact ⟨hcreates, hapart⟩

end Ltfs.UidRun
