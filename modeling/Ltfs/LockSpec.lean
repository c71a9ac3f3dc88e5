import Mathlib.Data.Multiset.AddSub
import Mathlib.Data.Multiset.UnionInter
import Ltfs.Dentry

namespace Ltfs.LockSpec

open Ltfs.Dentry

abbrev Held := Multiset (Lock × Mode)

/-- The locks held after a sequence of operations, or `none` when one of them releases a lock
that is not held in that mode. -/
def check : Held → List LockOp → Option Held
  | held, [] => some held
  | held, .acquire l m :: ops => check ((l, m) ::ₘ held) ops
  | held, .release l m :: ops => if (l, m) ∈ held then check (held.erase (l, m)) ops else none

/-- The operations lead from `before` to `after`, whatever else is held. -/
def Runs (ops : List LockOp) (before after : Held) : Prop :=
  ∀ rest, check (before + rest) ops = some (after + rest)

variable {ops ops' : List LockOp} {a b c : Held} {l l' : Lock} {m m' : Mode}

theorem check_append (held : Held) (ops ops' : List LockOp) :
    check held (ops ++ ops') = (check held ops).bind (fun h => check h ops') := by
  induction ops generalizing held with
  | nil => rfl
  | cons op ops ih =>
    cases op with
    | acquire l m => exact ih _
    | release l m =>
      simp only [List.cons_append, check]
      by_cases h : (l, m) ∈ held
      · rw [if_pos h, if_pos h, ih]
      · rw [if_neg h, if_neg h]
        rfl

namespace Runs

theorem nil : Runs [] a a := fun _ => rfl

theorem append (h : Runs ops a b) (h' : Runs ops' b c) : Runs (ops ++ ops') a c := by
  intro rest
  rw [check_append, h rest]
  exact h' rest

theorem frame (h : Runs ops a b) (x : Held) : Runs ops (a + x) (b + x) := by
  intro rest
  rw [Multiset.add_assoc, Multiset.add_assoc]
  exact h (x + rest)

theorem acquire : Runs [.acquire l m] a ((l, m) ::ₘ a) := by
  intro rest
  simp [check]

theorem release : Runs [.release l m] ((l, m) ::ₘ a) a := by
  intro rest
  simp [check]

theorem release_second : Runs [.release l m] ((l', m') ::ₘ (l, m) ::ₘ a) ((l', m') ::ₘ a) := by
  rw [Multiset.cons_swap]
  exact release

theorem balanced : Runs [.acquire l m, .release l m] a a := by
  simpa using acquire.append (release (l := l) (m := m) (a := a))

/-- Operations that need no lock and leave none do not change what is held. -/
theorem of_empty (h : Runs ops 0 0) : Runs ops a a := by
  simpa using h.frame a

end Runs

end Ltfs.LockSpec
