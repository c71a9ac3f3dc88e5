import Mathlib.Data.List.Basic

namespace Ltfs.Lib.Labels

/-- A number that something carries, and whether a counter issued it. -/
structure Label where
  value : Nat
  issued : Bool
deriving DecidableEq, Repr

/-- A number that was issued is nobody else's. -/
def Apart (a b : Label) : Prop := a.issued = true ∨ b.issued = true → a.value ≠ b.value

instance : DecidableRel Apart :=
  fun a b => inferInstanceAs (Decidable (a.issued = true ∨ b.issued = true → a.value ≠ b.value))

/-- The counter went from `n` to `n'` while the labels were handed out: all of them by it, or none. -/
structure Grows (issued : Bool) (n n' : Nat) (ls : List Label) : Prop where
  le : n ≤ n'
  same : ∀ l ∈ ls, l.issued = issued
  bound : ∀ l ∈ ls, l.value ≤ n'
  above : ∀ l ∈ ls, l.issued = true → n < l.value
  apart : ls.Pairwise Apart

variable {issued : Bool} {n n' n'' : Nat} {ls ls' : List Label} {l : Label}

theorem grows_nil (issued : Bool) (h : n ≤ n') : Grows issued n n' [] :=
  ⟨h, by simp, by simp, by simp, List.Pairwise.nil⟩

theorem grows_singleton (h : n ≤ n') (hl : l.value ≤ n') (habove : l.issued = true → n < l.value) :
    Grows l.issued n n' [l] :=
  ⟨h, by simp, by simpa using hl, by simpa using habove, List.pairwise_singleton _ _⟩

theorem Grows.append (h : Grows issued n n' ls) (h' : Grows issued n' n'' ls') : Grows issued n n'' (ls ++ ls') := by
  constructor
  · exact Nat.le_trans h.le h'.le
  · rw [List.forall_mem_append]
    exact ⟨h.same, h'.same⟩
  · rw [List.forall_mem_append]
    exact ⟨fun l hl => Nat.le_trans (h.bound l hl) h'.le, h'.bound⟩
  · rw [List.forall_mem_append]
    exact ⟨h.above, fun l hl hi => Nat.lt_of_le_of_lt h.le (h'.above l hl hi)⟩
  · rw [List.pairwise_append]
    refine ⟨h.apart, h'.apart, fun a ha b hb hab => ?_⟩
    have hb' : b.issued = true := by
      rw [h.same a ha, h'.same b hb, or_self] at hab
      rw [h'.same b hb, hab]
    have hlt := h'.above b hb hb'
    have hle := h.bound a ha
    omega

/-- What a counter that is never below a label keeps apart, it keeps apart when it issues its successor. -/
theorem apart_issue (hapart : ls.Pairwise Apart) (hbound : ∀ l ∈ ls, l.value ≤ n) :
    (ls ++ [Label.mk (n + 1) true]).Pairwise Apart := by
  rw [List.pairwise_append]
  refine ⟨hapart, List.pairwise_singleton _ _, fun a ha b hb _ => ?_⟩
  obtain rfl := List.mem_singleton.1 hb
  have hle := hbound a ha
  exact Nat.ne_of_lt (Nat.lt_succ_of_le hle)

end Ltfs.Lib.Labels
