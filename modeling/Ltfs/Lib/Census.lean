import Mathlib.Algebra.BigOperators.Group.Finset.Basic
import Mathlib.Algebra.Order.BigOperators.Group.Finset

namespace Ltfs.Lib.Census

variable {ι α : Type} [Fintype ι]

/-- The sum of what the members of a population weigh. -/
def total (g : α → Nat) (f : ι → α) : Nat :=
  ∑ i, g (f i)

variable {g h : α → Nat} {f : ι → α}

theorem le_total (g : α → Nat) (f : ι → α) (i : ι) : g (f i) ≤ total g f :=
  Finset.single_le_sum (f := fun i => g (f i)) (fun _ _ => Nat.zero_le _) (Finset.mem_univ i)

theorem total_mono (hle : ∀ a, g a ≤ h a) : total g f ≤ total h f :=
  Finset.sum_le_sum (fun i _ => hle (f i))

theorem total_add (g h : α → Nat) (f : ι → α) : total (fun a => g a + h a) f = total g f + total h f :=
  Finset.sum_add_distrib

theorem total_le_card (hone : ∀ a, g a ≤ 1) : total g f ≤ Fintype.card ι := by
  have hsum := Finset.sum_le_card_nsmul Finset.univ (fun i => g (f i)) 1 (fun i _ => hone (f i))
  simpa [total] using hsum

theorem total_eq_zero (hz : ∀ i, g (f i) = 0) : total g f = 0 :=
  Finset.sum_eq_zero (fun i _ => hz i)

theorem total_eq_card (hone : ∀ i, g (f i) = 1) : total g f = Fintype.card ι := by
  rw [total, Finset.sum_congr rfl (fun i _ => hone i), ← Finset.card_eq_sum_ones, Finset.card_univ]

theorem exists_of_total_pos (hpos : 0 < total g f) : ∃ i, 0 < g (f i) := by
  by_contra hno
  have hzero : total g f = 0 := total_eq_zero (fun i => Nat.eq_zero_of_not_pos (fun hi => hno ⟨i, hi⟩))
  omega

/-- Two members of a population that weighs at most one are the same member. -/
theorem eq_of_total_le_one (hone : total g f ≤ 1) {i j : ι} (hi : 0 < g (f i)) (hj : 0 < g (f j)) : i = j := by
  classical
  by_contra hne
  have hpair : g (f i) + g (f j) ≤ total g f := by
    rw [← Finset.sum_pair hne (f := fun k => g (f k))]
    exact Finset.sum_le_sum_of_subset (Finset.subset_univ _)
  omega

variable [DecidableEq ι]

/-- When one member changes, the total changes by what this member weighs. -/
theorem total_update (g : α → Nat) (f : ι → α) (i : ι) (a : α) :
    total g (Function.update f i a) + g (f i) = total g f + g a := by
  have hrest : ∑ j ∈ Finset.univ.erase i, g (Function.update f i a j) = ∑ j ∈ Finset.univ.erase i, g (f j) := by
    refine Finset.sum_congr rfl (fun j hj => ?_)
    rw [Function.update_of_ne (Finset.ne_of_mem_erase hj)]
  have hupd := Finset.add_sum_erase _ (fun j => g (Function.update f i a j)) (Finset.mem_univ i)
  have hold := Finset.add_sum_erase _ (fun j => g (f j)) (Finset.mem_univ i)
  rw [hrest, Function.update_self] at hupd
  simp only [total]
  omega

end Ltfs.Lib.Census
