import Mathlib.Data.List.Basic
import Mathlib.Data.List.Perm.Basic

namespace Ltfs.Lib.MergeRuns

variable {α : Type} (le : α → α → Bool)

/-- Neighbouring runs of `k` elements are merged, two by two. The merges are counted. -/
def pass (k : Nat) : Nat → List α → List α × Nat
  | 0, l => (l, 0)
  | fuel + 1, l =>
    match l with
    | [] => ([], 0)
    | l =>
      let r := pass k fuel ((l.drop k).drop k)
      (List.merge (l.take k) ((l.drop k).take k) le ++ r.1, r.2 + 1)

/-- Passes with runs of twice the length each time, until one does with a single merge. -/
def loop : Nat → Nat → List α → Option (List α)
  | 0, _, _ => none
  | fuel + 1, k, l =>
    let r := pass le k l.length l
    if r.2 ≤ 1 then some r.1 else loop fuel (2 * k) r.1

/-- Merge sort from the bottom up. -/
def sort : List α → Option (List α)
  | [] => some []
  | l => loop le l.length 1 l

variable {le} {le' : α → α → Bool} {k fuel : Nat} {l r xs : List α} {a b : α}

theorem pass_succ (h : l ≠ []) : pass le k (fuel + 1) l =
    (List.merge (l.take k) ((l.drop k).take k) le ++ (pass le k fuel ((l.drop k).drop k)).1,
      (pass le k fuel ((l.drop k).drop k)).2 + 1) := by
  cases l with
  | nil => exact absurd rfl h
  | cons a l => rfl

theorem pass_nil : pass le k fuel [] = ([], 0) := by
  cases fuel <;> rfl

theorem length_rest (hk : 0 < k) (hne : l ≠ []) (h : l.length ≤ fuel + 1) :
    ((l.drop k).drop k).length ≤ fuel := by
  have hpos := List.length_pos_iff.mpr hne
  rw [List.length_drop, List.length_drop]
  omega

theorem pass_perm (le : α → α → Bool) (k fuel : Nat) (l : List α) : (pass le k fuel l).1.Perm l := by
  induction fuel generalizing l with
  | zero => exact List.Perm.refl l
  | succ fuel ih =>
    by_cases hne : l = []
    · rw [hne, pass_nil]
    · rw [pass_succ hne]
      have hmerge : (List.merge (l.take k) ((l.drop k).take k) le).Perm (l.take k ++ (l.drop k).take k) :=
        List.merge_perm_append le
      refine (hmerge.append (ih ((l.drop k).drop k))).trans ?_
      rw [List.append_assoc, List.take_append_drop, List.take_append_drop]

theorem pass_none (h : l.length ≤ fuel) : (pass le k fuel l).2 = 0 ↔ l = [] := by
  constructor
  · intro hzero
    by_contra hne
    obtain ⟨fuel, rfl⟩ : ∃ m, fuel = m + 1 := ⟨fuel - 1, by have := List.length_pos_iff.mpr hne; omega⟩
    rw [pass_succ hne] at hzero
    cases hzero
  · rintro rfl
    rw [pass_nil]

theorem pass_count (hk : 0 < k) (h : l.length ≤ fuel) : (pass le k fuel l).2 ≤ 1 ↔ l.length ≤ 2 * k := by
  by_cases hne : l = []
  · subst hne
    rw [pass_nil]
    simp
  · obtain ⟨fuel, rfl⟩ : ∃ m, fuel = m + 1 := ⟨fuel - 1, by have := List.length_pos_iff.mpr hne; omega⟩
    have hrest := @pass_none _ le k _ _ (length_rest hk hne h)
    have hlen : (l.drop k).drop k = [] ↔ l.length ≤ 2 * k := by
      rw [List.drop_drop, List.drop_eq_nil_iff]
      omega
    rw [pass_succ hne, ← hlen, ← hrest]
    simp only
    omega

/-- The doubled runs cover the list before the passes run out. -/
theorem exists_loop (hk : 0 < k) (hfuel : 0 < fuel) (h : l.length ≤ k + fuel) : ∃ r, loop le fuel k l = some r := by
  induction fuel generalizing k l with
  | zero => exact absurd hfuel (Nat.lt_irrefl 0)
  | succ fuel ih =>
    rw [loop]
    by_cases hone : (pass le k l.length l).2 ≤ 1
    · exact ⟨_, if_pos hone⟩
    · have hlen := (pass_perm le k l.length l).length_eq
      rw [pass_count hk (Nat.le_refl _)] at hone
      obtain ⟨r, hr⟩ := @ih (2 * k) (pass le k l.length l).1 (by omega) (by omega) (by omega)
      refine ⟨r, ?_⟩
      rw [if_neg (by rwa [pass_count hk (Nat.le_refl _)]), hr]

theorem exists_sort (le : α → α → Bool) (l : List α) : ∃ r, sort le l = some r := by
  cases l with
  | nil => exact ⟨[], rfl⟩
  | cons a l => exact exists_loop (Nat.succ_pos 0) (Nat.succ_pos _) (by omega)

theorem loop_perm (h : loop le fuel k l = some r) : r.Perm l := by
  induction fuel generalizing k l with
  | zero => cases h
  | succ fuel ih =>
    rw [loop] at h
    split at h
    · rw [← Option.some.inj h]
      exact pass_perm le k l.length l
    · exact (ih h).trans (pass_perm le k l.length l)

theorem sort_perm (h : sort le l = some r) : r.Perm l := by
  cases l with
  | nil => rw [← Option.some.inj h]
  | cons a l => exact loop_perm h

theorem sublist_merge (le : α → α → Bool) (l r : List α) : l.Sublist (List.merge l r le) := by
  induction l generalizing r with
  | nil => exact List.nil_sublist _
  | cons a l ihl =>
    induction r with
    | nil => simp
    | cons b r ihr =>
      rw [List.cons_merge_cons]
      split
      · exact (ihl (b :: r)).cons_cons a
      · exact ihr.cons b

/-- What stands in the first run stays in its order. -/
theorem pass_first (h : l.length ≤ fuel) (hxs : xs.Sublist (l.take k)) :
    xs.Sublist ((pass le k fuel l).1.take (2 * k)) := by
  by_cases hne : l = []
  · subst hne
    rw [pass_nil]
    simpa using hxs
  · obtain ⟨fuel, rfl⟩ : ∃ m, fuel = m + 1 := ⟨fuel - 1, by have := List.length_pos_iff.mpr hne; omega⟩
    have hlen : (List.merge (l.take k) ((l.drop k).take k) le).length ≤ 2 * k := by
      rw [List.length_merge, List.length_take, List.length_take]
      omega
    rw [pass_succ hne, List.take_append, List.take_of_length_le hlen]
    exact (hxs.trans (sublist_merge le _ _)).trans (List.sublist_append_left _ _)

theorem loop_first (h : loop le fuel k l = some r) (hxs : xs.Sublist (l.take k)) : xs.Sublist r := by
  induction fuel generalizing k l with
  | zero => cases h
  | succ fuel ih =>
    have hpass : xs.Sublist ((pass le k l.length l).1.take (2 * k)) := pass_first (Nat.le_refl _) hxs
    rw [loop] at h
    split at h
    · rw [← Option.some.inj h]
      exact hpass.trans (List.take_sublist _ _)
    · exact ih h hpass

/-- The first two elements come out in the order that their comparison gives. -/
theorem sort_first (h : sort le (a :: b :: l) = some r) : (if le a b then [a, b] else [b, a]).Sublist r := by
  have hpass : (pass le 1 (l.length + 2) (a :: b :: l)).1.take 2 = if le a b then [a, b] else [b, a] := by
    rw [pass_succ (List.cons_ne_nil a _)]
    simp only [List.take_succ_cons, List.take_zero, List.drop_succ_cons, List.drop_zero, List.cons_merge_cons]
    cases le a b <;> simp
  have hsort : (if (pass le 1 (l.length + 2) (a :: b :: l)).2 ≤ 1
      then some (pass le 1 (l.length + 2) (a :: b :: l)).1
      else loop le (l.length + 1) 2 (pass le 1 (l.length + 2) (a :: b :: l)).1) = some r := h
  rw [← hpass]
  split at hsort
  · rw [← Option.some.inj hsort]
    exact List.take_sublist _ _
  · exact loop_first hsort (List.Sublist.refl _)

section Congr

theorem merge_congr {l r : List α} (h : ∀ a ∈ l, ∀ b ∈ r, le a b = le' a b) :
    List.merge l r le = List.merge l r le' := by
  induction l generalizing r with
  | nil => simp
  | cons a l ihl =>
    induction r with
    | nil => simp
    | cons b r ihr =>
      have hl := @ihl (b :: r) fun x hx y hy => h x (List.mem_cons_of_mem a hx) y hy
      have hr := ihr fun x hx y hy => h x hx y (List.mem_cons_of_mem b hy)
      rw [List.cons_merge_cons, List.cons_merge_cons, h a List.mem_cons_self b List.mem_cons_self, hl, hr]

theorem pass_congr {l : List α} (h : ∀ a ∈ l, ∀ b ∈ l, le a b = le' a b) (k fuel : Nat) :
    pass le k fuel l = pass le' k fuel l := by
  induction fuel generalizing l with
  | zero => rfl
  | succ fuel ih =>
    by_cases hne : l = []
    · rw [hne, pass_nil, pass_nil]
    · have hmem : ∀ a ∈ (l.drop k).drop k, a ∈ l := fun a ha => List.mem_of_mem_drop (List.mem_of_mem_drop ha)
      have hmerge : List.merge (l.take k) ((l.drop k).take k) le = List.merge (l.take k) ((l.drop k).take k) le' :=
        merge_congr fun a ha b hb =>
          h a (List.mem_of_mem_take ha) b (List.mem_of_mem_drop (List.mem_of_mem_take hb))
      rw [pass_succ hne, pass_succ hne, hmerge, ih fun a ha b hb => h a (hmem a ha) b (hmem b hb)]

theorem loop_congr {l : List α} (h : ∀ a ∈ l, ∀ b ∈ l, le a b = le' a b) (k fuel : Nat) :
    loop le fuel k l = loop le' fuel k l := by
  induction fuel generalizing k l with
  | zero => rfl
  | succ fuel ih =>
    have hmem : ∀ a ∈ (pass le' k l.length l).1, a ∈ l := fun a ha => (pass_perm le' k _ l).mem_iff.mp ha
    rw [loop, loop, pass_congr h, ih fun a ha b hb => h a (hmem a ha) b (hmem b hb)]

/-- Only the comparisons of the elements that are sorted count. -/
theorem sort_congr {l : List α} (h : ∀ a ∈ l, ∀ b ∈ l, le a b = le' a b) : sort le l = sort le' l := by
  cases l with
  | nil => rfl
  | cons a l => exact loop_congr h 1 _

end Congr

/-- The runs of `k` elements that a list is made of are in order. -/
def Runs (le : α → α → Bool) (k : Nat) (l : List α) : Prop :=
  ∀ i, ((l.drop (i * k)).take k).Pairwise fun a b => le a b = true

section Sorted

variable (trans : ∀ a b c, le a b = true → le b c = true → le a c = true) (total : ∀ a b, (le a b || le b a) = true)

include trans total

theorem pass_runs (hk : 0 < k) (h : l.length ≤ fuel) (hruns : Runs le k l) :
    Runs le (2 * k) (pass le k fuel l).1 := by
  induction fuel generalizing l with
  | zero =>
    rw [List.length_eq_zero_iff.mp (Nat.le_zero.mp h)]
    intro i
    simp [pass]
  | succ fuel ih =>
    by_cases hne : l = []
    · subst hne
      intro i
      simp [pass_nil]
    · have hrest : Runs le k ((l.drop k).drop k) := by
        intro i
        have hi := hruns (i + 2)
        rwa [List.drop_drop, List.drop_drop, show k + (k + i * k) = (i + 2) * k by rw [Nat.add_mul]; omega]
      have hsorted : (List.merge (l.take k) ((l.drop k).take k) le).Pairwise fun a b => le a b = true := by
        apply List.pairwise_merge trans total
        · simpa using hruns 0
        · simpa using hruns 1
      have hlen : (List.merge (l.take k) ((l.drop k).take k) le).length = min (2 * k) l.length := by
        rw [List.length_merge, List.length_take, List.length_take, List.length_drop]
        omega
      have hend : (pass le k fuel ((l.drop k).drop k)).1 = [] ∨ 2 * k ≤ l.length := by
        by_cases hfull : 2 * k ≤ l.length
        · exact Or.inr hfull
        · have hnil : (l.drop k).drop k = [] := by
            rw [List.drop_drop, List.drop_eq_nil_iff]
            omega
          rw [hnil, pass_nil]
          exact Or.inl rfl
      have hpass := @ih ((l.drop k).drop k) (length_rest hk hne h) hrest
      rw [pass_succ hne]
      generalize List.merge (l.take k) ((l.drop k).take k) le = m at hsorted hlen
      generalize (pass le k fuel ((l.drop k).drop k)).1 = q at hend hpass
      intro i
      rcases hend with rfl | hfull
      · rw [List.append_nil]
        exact hsorted.sublist ((List.take_sublist _ _).trans (List.drop_sublist _ _))
      · have hm : m.length = 2 * k := by omega
        cases i with
        | zero =>
          rw [Nat.zero_mul, List.drop_zero, List.take_left' hm]
          exact hsorted
        | succ i =>
          have hindex : (i + 1) * (2 * k) = 2 * k + i * (2 * k) := by rw [Nat.add_mul, Nat.one_mul, Nat.add_comm]
          rw [hindex, ← List.drop_drop, List.drop_left' hm]
          exact hpass i

theorem loop_sorted (hk : 0 < k) (hruns : Runs le k l) (h : loop le fuel k l = some r) :
    r.Pairwise fun a b => le a b = true := by
  induction fuel generalizing k l with
  | zero => cases h
  | succ fuel ih =>
    have hpass := pass_runs trans total hk (Nat.le_refl l.length) hruns
    rw [loop] at h
    split at h
    · next hone =>
      have hlen := (pass_perm le k l.length l).length_eq
      rw [pass_count hk (Nat.le_refl _)] at hone
      have hall := hpass 0
      rw [Nat.zero_mul, List.drop_zero, List.take_of_length_le (by omega)] at hall
      rwa [← Option.some.inj h]
    · exact ih (by omega) hpass h

/-- A total order sorts every list. -/
theorem sort_sorted (h : sort le l = some r) : r.Pairwise fun a b => le a b = true := by
  cases l with
  | nil =>
    rw [← Option.some.inj h]
    exact List.Pairwise.nil
  | cons a l =>
    refine loop_sorted trans total (Nat.succ_pos 0) ?_ h
    intro i
    generalize (a :: l).drop (i * 1) = t
    cases t with
    | nil => exact List.Pairwise.nil
    | cons b t => exact List.pairwise_singleton _ b

end Sorted

end Ltfs.Lib.MergeRuns
