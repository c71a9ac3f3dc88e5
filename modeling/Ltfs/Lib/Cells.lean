import Mathlib.Data.List.Basic

namespace Ltfs.Lib.Cells

variable {α β : Type}

/-- What a run of cells put down at `off` holds at position `x`. -/
def cell (off : Nat) (data : List α) (x : Nat) : Option α :=
  if off ≤ x then data[x - off]? else none

/-- What the first layer that covers `x` holds there. -/
def overlay (f : β → Nat → Option α) (l : List β) (x : Nat) : Option α :=
  l.findSome? (f · x)

variable {off x n : Nat} {data a b : List α} {f : β → Nat → Option α} {l m : List β}

theorem cell_of_lt (h : x < off) : cell off data x = none :=
  if_neg (Nat.not_le.2 h)

theorem cell_of_ge (h : off + data.length ≤ x) : cell off data x = none := by
  unfold cell
  rw [if_pos (by omega)]
  exact List.getElem?_eq_none (by omega)

theorem cell_eq_none_iff : cell off data x = none ↔ x < off ∨ off + data.length ≤ x := by
  constructor
  · intro h
    by_contra hx
    simp only [not_or, Nat.not_lt, Nat.not_le] at hx
    unfold cell at h
    rw [if_pos hx.1, List.getElem?_eq_none_iff] at h
    omega
  · rintro (h | h)
    · exact cell_of_lt h
    · exact cell_of_ge h

theorem cell_inside (h : off ≤ x) (h' : x < off + data.length) : ∃ c, cell off data x = some c := by
  rw [← Option.ne_none_iff_exists', Ne, cell_eq_none_iff]
  omega

@[simp] theorem cell_nil (off x : Nat) : cell off ([] : List α) x = none := by
  rw [cell_eq_none_iff, List.length_nil]
  omega

/-- Two runs one behind the other. -/
theorem cell_append (off : Nat) (a b : List α) (x : Nat) :
    cell off (a ++ b) x = (cell off a x).or (cell (off + a.length) b x) := by
  by_cases h : x < off + a.length
  · rw [cell_of_lt h, Option.or_none]
    by_cases h' : off ≤ x
    · simp only [cell, if_pos h']
      exact List.getElem?_append_left (by omega)
    · rw [cell_of_lt (by omega), cell_of_lt (by omega)]
  · rw [cell_of_ge (by omega : off + a.length ≤ x), Option.none_or]
    simp only [cell, if_pos (by omega : off ≤ x), if_pos (by omega : off + a.length ≤ x)]
    rw [List.getElem?_append_right (by omega)]
    congr 1
    omega

theorem cell_take (off n : Nat) (data : List α) (x : Nat) :
    cell off (data.take n) x = if x < off + n then cell off data x else none := by
  by_cases h : x < off + n
  · rw [if_pos h]
    by_cases h' : off ≤ x
    · simp only [cell, if_pos h']
      exact List.getElem?_take_of_lt (by omega)
    · rw [cell_of_lt (by omega), cell_of_lt (by omega)]
  · rw [if_neg h, cell_of_ge]
    rw [List.length_take]
    omega

theorem cell_drop (off n : Nat) (data : List α) (x : Nat) :
    cell (off + n) (data.drop n) x = if x < off + n then none else cell off data x := by
  by_cases h : x < off + n
  · rw [if_pos h, cell_of_lt h]
  · rw [if_neg h]
    simp only [cell, if_pos (by omega : off ≤ x), if_pos (by omega : off + n ≤ x), List.getElem?_drop]
    congr 1
    omega

/-- The run is cut in two at any point. -/
theorem cell_split (off n : Nat) (data : List α) (x : Nat) :
    cell off data x = (cell off (data.take n) x).or (cell (off + n) (data.drop n) x) := by
  rw [cell_take, cell_drop]
  by_cases h : x < off + n
  · simp [h]
  · simp [h]

@[simp] theorem overlay_nil (f : β → Nat → Option α) (x : Nat) : overlay f [] x = none := rfl

@[simp] theorem overlay_cons (f : β → Nat → Option α) (s : β) (l : List β) (x : Nat) :
    overlay f (s :: l) x = (f s x).or (overlay f l x) := by
  unfold overlay
  rw [List.findSome?_cons]
  cases f s x <;> rfl

@[simp] theorem overlay_append (f : β → Nat → Option α) (l m : List β) (x : Nat) :
    overlay f (l ++ m) x = (overlay f l x).or (overlay f m x) :=
  List.findSome?_append

theorem overlay_eq_none (h : ∀ s ∈ l, f s x = none) : overlay f l x = none :=
  List.findSome?_eq_none_iff.2 h

theorem overlay_mem {c : α} (h : overlay f l x = some c) : ∃ s ∈ l, f s x = some c := by
  obtain ⟨l₁, s, l₂, rfl, hs, -⟩ := List.findSome?_eq_some_iff.1 h
  exact ⟨s, by simp, hs⟩

end Ltfs.Lib.Cells
