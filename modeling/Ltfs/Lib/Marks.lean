import Mathlib.Data.List.Basic
import Mathlib.Data.List.Count

namespace Ltfs.Lib.Marks

variable {α β : Type}

/-- An element of a list with the property `P` stands at place `b`. -/
def MarkAt (P : α → Bool) (l : List α) (b : Nat) : Prop :=
  ∃ a, l[b]? = some a ∧ P a = true

/-- How many elements with the property stand before place `b`. -/
def marks (P : α → Bool) (l : List α) (b : Nat) : Nat :=
  (l.take b).countP P

/-- Place `k` is behind the `n`-th mark from place `b` on. -/
def Behind (P : α → Bool) (l : List α) (b n k : Nat) : Prop :=
  ∃ j, k = j + 1 ∧ b ≤ j ∧ MarkAt P l j ∧ marks P l k = marks P l b + n

/-- At place `k` is the `n`-th mark before place `b`. -/
def InFront (P : α → Bool) (l : List α) (b n k : Nat) : Prop :=
  k < b ∧ MarkAt P l k ∧ marks P l k + n = marks P l b

variable {P : α → Bool} {l : List α} {b c k n : Nat}

@[simp] theorem marks_zero (P : α → Bool) (l : List α) : marks P l 0 = 0 := by
  simp [marks]

theorem marks_length (P : α → Bool) (l : List α) : marks P l l.length = l.countP P := by
  simp [marks]

theorem markAt_lt (h : MarkAt P l b) : b < l.length := by
  obtain ⟨a, ha, -⟩ := h
  exact (List.getElem?_eq_some_iff.1 ha).1

theorem marks_succ_mark (h : MarkAt P l b) : marks P l (b + 1) = marks P l b + 1 := by
  obtain ⟨a, ha, hP⟩ := h
  simp [marks, List.take_add_one, ha, hP]

theorem marks_succ_other (h : ¬ MarkAt P l b) : marks P l (b + 1) = marks P l b := by
  unfold marks
  rw [List.take_add_one, List.countP_append]
  cases ha : l[b]? with
  | none => rfl
  | some a =>
    have hP : ¬ P a = true := fun hP => h ⟨a, ha, hP⟩
    simp [hP]

theorem marks_mono (h : b ≤ c) : marks P l b ≤ marks P l c := by
  have hsub := List.take_sublist b (l.take c)
  rw [List.take_take, Nat.min_eq_left h] at hsub
  exact hsub.countP_le

theorem marks_lt (h : MarkAt P l b) (hc : b < c) : marks P l b < marks P l c := by
  have hle := marks_mono (P := P) (l := l) (Nat.succ_le_of_lt hc)
  rw [Nat.succ_eq_add_one, marks_succ_mark h] at hle
  omega

/-- There is at most one such place. -/
theorem Behind.unique (h : Behind P l b n c) (g : Behind P l b n k) : c = k := by
  obtain ⟨i, rfl, hi, hmi, hni⟩ := h
  obtain ⟨j, rfl, hj, hmj, hnj⟩ := g
  by_contra hne
  rcases Nat.lt_or_gt_of_ne hne with hlt | hlt
  · have := marks_succ_mark hmj
    have := marks_mono (P := P) (l := l) (b := i + 1) (c := j) (by omega)
    omega
  · have := marks_succ_mark hmi
    have := marks_mono (P := P) (l := l) (b := j + 1) (c := i) (by omega)
    omega

theorem InFront.unique (h : InFront P l b n c) (g : InFront P l b n k) : c = k := by
  obtain ⟨hc, hmc, hnc⟩ := h
  obtain ⟨hk, hmk, hnk⟩ := g
  by_contra hne
  rcases Nat.lt_or_gt_of_ne hne with hlt | hlt
  · have := marks_lt hmc hlt
    omega
  · have := marks_lt hmk hlt
    omega

/-- Between a place and the first mark in front of it there is none. -/
theorem InFront.between (h : InFront P l b 1 k) (hk : k < c) (hb : c < b) : ¬ MarkAt P l c := by
  intro hm
  obtain ⟨-, hmk, hcount⟩ := h
  have := marks_lt hmk hk
  have := marks_lt hm hb
  omega

theorem not_markAt_of_marks (h : marks P l b = 0) (hb : c < b) : ¬ MarkAt P l c := by
  intro hm
  have := marks_lt hm hb
  omega

/-- Between a place and the first mark behind it there is none. -/
theorem Behind.between (h : Behind P l b 1 (k + 1)) (hb : b ≤ c) (hk : c < k) : ¬ MarkAt P l c := by
  intro hm
  obtain ⟨j, hj, -, hmj, hcount⟩ := h
  obtain rfl : k = j := Nat.succ.inj hj
  rw [marks_succ_mark hmj] at hcount
  have := marks_lt hm hk
  have := marks_mono (P := P) (l := l) hb
  omega

theorem not_markAt_of_countP (h : l.countP P < marks P l b + 1) (hb : b ≤ c) : ¬ MarkAt P l c := by
  intro hm
  have htop := marks_mono (P := P) (l := l) (Nat.succ_le_of_lt (markAt_lt hm))
  have hlow := marks_mono (P := P) (l := l) hb
  rw [Nat.succ_eq_add_one, marks_succ_mark hm, marks_length] at htop
  omega

section Map

variable {f : β → α} {m : List β}

theorem markAt_map : MarkAt P (m.map f) b ↔ MarkAt (fun x => P (f x)) m b := by
  unfold MarkAt
  rw [List.getElem?_map]
  constructor
  · rintro ⟨a, ha, hP⟩
    obtain ⟨x, hx, rfl⟩ := Option.map_eq_some_iff.1 ha
    exact ⟨x, hx, hP⟩
  · rintro ⟨x, hx, hP⟩
    exact ⟨f x, by rw [hx]; rfl, hP⟩

end Map

end Ltfs.Lib.Marks
