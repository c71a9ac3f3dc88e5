import Mathlib

namespace Ltfs.Lib.Calendar

/-- A leap year of the Gregorian calendar, which is taken to hold for all years. -/
def Leap (y : Int) : Prop := y % 400 = 0 ∨ y % 100 ≠ 0 ∧ y % 4 = 0

instance : DecidablePred Leap := fun y => inferInstanceAs (Decidable (y % 400 = 0 ∨ y % 100 ≠ 0 ∧ y % 4 = 0))

def leapDay (y : Int) : Int := if Leap y then 1 else 0

/-- The days from the beginning of 1970 to that of a year. -/
def newYear (y : Int) : Int := 365 * (y - 1970) + ((y - 1) / 4 - (y - 1) / 100 + (y - 1) / 400) - 477

theorem leapDay_cases (y : Int) :
    leapDay y = 1 ∧ (y % 400 = 0 ∨ y % 100 ≠ 0 ∧ y % 4 = 0) ∨
      leapDay y = 0 ∧ y % 400 ≠ 0 ∧ (y % 100 = 0 ∨ y % 4 ≠ 0) := by
  by_cases h : Leap y
  · exact .inl ⟨if_pos h, h⟩
  · refine .inr ⟨if_neg h, ?_⟩
    simp only [Leap] at h
    omega

theorem newYear_succ (y : Int) : newYear (y + 1) = newYear y + 365 + leapDay y := by
  have hleap := leapDay_cases y
  simp only [newYear]
  omega

theorem newYear_monotone : Monotone newYear := by
  apply monotone_int_of_le_succ
  intro y
  have hsucc := newYear_succ y
  have hleap := leapDay_cases y
  omega

/-- The lengths of the months. -/
def monthDays (y : Int) : List Int :=
  [31, 28 + leapDay y, 31, 30, 31, 30, 31, 31, 30, 31, 30, 31]

theorem monthDays_pos (y : Int) : ∀ days ∈ monthDays y, 0 < days := by
  have hleap := leapDay_cases y
  intro days hdays
  simp only [monthDays, List.mem_cons, List.not_mem_nil, or_false] at hdays
  omega

theorem monthDays_sum (y : Int) : (monthDays y).sum = 365 + leapDay y := by
  simp only [monthDays, List.sum_cons, List.sum_nil]
  omega

/-- A day of the calendar, with months counted from 0. -/
structure IsDate (y : Int) (month : Nat) (mday : Int) : Prop where
  pos : 1 ≤ mday
  le : ∃ days, (monthDays y)[month]? = some days ∧ mday ≤ days

/-- The day of the year, counted from 0. -/
def yearDay (y : Int) (month : Nat) (mday : Int) : Int := ((monthDays y).take month).sum + mday - 1

/-- The days from the beginning of 1970 to a date. -/
def dayNumber (y : Int) (month : Nat) (mday : Int) : Int := newYear y + yearDay y month mday

theorem sum_nonneg {l : List Int} (h : ∀ d ∈ l, 0 < d) : 0 ≤ l.sum := by
  induction l with
  | nil => exact Int.le_refl 0
  | cons d l ih =>
    have hd := h d List.mem_cons_self
    have hl := ih fun d' hd' => h d' (List.mem_cons_of_mem _ hd')
    rw [List.sum_cons]
    omega

/-- A month ends before any later one begins. -/
theorem sum_take_lt {l : List Int} (h : ∀ d ∈ l, 0 < d) {m n : Nat} (hmn : m < n) {days : Int}
    (hget : l[m]? = some days) : (l.take m).sum + days ≤ (l.take n).sum := by
  obtain ⟨k, rfl⟩ : ∃ k, n = m + 1 + k := ⟨n - (m + 1), by omega⟩
  have hrest : 0 ≤ ((l.drop (m + 1)).take k).sum :=
    sum_nonneg fun d hd => h d (List.mem_of_mem_drop (List.mem_of_mem_take hd))
  rw [List.take_add, List.sum_append, List.take_add_one, hget, List.sum_append]
  simp only [Option.toList_some, List.sum_singleton]
  omega

theorem IsDate.yearDay_bounds {y mday : Int} {month : Nat} (h : IsDate y month mday) :
    0 ≤ yearDay y month mday ∧ yearDay y month mday < 365 + leapDay y := by
  obtain ⟨days, hget, hle⟩ := h.le
  have hlt : month < (monthDays y).length := (List.getElem?_eq_some_iff.1 hget).1
  have hsum := sum_take_lt (monthDays_pos y) hlt hget
  rw [List.take_length, monthDays_sum] at hsum
  have hpos : 0 ≤ ((monthDays y).take month).sum :=
    sum_nonneg fun d hd => monthDays_pos y d (List.mem_of_mem_take hd)
  have hone := h.pos
  rw [yearDay]
  omega

/-- Two years have no day in common. -/
theorem year_unique {y y' d d' : Int} (h : newYear y + d = newYear y' + d') (hd : 0 ≤ d ∧ d < 365 + leapDay y)
    (hd' : 0 ≤ d' ∧ d' < 365 + leapDay y') : y = y' := by
  have hsucc := newYear_succ y
  have hsucc' := newYear_succ y'
  obtain hlt | heq | hgt := lt_trichotomy y y'
  · have hmono : newYear (y + 1) ≤ newYear y' := newYear_monotone (by omega)
    omega
  · exact heq
  · have hmono : newYear (y' + 1) ≤ newYear y := newYear_monotone (by omega)
    omega

/-- A day has one date. -/
theorem dayNumber_injective {y y' mday mday' : Int} {month month' : Nat} (h : IsDate y month mday)
    (h' : IsDate y' month' mday') (heq : dayNumber y month mday = dayNumber y' month' mday') :
    y = y' ∧ month = month' ∧ mday = mday' := by
  obtain rfl := year_unique heq h.yearDay_bounds h'.yearDay_bounds
  have hday : yearDay y month mday = yearDay y month' mday' := by
    rw [dayNumber, dayNumber] at heq
    omega
  rw [yearDay, yearDay] at hday
  obtain ⟨days, hget, hle⟩ := h.le
  obtain ⟨days', hget', hle'⟩ := h'.le
  have hone := h.pos
  have hone' := h'.pos
  obtain hlt | rfl | hgt := lt_trichotomy month month'
  · have := sum_take_lt (monthDays_pos y) hlt hget
    omega
  · exact ⟨rfl, rfl, by omega⟩
  · have := sum_take_lt (monthDays_pos y) hgt hget'
    omega

end Ltfs.Lib.Calendar
