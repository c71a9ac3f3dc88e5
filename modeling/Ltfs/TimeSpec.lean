import Mathlib.Tactic.IntervalCases
import Ltfs.Lib.Calendar
import Ltfs.TimeFormat

namespace Ltfs.TimeSpec

open TimeFormat Lib.Calendar Lib.Decimal

/-- Division that cuts off: the rest has the sign of what is divided. -/
theorem tdiv_tmod (n : Int) {b : Int} (hb : 0 < b) :
    n = b * n.tdiv b + n.tmod b ∧
      (0 ≤ n ∧ 0 ≤ n.tmod b ∧ n.tmod b < b ∨ n < 0 ∧ -b < n.tmod b ∧ n.tmod b ≤ 0) := by
  refine ⟨(Int.mul_tdiv_add_tmod n b).symm, ?_⟩
  by_cases hn : 0 ≤ n
  · exact .inl ⟨hn, Int.tmod_nonneg b hn, Int.tmod_lt_of_pos n hb⟩
  · have hnonneg : 0 ≤ (-n).tmod b := Int.tmod_nonneg b (by omega)
    have hlt := Int.tmod_lt_of_pos (-n) hb
    rw [Int.neg_tmod] at hnonneg hlt
    exact .inr ⟨by omega, by omega, by omega⟩

theorem takeUnit_eq (t : Int) {unit : Int} (h : 0 < unit) : takeUnit t unit = (t % unit, t / unit) := by
  obtain ⟨hsum, hsign⟩ := tdiv_tmod t h
  rw [takeUnit]
  split_ifs with hrest
  · have hsum' : t.tmod unit + unit * t.tdiv unit = t := by omega
    obtain ⟨hdiv, hmod⟩ := (Int.ediv_emod_unique h).2 ⟨hsum', hrest, Int.tmod_lt_of_pos t h⟩
    rw [hdiv, hmod]
  · have hshift : t.tmod unit + unit + unit * (t.tdiv unit - 1) = t := by
      rw [Int.mul_sub, Int.mul_one]
      omega
    obtain ⟨hdiv, hmod⟩ := (Int.ediv_emod_unique h).2 ⟨hshift, by omega, by omega⟩
    rw [hdiv, hmod]

theorem ltfsGetDaysOfYear_eq (y : Int) : ltfsGetDaysOfYear y = 365 + leapDay y := by
  have hzero : ∀ b : Int, y.tmod b = 0 ↔ y % b = 0 := fun b => by
    rw [← Int.dvd_iff_tmod_eq_zero, Int.dvd_iff_emod_eq_zero]
  have hcond : (y.tmod 400 = 0 ∨ y.tmod 100 ≠ 0 ∧ y.tmod 4 = 0) ↔ Leap y := by
    simp only [hzero, ne_eq, Leap]
  rw [ltfsGetDaysOfYear, leapDay]
  by_cases h : Leap y
  · rw [if_pos (hcond.2 h), if_pos h]
    rfl
  · rw [if_neg (fun hno => h (hcond.1 hno)), if_neg h]
    rfl

/-- The days from 2000-03-01 to the first of March `y` years later. -/
def march (y : Int) : Int := 365 * y + (y / 4 - y / 100 + y / 400)

theorem march_eq (y : Int) : march y + 11017 = newYear (y + 2000) + 59 + leapDay (y + 2000) := by
  have hleap := leapDay_cases (y + 2000)
  simp only [march, newYear]
  omega

section Years

variable {n q r c u d v e w : Int}

/-- From 2000-03-01 on, but for the last day of a period of 400 years. -/
theorem march_nonneg (hn : n = 146097 * q + r) (hr : 0 ≤ r ∧ r < 146097) (hc : r = 36524 * c + u)
    (hu : 0 ≤ u ∧ u < 36524) (hlast : c ≠ 4) (hd : u = 1461 * d + v) (hv : 0 ≤ v ∧ v < 1461)
    (he : v = 365 * e + w) (hw : 0 ≤ w ∧ w < 365) :
    n = march (q * 400 + c * 100 + d * 4 + e) + if e = 4 then w - 1 else w := by
  have hc' : 0 ≤ c ∧ c ≤ 3 := by omega
  have hd' : 0 ≤ d ∧ d ≤ 24 := by omega
  have he' : 0 ≤ e ∧ e ≤ 4 := by omega
  have hfour : (q * 400 + c * 100 + d * 4 + e) / 4 = q * 100 + c * 25 + d + if e = 4 then 1 else 0 := by
    split_ifs <;> omega
  have hhundred : (q * 400 + c * 100 + d * 4 + e) / 100 = q * 4 + c := by omega
  have hcycle : (q * 400 + c * 100 + d * 4 + e) / 400 = q := by omega
  rw [march, hfour, hhundred, hcycle]
  split_ifs <;> omega

/-- Before 2000-03-01, in the last four years of a period of 100 years. -/
theorem march_neg_century (hn : n = 146097 * q + r) (hr : -146097 < r ∧ r ≤ 0) (hc : r = 36524 * c + u)
    (hu : -36524 < u ∧ u ≤ 0) (hneg : c < 0) (hu' : -1461 < u) (he : u + 1 = 365 * e + w)
    (hw : 0 ≤ u + 1 ∧ 0 ≤ w ∧ w < 365 ∨ u + 1 < 0 ∧ -365 < w ∧ w ≤ 0) :
    n = march (q * 400 + c * 100 + e) + w := by
  have hc' : -4 ≤ c := by omega
  have he' : -3 ≤ e ∧ e ≤ 0 := by omega
  have hfour : (q * 400 + c * 100 + e) / 4 = q * 100 + c * 25 + if e = 0 then 0 else -1 := by
    split_ifs <;> omega
  have hhundred : (q * 400 + c * 100 + e) / 100 = q * 4 + c + if e = 0 then 0 else -1 := by
    split_ifs <;> omega
  have hcycle : (q * 400 + c * 100 + e) / 400 = q - 1 := by omega
  rw [march, hfour, hhundred, hcycle]
  split_ifs <;> omega

/-- Before 2000-03-01, elsewhere. -/
theorem march_neg (hn : n = 146097 * q + r) (hr : -146097 < r ∧ r ≤ 0) (hc : r = 36524 * c + u)
    (hu : -36524 < u ∧ u ≤ 0) (hd : u = 1461 * d + v) (hv : -1461 < v ∧ v ≤ 0) (hno : c = 0 ∨ d < 0)
    (he : v = 365 * e + w) (hw : -365 < w ∧ w ≤ 0) :
    n = march (q * 400 + c * 100 + d * 4 + e) + if e < 0 then w + 1 else w := by
  have hc' : -3 ≤ c ∧ c ≤ 0 := by omega
  have hd' : -24 ≤ d ∧ d ≤ 0 := by omega
  have he' : -4 ≤ e ∧ e ≤ 0 := by omega
  have hfour : (q * 400 + c * 100 + d * 4 + e) / 4 = q * 100 + c * 25 + d + if e < 0 then -1 else 0 := by
    split_ifs <;> omega
  have hhundred : (q * 400 + c * 100 + d * 4 + e) / 100 = q * 4 + c + if d < 0 ∨ e < 0 then -1 else 0 := by
    split_ifs <;> omega
  have hcycle : (q * 400 + c * 100 + d * 4 + e) / 400 = q + if c < 0 ∨ d < 0 ∨ e < 0 then -1 else 0 := by
    split_ifs <;> omega
  rw [march, hfour, hhundred, hcycle]
  split_ifs <;> omega

end Years

theorem yearsSince_nonneg {n : Int} (hn : 0 ≤ n) :
    n = march (yearsSince n).1 + (yearsSince n).2 ∧ -1 ≤ (yearsSince n).2 ∧ (yearsSince n).2 ≤ 364 := by
  obtain ⟨hq, hr⟩ := tdiv_tmod n (b := 146097) (by decide)
  have hr' : 0 ≤ n.tmod 146097 ∧ n.tmod 146097 < 146097 := by omega
  obtain ⟨hc, hu⟩ := tdiv_tmod (n.tmod 146097) (b := 36524) (by decide)
  have hu' : 0 ≤ (n.tmod 146097).tmod 36524 ∧ (n.tmod 146097).tmod 36524 < 36524 := by omega
  have hcpos : ¬ (n.tmod 146097).tdiv 36524 < 0 := by omega
  by_cases hlast : (n.tmod 146097).tdiv 36524 = 4
  · have hzero : (n.tmod 146097).tmod 36524 = 0 := by omega
    have heq : yearsSince n = (n.tdiv 146097 * 400 + 400, -1) := by
      have hdiv : Int.tdiv (0 - 1) 1461 = 0 := by decide
      have hmod : Int.tmod (0 - 1) 1461 = -1 := by decide
      have hdiv' : Int.tdiv (-1) 365 = 0 := by decide
      have hmod' : Int.tmod (-1) 365 = -1 := by decide
      simp only [yearsSince, hlast, hzero, if_true, hdiv, hmod]
      simp [hdiv', hmod']
    rw [heq]
    simp only [march]
    omega
  · obtain ⟨hd, hv⟩ := tdiv_tmod ((n.tmod 146097).tmod 36524) (b := 1461) (by decide)
    have hv' : 0 ≤ ((n.tmod 146097).tmod 36524).tmod 1461 ∧
        ((n.tmod 146097).tmod 36524).tmod 1461 < 1461 := by omega
    obtain ⟨he, hw⟩ := tdiv_tmod (((n.tmod 146097).tmod 36524).tmod 1461) (b := 365) (by decide)
    have hw' : 0 ≤ (((n.tmod 146097).tmod 36524).tmod 1461).tmod 365 ∧
        (((n.tmod 146097).tmod 36524).tmod 1461).tmod 365 < 365 := by omega
    have hepos : ¬ (((n.tmod 146097).tmod 36524).tmod 1461).tdiv 365 < 0 := by omega
    have hmarch := march_nonneg hq hr' hc hu' hlast hd hv' he hw'
    simp only [yearsSince, hlast, hcpos, hepos, if_false, false_and]
    refine ⟨hmarch, ?_⟩
    split_ifs <;> omega

theorem yearsSince_neg {n : Int} (hn : n < 0) :
    n = march (yearsSince n).1 + (yearsSince n).2 ∧ -364 ≤ (yearsSince n).2 ∧ (yearsSince n).2 ≤ 1 := by
  obtain ⟨hq, hr⟩ := tdiv_tmod n (b := 146097) (by decide)
  have hr' : -146097 < n.tmod 146097 ∧ n.tmod 146097 ≤ 0 := by omega
  obtain ⟨hc, hu⟩ := tdiv_tmod (n.tmod 146097) (b := 36524) (by decide)
  have hu' : -36524 < (n.tmod 146097).tmod 36524 ∧ (n.tmod 146097).tmod 36524 ≤ 0 := by omega
  have hlast : (n.tmod 146097).tdiv 36524 ≠ 4 := by omega
  obtain ⟨hd, hv⟩ := tdiv_tmod ((n.tmod 146097).tmod 36524) (b := 1461) (by decide)
  have hv' : -1461 < ((n.tmod 146097).tmod 36524).tmod 1461 ∧
      ((n.tmod 146097).tmod 36524).tmod 1461 ≤ 0 := by omega
  by_cases hcentury : (n.tmod 146097).tdiv 36524 < 0 ∧ ((n.tmod 146097).tmod 36524).tdiv 1461 = 0
  · have hsame : ((n.tmod 146097).tmod 36524).tmod 1461 = (n.tmod 146097).tmod 36524 := by omega
    obtain ⟨he, hw⟩ := tdiv_tmod ((n.tmod 146097).tmod 36524 + 1) (b := 365) (by decide)
    have hmarch := march_neg_century hq hr' hc hu' hcentury.1 (by omega) he hw
    have hfour : ((n.tmod 146097).tmod 36524 + 1).tdiv 365 ≠ 4 := by omega
    simp only [yearsSince, hlast, hcentury, hsame, hfour, if_false, if_true, and_self, not_true, and_false]
    refine ⟨?_, ?_⟩
    · simpa using hmarch
    · omega
  · obtain ⟨he, hw⟩ := tdiv_tmod (((n.tmod 146097).tmod 36524).tmod 1461) (b := 365) (by decide)
    have hw' : -365 < (((n.tmod 146097).tmod 36524).tmod 1461).tmod 365 ∧
        (((n.tmod 146097).tmod 36524).tmod 1461).tmod 365 ≤ 0 := by omega
    have hno : (n.tmod 146097).tdiv 36524 = 0 ∨ ((n.tmod 146097).tmod 36524).tdiv 1461 < 0 := by omega
    have hfour : (((n.tmod 146097).tmod 36524).tmod 1461).tdiv 365 ≠ 4 := by omega
    have hmarch := march_neg hq hr' hc hu' hd hv' hno he hw'
    simp only [yearsSince, hlast, hcentury, hfour, if_false, not_false_eq_true, and_true]
    refine ⟨hmarch, ?_⟩
    split_ifs <;> omega

/-- The day of the year lies in the year, and both tell the day. -/
theorem yearAndDay_yearsSince (n : Int) :
    let year := yearAndDay (yearsSince n).1 (yearsSince n).2
    newYear (year.1 + 2000) + year.2 = n + 11017 ∧ 0 ≤ year.2 ∧ year.2 < 365 + leapDay (year.1 + 2000) := by
  obtain ⟨hn, hlow, hhigh⟩ : n = march (yearsSince n).1 + (yearsSince n).2 ∧
      -364 ≤ (yearsSince n).2 ∧ (yearsSince n).2 ≤ 364 := by
    by_cases hn : 0 ≤ n
    · obtain ⟨h, hlow, hhigh⟩ := yearsSince_nonneg hn
      exact ⟨h, by omega, hhigh⟩
    · obtain ⟨h, hlow, hhigh⟩ := yearsSince_neg (not_le.1 hn)
      exact ⟨h, hlow, by omega⟩
  generalize (yearsSince n).1 = y at *
  generalize (yearsSince n).2 = t at *
  have hmarch := march_eq y
  have hleap := leapDay_cases (y + 2000)
  have hnext := newYear_succ (y + 2000)
  have hleap' := leapDay_cases (y - 1 + 2000)
  have hlast := newYear_succ (y - 1 + 2000)
  rw [show y - 1 + 2000 + 1 = y + 2000 by omega] at hlast
  have hnextLeap := leapDay_cases (y + 1 + 2000)
  rw [show y + 2000 + 1 = y + 1 + 2000 by omega] at hnext
  simp only [yearAndDay, ltfsGetDaysOfYear_eq]
  split_ifs <;> dsimp only <;> omega

theorem monthLoop_spec {months : List Int} {nMday : Int} (hlow : 0 ≤ nMday) (hhigh : nMday < months.sum) (i : Int) :
    ∃ (month : Nat) (mday : Int), monthLoop months nMday i = (mday, some (i + month)) ∧ month < months.length ∧
      nMday = (months.take month).sum + mday ∧ 0 ≤ mday ∧ ∃ days, months[month]? = some days ∧ mday < days := by
  induction months generalizing nMday i with
  | nil =>
    rw [List.sum_nil] at hhigh
    omega
  | cons days months ih =>
    rw [List.sum_cons] at hhigh
    by_cases hfits : nMday < days
    · refine ⟨0, nMday, ?_, by simp, by simp, hlow, days, rfl, hfits⟩
      rw [monthLoop, if_pos hfits]
      simp
    · have hrest : 0 ≤ nMday - days := by omega
      obtain ⟨month, mday, hloop, hlen, hsum, hpos, days', hget, hlt⟩ := ih hrest (by omega) (i + 1)
      refine ⟨month + 1, mday, ?_, by simpa using hlen, ?_, hpos, days', hget, hlt⟩
      · rw [monthLoop, if_neg hfits, hloop]
        push_cast
        rw [Int.add_assoc, Int.add_comm 1]
      · rw [List.take_succ_cons, List.sum_cons]
        omega

theorem daysOfMonths_eq (y : Int) :
    daysOfMonths y = [31, 28 + leapDay y, 31, 30, 31, 30, 31, 31, 30, 31, 30, 31] := by
  have hfebruary : (if ltfsGetDaysOfYear y = 365 then 28 else 29) = 28 + leapDay y := by
    have hleap := leapDay_cases y
    rw [ltfsGetDaysOfYear_eq]
    split_ifs <;> omega
  rw [daysOfMonths, hfebruary]

theorem ltfsGetMdayFromYday_spec {y yday : Int} (hlow : 0 ≤ yday) (hhigh : yday < 365 + leapDay y) :
    ∃ (month : Nat) (mday : Int), ltfsGetMdayFromYday y yday = (mday, (month : Int)) ∧ month < 12 ∧
      yday + 1 = ((daysOfMonths y).take month).sum + mday ∧ 1 ≤ mday ∧ mday ≤ 31 ∧
      ∃ days, (daysOfMonths y)[month]? = some days ∧ mday ≤ days := by
  have hsum : (daysOfMonths y).sum = 365 + leapDay y := by
    rw [daysOfMonths_eq]
    simp only [List.sum_cons, List.sum_nil]
    omega
  have hmax : ∀ days ∈ daysOfMonths y, days ≤ 31 := by
    have hleap := leapDay_cases y
    rw [daysOfMonths_eq]
    intro days hdays
    simp only [List.mem_cons, List.not_mem_nil, or_false] at hdays
    omega
  obtain ⟨month, mday, hloop, hlen, hday, hpos, days, hget, hlt⟩ := monthLoop_spec hlow (hsum ▸ hhigh) 0
  have hdays := hmax days (List.mem_of_getElem? hget)
  refine ⟨month, mday + 1, ?_, ?_, by omega, by omega, by omega, days, hget, by omega⟩
  · rw [ltfsGetMdayFromYday, hloop]
    simp only [Int.zero_add]
    rw [if_neg (by omega)]
  · rwa [daysOfMonths_eq] at hlen

/-- The years of `ltfs_timegm` begin in March. -/
theorem timegm_years {y w : Int} (hw : w = y + 1900) (hlow : -1 ≤ w) :
    (1461 * (y + 6700)).tdiv 4 - (3 * (y + 6800).tdiv 100).tdiv 4 =
      365 * w + (w / 4 - w / 100 + w / 400) + 1753164 := by
  have hdiv : ∀ a b : Int, 0 ≤ a → a.tdiv b = a / b := fun a b h => Int.tdiv_eq_ediv_of_nonneg h
  have hfour : 1461 * (y + 6700) / 4 = 365 * w + w / 4 + 1753200 := by omega
  have hhundred : (y + 6800) / 100 = w / 100 + 49 := by omega
  have hcycle : w / 400 = w / 100 / 4 := by omega
  have hthree : 3 * (w / 100 + 49) / 4 = w / 100 - w / 100 / 4 + 36 := by omega
  rw [hdiv _ 4 (by omega), hdiv _ 100 (by omega), hdiv _ 4 (by omega), hfour, hhundred, hthree, hcycle]
  omega

theorem timegm_months (y : Int) {month : Nat} (hmonth : month < 12) :
    (367 * ((month : Int) - 1 - 12 * (if month < 2 then -1 else 0))).tdiv 12 =
      ((daysOfMonths y).take month).sum + if month < 2 then 336 else -29 - leapDay y := by
  rw [daysOfMonths_eq]
  interval_cases month
  all_goals simp [List.sum_cons]
  all_goals try omega

/-- The seconds of a date that the calendar has. -/
theorem ltfsTimegm_eq (t : Tm) {month : Nat} (hyear : 0 ≤ t.tmYear + 1900) (hmon : t.tmMon = month)
    (hmonth : month < 12) :
    ltfsTimegm t = 86400 * (newYear (t.tmYear + 1900) +
        (((daysOfMonths (t.tmYear + 1900)).take month).sum + t.tmMday - 1)) +
      3600 * t.tmHour + 60 * t.tmMin + t.tmSec := by
  have hleap := leapDay_cases (t.tmYear + 1900)
  have htmp : ((month : Int) - 13).tdiv 12 = if month < 2 then -1 else 0 := by
    interval_cases month <;> decide
  have hmonths := timegm_months (t.tmYear + 1900) hmonth
  simp only [ltfsTimegm, hmon, htmp, hmonths, newYear]
  by_cases hspring : month < 2
  · have hyears := timegm_years (y := t.tmYear - 1) (w := t.tmYear + 1900 - 1) (by omega) (by omega)
    rw [show t.tmYear - 1 + 6700 = t.tmYear + 6700 + -1 by omega,
      show t.tmYear - 1 + 6800 = t.tmYear + 6800 + -1 by omega] at hyears
    simp only [if_pos hspring]
    omega
  · have hyears := timegm_years (y := t.tmYear) rfl (by omega)
    simp only [if_neg hspring, Int.add_zero]
    omega

theorem year_range {y yday timep : Int} (hday : newYear y + yday = timep / 60 / 60 / 24)
    (hpos : 0 ≤ yday) (hlt : yday < 365 + leapDay y) (hlow : ltfsTimeTMin ≤ timep) (hhigh : timep ≤ ltfsTimeTMax) :
    0 ≤ y ∧ y < 10000 := by
  have hsucc := newYear_succ y
  have hfirst : newYear 0 = -719528 := by decide
  have hlast : newYear 10000 = 2932897 := by decide
  simp only [ltfsTimeTMin, ltfsTimeTMax] at hlow hhigh
  refine ⟨?_, ?_⟩
  · by_contra hneg
    have hmono : newYear (y + 1) ≤ newYear 0 := newYear_monotone (by omega)
    omega
  · by_contra hbig
    have hmono : newYear 10000 ≤ newYear y := newYear_monotone (by omega)
    omega

/-- The fields of a time: its day, as day of a year and as day of a month, and the time of that day. -/
theorem ltfsGmtime_fields (timep : Int) :
    ∃ (y yday : Int) (mon : Nat) (mday : Int), newYear y + yday = timep / 60 / 60 / 24 ∧
      0 ≤ yday ∧ yday < 365 + leapDay y ∧ mon < 12 ∧ yday + 1 = ((daysOfMonths y).take mon).sum + mday ∧
      1 ≤ mday ∧ mday ≤ 31 ∧ (∃ days, (daysOfMonths y)[mon]? = some days ∧ mday ≤ days) ∧
      ltfsGmtime timep = ⟨timep % 60, timep / 60 % 60, timep / 60 / 60 % 24, mday, mon, y - 1900,
        weekDay (timep / 60 / 60 / 24 - 11017), yday⟩ := by
  obtain ⟨hday, hpos, hlt⟩ := yearAndDay_yearsSince (timep / 60 / 60 / 24 - 11017)
  generalize hyear : yearAndDay (yearsSince (timep / 60 / 60 / 24 - 11017)).1
    (yearsSince (timep / 60 / 60 / 24 - 11017)).2 = year at hday hpos hlt
  obtain ⟨mon, mday, hmday, hmon, hsum, hone, hmax, hdays⟩ := ltfsGetMdayFromYday_spec hpos hlt
  refine ⟨year.1 + 2000, year.2, mon, mday, by omega, hpos, hlt, hmon, hsum, hone, hmax, hdays, ?_⟩
  simp only [ltfsGmtime, takeUnit_eq _ (show (0 : Int) < 60 by decide), takeUnit_eq _ (show (0 : Int) < 24 by decide),
    hyear, hmday]

/-- In the range of the times, every field has room in the text, and the fields tell the time. -/
theorem ltfsGmtime_spec {timep : Int} (hlow : ltfsTimeTMin ≤ timep) (hhigh : timep ≤ ltfsTimeTMax) :
    ∃ year mon mday hour min sec : Nat, year < 10000 ∧ mon < 12 ∧ mday < 32 ∧ hour < 24 ∧ min < 60 ∧ sec < 60 ∧
      (ltfsGmtime timep).tmYear + 1900 = year ∧ (ltfsGmtime timep).tmMon = mon ∧
      (ltfsGmtime timep).tmMday = mday ∧ (ltfsGmtime timep).tmHour = hour ∧ (ltfsGmtime timep).tmMin = min ∧
      (ltfsGmtime timep).tmSec = sec ∧
      ltfsTimegm ⟨sec, min, hour, mday, mon, (year : Int) - 1900, 0, 0⟩ = timep := by
  obtain ⟨y, yday, mon, mday, hday, hpos, hlt, hmon, hsum, hone, hmax, -, hgm⟩ := ltfsGmtime_fields timep
  have hrange := year_range hday hpos hlt hlow hhigh
  rw [hgm]
  refine ⟨y.toNat, mon, mday.toNat, (timep / 60 / 60 % 24).toNat, (timep / 60 % 60).toNat, (timep % 60).toNat, ?_⟩
  have hyear : (y.toNat : Int) = y := by omega
  have htimegm := ltfsTimegm_eq ⟨timep % 60, timep / 60 % 60, timep / 60 / 60 % 24, mday, mon, y - 1900, 0, 0⟩
    (by dsimp only; omega) rfl hmon
  dsimp only at htimegm ⊢
  rw [show y - 1900 + 1900 = y by omega, ← hsum] at htimegm
  rw [hyear, Int.toNat_of_nonneg (a := mday) (by omega), Int.toNat_of_nonneg (a := timep / 60 / 60 % 24) (by omega),
    Int.toNat_of_nonneg (a := timep / 60 % 60) (by omega), Int.toNat_of_nonneg (a := timep % 60) (by omega), htimegm]
  omega

/-- What is written of natural numbers that have room is read again. -/
theorem xmlParseTime_print {year mon mday hour min sec nsec : Nat} (hyear : year < 10000) (hmon : mon < 12)
    (hmday : mday < 32) (hhour : hour < 24) (hmin : min < 60) (hsec : sec < 60) (hnsec : nsec < 1000000000) :
    xmlParseTime (printInt 4 (year : Int) ++ '-' :: (printInt 2 ((mon : Int) + 1) ++ '-' :: (printInt 2 (mday : Int) ++
      'T' :: (printInt 2 (hour : Int) ++ ':' :: (printInt 2 (min : Int) ++ ':' :: (printInt 2 (sec : Int) ++
      '.' :: (printInt 9 (nsec : Int) ++ ['Z']))))))) =
      some (normalizeLtfsTime ⟨ltfsTimegm ⟨sec, min, hour, mday, mon, (year : Int) - 1900, 0, 0⟩, nsec⟩) := by
  have hfour : (printInt 4 (year : Int)).length = 4 := length_padded (by decide) (by omega)
  rw [show (mon : Int) + 1 = ((mon + 1 : Nat) : Int) from rfl]
  simp only [xmlParseTime, Option.bind_eq_bind]
  rw [scanInt_printInt_wide (by decide) (by omega) (by rw [List.length_append]; omega) rfl]
  simp only [Option.bind_some, scanChar_cons]
  rw [scanInt_printInt (by decide) (by omega)]
  simp only [Option.bind_some, scanChar_cons]
  rw [scanInt_printInt (by decide) (by omega)]
  simp only [Option.bind_some, scanChar_cons]
  rw [scanInt_printInt (by decide) (by omega)]
  simp only [Option.bind_some, scanChar_cons]
  rw [scanInt_printInt (by decide) (by omega)]
  simp only [Option.bind_some, scanChar_cons]
  rw [scanInt_printInt (by decide) (by omega)]
  simp only [Option.bind_some, scanChar_cons]
  rw [scanInt_printInt (by decide) (by omega)]
  rw [show ((mon + 1 : Nat) : Int) - 1 = mon by omega]
  rfl

theorem normalizeLtfsTime_range {t : LtfsTimespec} (hlow : 0 ≤ t.tvNsec) (hhigh : t.tvNsec ≤ 999999999) :
    ltfsTimeTMin ≤ (normalizeLtfsTime t).2.tvSec ∧ (normalizeLtfsTime t).2.tvSec ≤ ltfsTimeTMax ∧
      0 ≤ (normalizeLtfsTime t).2.tvNsec ∧ (normalizeLtfsTime t).2.tvNsec < 1000000000 := by
  by_cases hlate : ltfsTimeTMax < t.tvSec
  · rw [normalizeLtfsTime, if_pos hlate]
    exact ⟨by decide, by decide, by decide, by decide⟩
  · by_cases hearly : t.tvSec < ltfsTimeTMin
    · rw [normalizeLtfsTime, if_neg hlate, if_pos hearly]
      exact ⟨by decide, by decide, by decide, by decide⟩
    · rw [normalizeLtfsTime, if_neg hlate, if_neg hearly]
      exact ⟨not_lt.1 hearly, not_lt.1 hlate, hlow, Int.lt_add_one_iff.2 hhigh⟩

theorem normalizeLtfsTime_inRange {t : LtfsTimespec} (hlow : ltfsTimeTMin ≤ t.tvSec) (hhigh : t.tvSec ≤ ltfsTimeTMax) :
    normalizeLtfsTime t = (.inRange, t) := by
  rw [normalizeLtfsTime, if_neg (by omega), if_neg (by omega)]

/-- A time that is written to an index is read from it as the time that it is normalized to. -/
theorem xmlParseTime_xmlFormatTime (t : LtfsTimespec) (hlow : 0 ≤ t.tvNsec) (hhigh : t.tvNsec ≤ 999999999) :
    xmlParseTime (xmlFormatTime t).2 = some (.inRange, (normalizeLtfsTime t).2) := by
  obtain ⟨hmin, hmax, hzero, hnsec⟩ := normalizeLtfsTime_range hlow hhigh
  obtain ⟨year, mon, mday, hour, min, sec, hy, hm, hd, hh, hi, hs, ey, em, ed, eh, ei, es, htime⟩ :=
    ltfsGmtime_spec hmin hmax
  obtain ⟨nsec, hn⟩ := Int.eq_ofNat_of_zero_le hzero
  have hroom : nsec < 1000000000 := by omega
  have hparse := xmlParseTime_print hy hm hd hh hi hs hroom
  have htext : xmlParseTime (xmlFormatTime t).2 =
      some (normalizeLtfsTime ⟨(normalizeLtfsTime t).2.tvSec, (normalizeLtfsTime t).2.tvNsec⟩) := by
    simp only [xmlFormatTime]
    rw [ey, em, ed, eh, ei, es, hn, hparse, htime]
  rw [htext, normalizeLtfsTime_inRange hmin hmax]

/-- A second before the year 0: the time is moved to its beginning. -/
theorem xmlParseTime_xmlFormatTime_early :
    xmlParseTime (xmlFormatTime ⟨-62167219201, 5⟩).2 = some (.inRange, ⟨-62167219200, 0⟩) :=
  xmlParseTime_xmlFormatTime ⟨-62167219201, 5⟩ (by decide) (by decide)

end Ltfs.TimeSpec
