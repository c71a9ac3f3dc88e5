import Ltfs.TimeSpec

namespace Ltfs.CalendarSpec

open TimeFormat TimeSpec Lib.Calendar

variable {t : Int} {tm : Tm}

/-- A date and a time of day that the calendar has. -/
structure Valid (tm : Tm) : Prop where
  mon : 0 ≤ tm.tmMon
  date : IsDate (tm.tmYear + 1900) tm.tmMon.toNat tm.tmMday
  hour : 0 ≤ tm.tmHour ∧ tm.tmHour < 24
  min : 0 ≤ tm.tmMin ∧ tm.tmMin < 60
  sec : 0 ≤ tm.tmSec ∧ tm.tmSec < 60

/-- The days from the beginning of 1970. -/
def day (tm : Tm) : Int := dayNumber (tm.tmYear + 1900) tm.tmMon.toNat tm.tmMday

/-- The seconds from the beginning of 1970. -/
def instant (tm : Tm) : Int := 86400 * day tm + 3600 * tm.tmHour + 60 * tm.tmMin + tm.tmSec

/-- With the day of the week and of the year. The first day of 1970 was a Thursday. -/
def complete (tm : Tm) : Tm :=
  { tm with
    tmWday := (day tm + 4) % 7
    tmYday := yearDay (tm.tmYear + 1900) tm.tmMon.toNat tm.tmMday }

/-- The fields of a time by the calendar. -/
structure Fields (t : Int) (tm : Tm) : Prop where
  valid : Valid tm
  instant : instant tm = t
  complete : complete tm = tm

theorem daysOfMonths_monthDays (y : Int) : daysOfMonths y = monthDays y := daysOfMonths_eq y

theorem weekDay_eq (n : Int) : weekDay n = (n + 3) % 7 := by
  obtain ⟨hsum, hsign⟩ := tdiv_tmod (n + 3) (show (0 : Int) < 7 by decide)
  rw [weekDay]
  split_ifs <;> omega

theorem ltfsGmtime_gregorian (t : Int) : Fields t (ltfsGmtime t) := by
  obtain ⟨y, yday, mon, mday, hday, hpos, hlt, hmon, hsum, hone, hmax, hdays, hgm⟩ := ltfsGmtime_fields t
  rw [daysOfMonths_monthDays] at hsum hdays
  have hyday : yearDay y mon mday = yday := by
    rw [yearDay]
    omega
  have hyear : y - 1900 + 1900 = y := by omega
  have hnumber : dayNumber y mon mday = t / 60 / 60 / 24 := by
    rw [dayNumber, hyday, hday]
  rw [hgm]
  refine ⟨⟨Int.natCast_nonneg mon, ?_, ?_, ?_, ?_⟩, ?_, ?_⟩
  · simp only [hyear, Int.toNat_natCast]
    exact ⟨hone, hdays⟩
  · dsimp only
    omega
  · dsimp only
    omega
  · dsimp only
    omega
  · simp only [CalendarSpec.instant, day, hyear, Int.toNat_natCast, hnumber]
    omega
  · simp only [CalendarSpec.complete, day, hyear, Int.toNat_natCast, hnumber, hyday, weekDay_eq]
    congr 1
    omega

theorem ltfsTimegm_instant (h : Valid tm) (hyear : 0 ≤ tm.tmYear + 1900) : ltfsTimegm tm = instant tm := by
  obtain ⟨days, hget, -⟩ := h.date.le
  have hmonth : tm.tmMon.toNat < 12 := (List.getElem?_eq_some_iff.1 hget).1
  have hmon := h.mon
  have htimegm := ltfsTimegm_eq tm hyear (show tm.tmMon = tm.tmMon.toNat by omega) hmonth
  rw [htimegm, daysOfMonths_monthDays]
  rfl

/-- Two valid dates and times of day are the same if they are the same instant. -/
theorem instant_injective {tm' : Tm} (h : Valid tm) (h' : Valid tm') (heq : instant tm = instant tm') :
    complete tm = complete tm' := by
  have hhour := h.hour
  have hhour' := h'.hour
  have hmin := h.min
  have hmin' := h'.min
  have hsec := h.sec
  have hsec' := h'.sec
  rw [instant, instant] at heq
  have hday : day tm = day tm' := by omega
  obtain ⟨hy, hm, hd⟩ := dayNumber_injective h.date h'.date hday
  have hmon := h.mon
  have hmon' := h'.mon
  have hh : tm.tmHour = tm'.tmHour := by omega
  have hi : tm.tmMin = tm'.tmMin := by omega
  have hs : tm.tmSec = tm'.tmSec := by omega
  have hn : tm.tmMon = tm'.tmMon := by omega
  have hyear : tm.tmYear = tm'.tmYear := by omega
  simp only [complete, hday, hd, hh, hi, hs, hn, hyear]

theorem ltfsGmtime_ltfsTimegm (h : Valid tm) (hyear : 0 ≤ tm.tmYear + 1900) :
    ltfsGmtime (ltfsTimegm tm) = complete tm := by
  have hfields := ltfsGmtime_gregorian (ltfsTimegm tm)
  rw [← hfields.complete]
  exact instant_injective hfields.valid h (hfields.instant.trans (ltfsTimegm_instant h hyear))

/-- Times and dates correspond: the fields of a time are those of the calendar and tell the time again, and a date
and time of day of the years 0 to 9999 is found again from its time. -/
theorem gmtime_timegm_inverse :
    (∀ t, ltfsTimeTMin ≤ t → t ≤ ltfsTimeTMax →
      Fields t (ltfsGmtime t) ∧ ltfsTimegm (ltfsGmtime t) = t) ∧
    ∀ tm, Valid tm → 0 ≤ tm.tmYear + 1900 → tm.tmYear + 1900 ≤ 9999 →
      ltfsGmtime (ltfsTimegm tm) = complete tm := by
  refine ⟨fun t hlow hhigh => ?_, fun tm hvalid hyear _ => ltfsGmtime_ltfsTimegm hvalid hyear⟩
  have hfields := ltfsGmtime_gregorian t
  refine ⟨hfields, ?_⟩
  obtain ⟨year, mon, mday, hour, min, sec, -, -, -, -, -, -, hyear, -⟩ := ltfsGmtime_spec hlow hhigh
  rw [ltfsTimegm_instant hfields.valid (by omega), hfields.instant]

/-- The 29th of February of 2000, a Tuesday, at noon. -/
def noon : Tm := ⟨0, 0, 12, 29, 1, 100, 2, 59⟩

/-- The last second of the year 9999, and a leap day at the end of a century. -/
theorem gmtime_timegm_inverse_leap :
    ltfsTimegm (ltfsGmtime 253402300799) = 253402300799 ∧ ltfsGmtime (ltfsTimegm noon) = noon := by
  refine ⟨(gmtime_timegm_inverse.1 253402300799 (by decide) (by decide)).2, ?_⟩
  have hvalid : Valid noon := ⟨by decide, ⟨by decide, 29, by decide, by decide⟩, by decide, by decide, by decide⟩
  exact (gmtime_timegm_inverse.2 noon hvalid (by decide) (by decide)).trans (by decide)

end Ltfs.CalendarSpec
