import Ltfs.Lib.Decimal

namespace Ltfs.TimeFormat

open Lib.Decimal

/-- `struct ltfs_timespec` -/
structure LtfsTimespec where
  tvSec : Int
  tvNsec : Int
deriving DecidableEq, Repr

/-- `struct tm`, as far as it is used. -/
structure Tm where
  tmSec : Int
  tmMin : Int
  tmHour : Int
  tmMday : Int
  tmMon : Int
  tmYear : Int
  tmWday : Int
  tmYday : Int
deriving DecidableEq, Repr

def ltfsTimeTMax : Int := 253402300799

def ltfsTimeTMin : Int := -62167219200

def ltfsNsecMax : Int := 999999999

def ltfsNsecMin : Int := 0

/-- What `normalize_ltfs_time` returns: 0 or `LTFS_TIME_OUT_OF_RANGE`. -/
inductive Range
  | inRange
  | outOfRange
deriving DecidableEq, Repr

/-- `normalize_ltfs_time` -/
def normalizeLtfsTime (t : LtfsTimespec) : Range × LtfsTimespec :=
  if ltfsTimeTMax < t.tvSec then (.outOfRange, ⟨ltfsTimeTMax, ltfsNsecMax⟩)
  else if t.tvSec < ltfsTimeTMin then (.outOfRange, ⟨ltfsTimeTMin, ltfsNsecMin⟩)
  else (.inRange, t)

/-- `ltfs_timegm`. Division cuts off towards zero. -/
def ltfsTimegm (t : Tm) : Int :=
  let tmp := (t.tmMon - 13).tdiv 12
  86400 * ((1461 * (t.tmYear + 6700 + tmp)).tdiv 4 + (367 * (t.tmMon - 1 - 12 * tmp)).tdiv 12 -
    (3 * (t.tmYear + 6800 + tmp).tdiv 100).tdiv 4 + t.tmMday - 2472663) +
    3600 * t.tmHour + 60 * t.tmMin + t.tmSec

/-- `ltfs_get_days_of_year` -/
def ltfsGetDaysOfYear (nYear : Int) : Int :=
  if nYear.tmod 400 = 0 ∨ nYear.tmod 100 ≠ 0 ∧ nYear.tmod 4 = 0 then 366 else 365

def daysOfMonths (nYear : Int) : List Int :=
  [31, if ltfsGetDaysOfYear nYear = 365 then 28 else 29, 31, 30, 31, 30, 31, 31, 30, 31, 30, 31]

/-- The loop of `ltfs_get_mday_from_yday`; the month is missing if the days are used up. -/
def monthLoop : List Int → Int → Int → Int × Option Int
  | [], nMday, _ => (nMday, none)
  | days :: rest, nMday, i => if nMday < days then (nMday, some i) else monthLoop rest (nMday - days) (i + 1)

/-- `ltfs_get_mday_from_yday`: the day of the month and the month. -/
def ltfsGetMdayFromYday (nYear nYday : Int) : Int × Int :=
  match monthLoop (daysOfMonths nYear) nYday 0 with
  | (nMday, some nMonth) => if nMday < 0 then (-1, nMonth) else (nMday + 1, nMonth)
  | (_, none) => (-1, -1)

/-- A unit of time is taken off: what is left of it, and the larger units. -/
def takeUnit (nSrcTime unit : Int) : Int × Int :=
  if 0 ≤ nSrcTime.tmod unit then (nSrcTime.tmod unit, nSrcTime.tdiv unit)
  else (nSrcTime.tmod unit + unit, nSrcTime.tdiv unit - 1)

/-- The years since 2000-03-01 and the days after the first of March of that year. -/
def yearsSince (nSrcTime : Int) : Int × Int :=
  let n400Y := nSrcTime.tdiv 146097
  let nSrcTime := nSrcTime.tmod 146097
  let n100Y := nSrcTime.tdiv 36524
  let nSrcTime := nSrcTime.tmod 36524
  let nSrcTime := if n100Y = 4 then nSrcTime - 1 else nSrcTime
  let n4Y := nSrcTime.tdiv 1461
  let nSrcTime := nSrcTime.tmod 1461
  let nSrcTime := if n100Y < 0 ∧ n4Y = 0 then nSrcTime + 1 else nSrcTime
  let n1Y := nSrcTime.tdiv 365
  let nSrcTime := nSrcTime.tmod 365
  let nSrcTime := if n1Y = 4 then nSrcTime - 1 else nSrcTime
  let nSrcTime := if n1Y < 0 ∧ ¬ (n100Y < 0 ∧ n4Y = 0) then nSrcTime + 1 else nSrcTime
  (n400Y * 400 + n100Y * 100 + n4Y * 4 + n1Y, nSrcTime)

/-- The year and the day of the year. -/
def yearAndDay (nYears nSrcTime : Int) : Int × Int :=
  let nDaysOfYear := ltfsGetDaysOfYear (nYears + 2000)
  let nYday := nSrcTime + 31 + 28 + (nDaysOfYear - 365)
  if nDaysOfYear ≤ nYday then (nYears + 1, nYday - nDaysOfYear)
  else if nYday < 0 then (nYears - 1, nYday + ltfsGetDaysOfYear (nYears - 1 + 2000))
  else (nYears, nYday)

/-- `tm_wday`, for the days since 2000-03-01. -/
def weekDay (nSrcTime : Int) : Int :=
  if (nSrcTime + 3).tmod 7 < 0 then (nSrcTime + 3).tmod 7 + 7 else (nSrcTime + 3).tmod 7

/-- `ltfs_gmtime` -/
def ltfsGmtime (timep : Int) : Tm :=
  let sec := takeUnit timep 60
  let min := takeUnit sec.2 60
  let hour := takeUnit min.2 24
  let days := hour.2 - 11017
  let since := yearsSince days
  let year := yearAndDay since.1 since.2
  let mday := ltfsGetMdayFromYday (year.1 + 2000) year.2
  { tmSec := sec.1, tmMin := min.1, tmHour := hour.1
    tmMday := mday.1, tmMon := mday.2, tmYear := year.1 + 2000 - 1900
    tmWday := weekDay days, tmYday := year.2 }

/-- `xml_format_time` -/
def xmlFormatTime (t : LtfsTimespec) : Range × List Char :=
  let (normalized, t) := normalizeLtfsTime t
  let tm := ltfsGmtime t.tvSec
  (normalized, printInt 4 (tm.tmYear + 1900) ++ '-' :: (printInt 2 (tm.tmMon + 1) ++ '-' :: (printInt 2 tm.tmMday ++
    'T' :: (printInt 2 tm.tmHour ++ ':' :: (printInt 2 tm.tmMin ++ ':' :: (printInt 2 tm.tmSec ++
    '.' :: (printInt 9 t.tvNsec ++ ['Z'])))))))

/-- `xml_parse_time`. What stands behind the seventh number makes no difference to `sscanf`. -/
def xmlParseTime (fmtTime : List Char) : Option (Range × LtfsTimespec) := do
  let (year, rest) ← scanInt fmtTime.length fmtTime
  let rest ← scanChar '-' rest
  let (mon, rest) ← scanInt 2 rest
  let rest ← scanChar '-' rest
  let (mday, rest) ← scanInt 2 rest
  let rest ← scanChar 'T' rest
  let (hour, rest) ← scanInt 2 rest
  let rest ← scanChar ':' rest
  let (min, rest) ← scanInt 2 rest
  let rest ← scanChar ':' rest
  let (sec, rest) ← scanInt 2 rest
  let rest ← scanChar '.' rest
  let (nsec, _) ← scanInt 9 rest
  return normalizeLtfsTime ⟨ltfsTimegm ⟨sec, min, hour, mday, mon - 1, year - 1900, 0, 0⟩, nsec⟩

end Ltfs.TimeFormat
