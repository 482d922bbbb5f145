import ScanTriage.Number.Power
import ScanTriage.Text.Bytes

/-!
# Timestamps

Seconds since 1970 as date and time in UTC, in the form of RFC 3339. The
clock of this program knows no fractions of a second.
-/

namespace ScanTriage

namespace Timestamp

/-- Year, month and day of a day counted from 1 January 1970. Years run from
March here, so that the leap day is the last day of a year. -/
def civil (day : Int) : Int × Int × Int :=
  let z := day + 719468
  let era := z.fdiv 146097
  let d := z - era * 146097
  let y := (d - d / 1460 + d / 36524 - d / 146096) / 365
  let dayOfYear := d - (365 * y + y / 4 - y / 100)
  let m := (5 * dayOfYear + 2) / 153
  let dom := dayOfYear - (153 * m + 2) / 5 + 1
  let month := if m < 10 then m + 3 else m - 9
  (y + era * 400 + (if month ≤ 2 then 1 else 0), month, dom)

def daysIn (year month : Nat) : Nat :=
  if month == 2 then
    if year % 4 == 0 && (year % 100 != 0 || year % 400 == 0) then 29 else 28
  else if month == 4 || month == 6 || month == 9 || month == 11 then 30
  else 31

def two (n : Int) : Bytes := Bytes.decimalPadded 2 n.toNat

def yearText (year : Int) : Bytes :=
  if year < 0 then Bytes.minus :: Bytes.decimalPadded 4 year.natAbs
  else Bytes.decimalPadded 4 year.toNat

/-- The earliest moment: 1 March of the year -292277022400. -/
def earliest : Int := -9223372028741760000

/-- Moments are counted in 64 bits from the earliest, so those before it come
round to the far end of time. -/
def wrap (seconds : Int) : Int := (seconds - earliest) % 2 ^ 64 + earliest

/-- Date and time of a moment given in seconds, with `mark` between the parts
of the time. -/
def clock (mark : Bytes) (seconds : Int) : Bytes :=
  let seconds := wrap seconds
  let day := seconds.fdiv 86400
  let s := seconds - day * 86400
  let (year, month, dom) := civil day
  yearText year ++ "-" ++ two month ++ "-" ++ two dom ++ "T" ++ two (s / 3600) ++ mark ++
    two (s / 60 % 60) ++ mark ++ two (s % 60)

def render (seconds : Int) : Bytes := clock ":" seconds ++ "Z"

/-- The timestamp of a log entry, in milliseconds. -/
def renderMillis (seconds : Int) : Bytes := clock ":" seconds ++ ".000Z"

def inFileName (seconds : Int) : Bytes := clock "-" seconds ++ ".000"

end Timestamp

end ScanTriage
