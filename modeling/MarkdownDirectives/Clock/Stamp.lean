import MarkdownDirectives.Clock.Date
import MarkdownDirectives.Text.Basic

/-!
# Date stamps

An instant is a number of seconds since the start of 1970 in UTC. Its stamp names the weekday and
the date, and the time on the twelve-hour clock, as in `Saturday, October 17, 2026, 1:05:09 PM UTC`.
-/

namespace MarkdownDirectives.Stamp

def weekdayNames : List Text :=
  ["Sunday", "Monday", "Tuesday", "Wednesday", "Thursday", "Friday", "Saturday"].map String.toList

def monthNames : List Text :=
  ["January", "February", "March", "April", "May", "June", "July", "August", "September",
    "October", "November", "December"].map String.toList

def padded (width n : Nat) : Text :=
  let digits := Text.ofNat n
  List.replicate (width - digits.length) '0' ++ digits

/-- A year in four digits; outside the years 0 to 9999 it shows its sign. -/
def year (y : Int) : Text :=
  if 0 ≤ y && y ≤ 9999 then padded 4 y.natAbs
  else (if y < 0 then '-' else '+') :: padded 4 y.natAbs

def hour (h : Nat) : Nat := if h % 12 = 0 then 12 else h % 12

def isYear (y : Int) : Bool := -262143 ≤ y && y ≤ 262142

def ofDay (days : Int) (second : Nat) : Text :=
  let date := Date.ofDays days
  let comma := ", ".toList
  (weekdayNames[Date.weekday days]?).getD [] ++ comma ++
    (monthNames[date.month - 1]?).getD [] ++ ' ' :: Text.ofNat date.day ++ comma ++
    year date.year ++ comma ++
    Text.ofNat (hour (second / 3600)) ++ ':' :: padded 2 (second / 60 % 60) ++
    ':' :: padded 2 (second % 60) ++
    (if second < 43200 then " AM UTC".toList else " PM UTC".toList)

/-- The stamp of an instant, none if its year cannot be stamped. -/
def ofSeconds? (seconds : Int) : Option Text :=
  let days := seconds / 86400
  if isYear (Date.ofDays days).year then some (ofDay days (seconds % 86400).toNat) else none

end MarkdownDirectives.Stamp
