/-!
# Dates

Days are counted from the first of January 1970 in the proleptic Gregorian calendar. Counted from
the first of March of year zero, 400 years form an era of 146097 days; inside an era the leap days
come at the ends of years, and months of 31, 30, 31, 30, 31 days repeat.
-/

namespace MarkdownDirectives

structure Date where
  year : Int
  /-- January is one. -/
  month : Nat
  day : Nat
  deriving DecidableEq, Repr

namespace Date

/-- The days from the first of March of year zero to the first of January 1970. -/
def epochShift : Int := 719468

def ofDays (days : Int) : Date :=
  let era := (days + epochShift) / 146097
  let dayOfEra := ((days + epochShift) % 146097).toNat
  let yearOfEra := (dayOfEra - dayOfEra / 1460 + dayOfEra / 36524 - dayOfEra / 146096) / 365
  let dayOfYear := dayOfEra - (365 * yearOfEra + yearOfEra / 4 - yearOfEra / 100)
  let monthFromMarch := (5 * dayOfYear + 2) / 153
  let month := if monthFromMarch < 10 then monthFromMarch + 3 else monthFromMarch - 9
  { year := era * 400 + yearOfEra + (if month ≤ 2 then 1 else 0)
    month := month
    day := dayOfYear - (153 * monthFromMarch + 2) / 5 + 1 }

/-- The weekday of a day, Sunday being zero. -/
def weekday (days : Int) : Nat := ((days + 4) % 7).toNat

end Date

end MarkdownDirectives
