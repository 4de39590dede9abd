import Mathlib.Data.Int.Init
import MarkdownDirectives.Clock.Date

/-!
# The calendar

The dates of the proleptic Gregorian calendar follow one another day by day, and the days before a
date are counted by years and months. A day count is split by eras, centuries, cycles of four years
and years that begin in March; the date found in this way is the one that the days before it count.
-/

namespace MarkdownDirectives

namespace Date

/-! ### Lengths -/

/-- Every fourth year is a leap year, but of the centuries only every fourth one. -/
def IsLeap (year : Int) : Prop := year % 4 = 0 ∧ (year % 100 = 0 → year % 400 = 0)

instance (year : Int) : Decidable (IsLeap year) := inferInstanceAs (Decidable (_ ∧ _))

def leapDays (year : Int) : Nat := if IsLeap year then 1 else 0

def monthLength (year : Int) (month : Nat) : Nat :=
  if month = 2 then 28 + leapDays year
  else if month = 4 ∨ month = 6 ∨ month = 9 ∨ month = 11 then 30
  else 31

structure IsValid (date : Date) : Prop where
  month : 1 ≤ date.month ∧ date.month ≤ 12
  day : 1 ≤ date.day ∧ date.day ≤ monthLength date.year date.month

def next (date : Date) : Date :=
  if date.day < monthLength date.year date.month then { date with day := date.day + 1 }
  else if date.month < 12 then ⟨date.year, date.month + 1, 1⟩
  else ⟨date.year + 1, 1, 1⟩

/-! ### Counting days -/

/-- The days from the start of year one to the start of a year. -/
def daysBeforeYear (year : Int) : Int :=
  365 * (year - 1) + (year - 1) / 4 - (year - 1) / 100 + (year - 1) / 400

def daysBeforeMonth (year : Int) (month : Nat) : Nat :=
  (List.range (month - 1)).foldl (fun days n => days + monthLength year (n + 1)) 0

/-- The days from the first of January 1970 to a date. -/
def toDays (date : Date) : Int :=
  daysBeforeYear date.year + daysBeforeMonth date.year date.month + date.day - 1 -
    daysBeforeYear 1970

variable {year year' : Int} {month month' : Nat} {date date' : Date}

theorem leapDays_le (year : Int) : leapDays year ≤ 1 := by
  unfold leapDays
  split <;> omega

theorem daysBeforeYear_succ (year : Int) :
    daysBeforeYear (year + 1) = daysBeforeYear year + 365 + leapDays year := by
  unfold daysBeforeYear
  by_cases h : IsLeap year
  · have hdays : leapDays year = 1 := if_pos h
    unfold IsLeap at h
    omega
  · have hdays : leapDays year = 0 := if_neg h
    unfold IsLeap at h
    omega

theorem daysBeforeMonth_succ (year : Int) (h : 1 ≤ month) :
    daysBeforeMonth year (month + 1) = daysBeforeMonth year month + monthLength year month := by
  obtain ⟨n, rfl⟩ : ∃ n, month = n + 1 := ⟨month - 1, by omega⟩
  simp [daysBeforeMonth, List.range_succ]

theorem daysBeforeMonth_thirteen (year : Int) :
    daysBeforeMonth year 13 = 365 + leapDays year := by
  simp [daysBeforeMonth, List.range_succ, monthLength]
  omega

theorem isValid_next (h : date.IsValid) : date.next.IsValid := by
  obtain ⟨⟨hm, hm'⟩, hd, hd'⟩ := h
  unfold next
  split
  · next hlt => exact ⟨⟨hm, hm'⟩, by show 1 ≤ date.day + 1; omega, hlt⟩
  · have hlong : ∀ year month, 1 ≤ monthLength year month := by
      intro year month
      unfold monthLength
      split
      · omega
      · split <;> omega
    split
    · next hmonth =>
      exact ⟨⟨by show 1 ≤ date.month + 1; omega, hmonth⟩, Nat.le_refl 1, hlong _ _⟩
    · exact ⟨⟨Nat.le_refl 1, by show 1 ≤ 12; decide⟩, Nat.le_refl 1, hlong _ _⟩

theorem toDays_next (h : date.IsValid) : date.next.toDays = date.toDays + 1 := by
  obtain ⟨⟨hm, hm'⟩, hd, hd'⟩ := h
  unfold next
  split
  · simp only [toDays]
    push_cast
    omega
  · have hday : date.day = monthLength date.year date.month := by omega
    split
    · simp only [toDays, daysBeforeMonth_succ date.year hm, hday]
      push_cast
      omega
    · have hmonth : date.month = 12 := by omega
      have hlast : 1 ≤ 12 := by decide
      have hyear := daysBeforeMonth_succ date.year hlast
      have hfirst : daysBeforeMonth (date.year + 1) 1 = 0 := rfl
      rw [daysBeforeMonth_thirteen] at hyear
      simp only [toDays, hday, hmonth, hfirst, daysBeforeYear_succ]
      omega

/-! ### Order -/

theorem daysBeforeYear_mono (h : year ≤ year') : daysBeforeYear year ≤ daysBeforeYear year' := by
  unfold daysBeforeYear
  omega

theorem daysBeforeMonth_mono (year : Int) (hm : 1 ≤ month) (h : month ≤ month') :
    daysBeforeMonth year month ≤ daysBeforeMonth year month' := by
  induction h with
  | refl => exact Nat.le_refl _
  | step hle ih =>
    rw [daysBeforeMonth_succ year (Nat.le_trans hm hle)]
    exact Nat.le_trans ih (Nat.le_add_right _ _)

theorem toDays_bounds (h : date.IsValid) :
    daysBeforeYear date.year ≤ date.toDays + daysBeforeYear 1970 ∧
      date.toDays + daysBeforeYear 1970 < daysBeforeYear (date.year + 1) := by
  obtain ⟨⟨hm, hm'⟩, hd, hd'⟩ := h
  have hmonth := daysBeforeMonth_succ date.year hm
  have hyear := daysBeforeMonth_mono date.year (show 1 ≤ date.month + 1 by omega)
    (show date.month + 1 ≤ 13 by omega)
  rw [daysBeforeMonth_thirteen] at hyear
  rw [daysBeforeYear_succ]
  unfold toDays
  omega

theorem year_lt_iff (h : date.IsValid) (year : Int) :
    date.year < year ↔ date.toDays + daysBeforeYear 1970 < daysBeforeYear year := by
  obtain ⟨hl, hu⟩ := toDays_bounds h
  constructor
  · intro hlt
    have hmono := daysBeforeYear_mono (show date.year + 1 ≤ year by omega)
    omega
  · intro hlt
    refine Int.not_le.mp fun hge => ?_
    have hmono := daysBeforeYear_mono hge
    omega

theorem month_le_of_toDays (h : date.IsValid) (h' : date'.IsValid) (hy : date.year = date'.year)
    (hd : date.toDays = date'.toDays) : date.month ≤ date'.month := by
  refine Nat.not_lt.mp fun hlt => ?_
  have hmonth := daysBeforeMonth_succ date'.year h'.month.1
  have hmono := daysBeforeMonth_mono date'.year (show 1 ≤ date'.month + 1 by omega)
    (show date'.month + 1 ≤ date.month by omega)
  have hday := h.day.1
  have hday' := h'.day.2
  simp only [toDays, hy] at hd
  omega

/-- Different dates have different numbers of days before them. -/
theorem toDays_inj (h : date.IsValid) (h' : date'.IsValid) (hd : date.toDays = date'.toDays) :
    date = date' := by
  have hyear : date.year = date'.year := by
    have hle := year_lt_iff h date'.year
    have hge := year_lt_iff h' date.year
    have hself := year_lt_iff h date.year
    have hself' := year_lt_iff h' date'.year
    rw [hd] at hle hself
    omega
  have hmonth : date.month = date'.month :=
    Nat.le_antisymm (month_le_of_toDays h h' hyear hd)
      (month_le_of_toDays h' h hyear.symm hd.symm)
  have hday : date.day = date'.day := by
    simp only [toDays, hyear, hmonth] at hd
    omega
  cases date
  cases date'
  simp only at hyear hmonth hday
  rw [hyear, hmonth, hday]

/-! ### Years that begin in March -/

/-- The days from the first of March of year zero to the first of March of a year. -/
def daysBeforeMarch (year : Int) : Int := 365 * year + year / 4 - year / 100 + year / 400

theorem daysBeforeMarch_eq (year : Int) :
    daysBeforeMarch year - epochShift =
      daysBeforeYear year + 59 + leapDays year - daysBeforeYear 1970 := by
  have hsucc := daysBeforeYear_succ year
  unfold daysBeforeMarch epochShift
  unfold daysBeforeYear at hsucc ⊢
  omega

/-- The date on the day `n` of the year that begins in March. -/
def fromMarch (year : Int) (n : Nat) : Date :=
  let monthFromMarch := (5 * n + 2) / 153
  let month := if monthFromMarch < 10 then monthFromMarch + 3 else monthFromMarch - 9
  ⟨year + (if month ≤ 2 then 1 else 0), month, n - (153 * monthFromMarch + 2) / 5 + 1⟩

variable {n : Nat}

theorem fromMarch_bounds (hn : n < 365 + leapDays (year + 1)) :
    (5 * n + 2) / 153 < 12 := by
  have hleap := leapDays_le (year + 1)
  omega

/-- From March to December the months begin at the same days of every year. -/
theorem daysBeforeMonth_spring (year : Int) {m : Nat} (hm : m < 10) :
    daysBeforeMonth year (m + 3) = 59 + leapDays year + (153 * m + 2) / 5 := by
  induction m with
  | zero =>
    simp [daysBeforeMonth, List.range_succ, monthLength]
    omega
  | succ m ih =>
    have hlength : monthLength year (m + 3) = (153 * (m + 1) + 2) / 5 - (153 * m + 2) / 5 := by
      have htable : ∀ m < 9, (if m + 3 = 4 ∨ m + 3 = 6 ∨ m + 3 = 9 ∨ m + 3 = 11 then 30 else 31) =
          (153 * (m + 1) + 2) / 5 - (153 * m + 2) / 5 := by
        decide
      have hfebruary : ¬ m + 3 = 2 := by omega
      unfold monthLength
      rw [if_neg hfebruary]
      exact htable m (by omega)
    rw [daysBeforeMonth_succ year (by omega), ih (by omega)]
    omega

theorem isValid_fromMarch (hn : n < 365 + leapDays (year + 1)) : (fromMarch year n).IsValid := by
  have hbound := fromMarch_bounds hn
  generalize hm : (5 * n + 2) / 153 = m at hbound
  unfold fromMarch
  simp only [hm]
  by_cases hspring : m < 10
  · have hlength : n - (153 * m + 2) / 5 + 1 ≤ monthLength year (m + 3) := by
      have hfebruary : ¬ m + 3 = 2 := by omega
      unfold monthLength
      rw [if_neg hfebruary]
      split <;> omega
    have hyear : ¬ m + 3 ≤ 2 := by omega
    simp only [hspring, hyear, if_true, if_false, Int.add_zero]
    exact ⟨by show 1 ≤ m + 3 ∧ m + 3 ≤ 12; omega, Nat.le_add_left 1 _, hlength⟩
  · have hwinter : m = 10 ∨ m = 11 := by omega
    have hyear : m - 9 ≤ 2 := by omega
    have hlength : n - (153 * m + 2) / 5 + 1 ≤ monthLength (year + 1) (m - 9) := by
      rcases hwinter with rfl | rfl
      · show n - 306 + 1 ≤ 31
        omega
      · show n - 337 + 1 ≤ 28 + leapDays (year + 1)
        omega
    simp only [hspring, hyear, if_true, if_false]
    exact ⟨by show 1 ≤ m - 9 ∧ m - 9 ≤ 12; omega, Nat.le_add_left 1 _, hlength⟩

theorem toDays_fromMarch (hn : n < 365 + leapDays (year + 1)) :
    (fromMarch year n).toDays + epochShift = daysBeforeMarch year + n := by
  have hbound := fromMarch_bounds hn
  have hmarch := daysBeforeMarch_eq year
  generalize hm : (5 * n + 2) / 153 = m at hbound
  unfold fromMarch
  simp only [hm]
  by_cases hspring : m < 10
  · have hyear : ¬ m + 3 ≤ 2 := by omega
    simp only [hspring, hyear, if_true, if_false, Int.add_zero, toDays,
      daysBeforeMonth_spring year hspring]
    omega
  · have hwinter : m = 10 ∨ m = 11 := by omega
    have hyear : m - 9 ≤ 2 := by omega
    have hmonth : daysBeforeMonth (year + 1) (m - 9) = (153 * m + 2) / 5 - 306 := by
      rcases hwinter with rfl | rfl
      · rfl
      · rfl
    simp only [hspring, hyear, if_true, if_false, toDays, hmonth, daysBeforeYear_succ]
    omega

/-! ### Eras -/

/-- A day of an era, split into centuries, cycles of four years, years and days; only the last day
of a leap year is the day 365 of its year. -/
theorem exists_century {day : Nat} (h : day < 146097) :
    ∃ c q k n, day = 36524 * c + 1461 * q + 365 * k + n ∧ c ≤ 3 ∧ q ≤ 24 ∧ k ≤ 3 ∧ n ≤ 365 ∧
      (n = 365 → k = 3 ∧ (q = 24 → c = 3)) := by
  obtain ⟨c, hc, hday, hrest⟩ : ∃ c, c ≤ 3 ∧ 36524 * c ≤ day ∧
      (day < 36524 * c + 36524 ∨ c = 3 ∧ day = 36524 * c + 36524) := by
    by_cases hlast : day = 146096
    · exact ⟨3, by omega⟩
    · exact ⟨day / 36524, by omega⟩
  obtain ⟨r, rfl⟩ : ∃ r, day = 36524 * c + r := ⟨day - 36524 * c, by omega⟩
  obtain ⟨q, s, hs, rfl⟩ : ∃ q s, s < 1461 ∧ r = 1461 * q + s := ⟨r / 1461, r % 1461, by omega⟩
  obtain ⟨k, n, hk, hn, rfl⟩ : ∃ k n, k ≤ 3 ∧ (n < 365 ∨ k = 3 ∧ n = 365) ∧ s = 365 * k + n := by
    by_cases hlast : s = 1460
    · exact ⟨3, 365, by omega⟩
    · exact ⟨s / 365, s % 365, by omega⟩
  exact ⟨c, q, k, n, by omega, hc, by omega, hk, by omega, by omega⟩

theorem yearOfEra_eq {day c q k n : Nat} (hday : day = 36524 * c + 1461 * q + 365 * k + n)
    (hc : c ≤ 3) (hq : q ≤ 24) (hk : k ≤ 3) (hn : n ≤ 365)
    (hlast : n = 365 → k = 3 ∧ (q = 24 → c = 3)) :
    (day - day / 1460 + day / 36524 - day / 146096) / 365 = 100 * c + 4 * q + k := by
  -- the quotients count the leap days; the first one may count a leap day of the year itself
  obtain ⟨late, hlate, hcycles⟩ : ∃ late, (late = 0 ∧ 24 * c + q + 365 * k + n < 1460 ∨
      late = 1 ∧ 1460 ≤ 24 * c + q + 365 * k + n) ∧ day / 1460 = 25 * c + q + late := by
    clear hlast
    by_cases h : 24 * c + q + 365 * k + n < 1460
    · exact ⟨0, .inl ⟨rfl, h⟩, by omega⟩
    · exact ⟨1, .inr ⟨rfl, by omega⟩, by omega⟩
  have hcenturies : day / 36524 = c + day / 146096 := by
    by_cases h : 1461 * q + 365 * k + n < 36524
    · have hnone : day / 146096 = 0 := by omega
      rw [hnone]
      clear hlast
      omega
    · have hend : day = 146096 := by omega
      omega
  have hlow : n - late < 365 ∧ late ≤ n := by omega
  have hyear : day - day / 1460 + day / 36524 - day / 146096 =
      365 * (100 * c + 4 * q + k) + (n - late) := by
    rw [hcycles, hcenturies]
    clear hcycles hcenturies hlast
    generalize day / 146096 = last
    omega
  rw [hyear, Nat.mul_add_div (by decide), Nat.div_eq_of_lt hlow.1, Nat.add_zero]

/-- A day count is a year that begins in March and a day of that year. -/
theorem exists_fromMarch (days : Int) :
    ∃ year n, days + epochShift = daysBeforeMarch year + (n : Nat) ∧
      n < 365 + leapDays (year + 1) ∧ ofDays days = fromMarch year n := by
  generalize hera : (days + epochShift) / 146097 = era
  generalize hday : ((days + epochShift) % 146097).toNat = day
  have hcount : days + epochShift = 146097 * era + day := by omega
  have hbound : day < 146097 := by omega
  obtain ⟨c, q, k, n, hsplit, hc, hq, hk, hn, hlast⟩ := exists_century hbound
  have hyear := yearOfEra_eq hsplit hc hq hk hn hlast
  have hrest : day - (365 * (100 * c + 4 * q + k) + (100 * c + 4 * q + k) / 4 -
      (100 * c + 4 * q + k) / 100) = n := by
    have hquarter : (100 * c + 4 * q + k) / 4 = 25 * c + q := by omega
    have hcentury : (100 * c + 4 * q + k) / 100 = c := by omega
    rw [hquarter, hcentury]
    omega
  have hdate : ofDays days = fromMarch (era * 400 + (100 * c + 4 * q + k : Nat)) n := by
    simp only [ofDays, hera, hday, hyear, hrest, fromMarch]
  refine ⟨era * 400 + (100 * c + 4 * q + k : Nat), n, ?_, ?_, hdate⟩
  · have hquarter : (era * 400 + (100 * c + 4 * q + k : Nat)) / 4 = 100 * era + 25 * c + q := by
      omega
    have hcentury : (era * 400 + (100 * c + 4 * q + k : Nat)) / 100 = 4 * era + c := by omega
    have hfourth : (era * 400 + (100 * c + 4 * q + k : Nat)) / 400 = era := by omega
    unfold daysBeforeMarch
    rw [hquarter, hcentury, hfourth]
    omega
  · by_cases hlong : n = 365
    · obtain ⟨rfl, hfourth⟩ := hlast hlong
      have hleap : IsLeap (era * 400 + (100 * c + 4 * q + 3 : Nat) + 1) := by
        unfold IsLeap
        omega
      have hone : leapDays (era * 400 + (100 * c + 4 * q + 3 : Nat) + 1) = 1 := if_pos hleap
      omega
    · omega

theorem isValid_ofDays (days : Int) : (ofDays days).IsValid := by
  obtain ⟨year, n, -, hn, hdate⟩ := exists_fromMarch days
  rw [hdate]
  exact isValid_fromMarch hn

/-- As many days come before the date of a day count. -/
theorem toDays_ofDays (days : Int) : (ofDays days).toDays = days := by
  obtain ⟨year, n, hdays, hn, hdate⟩ := exists_fromMarch days
  have hcount := toDays_fromMarch hn
  rw [hdate]
  omega

/-! ### Day by day -/

/-- The days of the calendar with their dates and weekdays, one after the other in both directions
from the first of January 1970, a Thursday. -/
inductive Falls : Int → Date → Nat → Prop where
  | epoch : Falls 0 ⟨1970, 1, 1⟩ 4
  | after {days date weekday} :
    Falls days date weekday → Falls (days + 1) date.next ((weekday + 1) % 7)
  | before {days date weekday} : date.IsValid → weekday < 7 →
    Falls (days + 1) date.next ((weekday + 1) % 7) → Falls days date weekday

theorem next_ofDays (days : Int) : (ofDays days).next = ofDays (days + 1) := by
  have hvalid := isValid_ofDays days
  apply toDays_inj (isValid_next hvalid) (isValid_ofDays _)
  rw [toDays_next hvalid, toDays_ofDays, toDays_ofDays]

theorem weekday_lt (days : Int) : weekday days < 7 := by
  unfold weekday
  omega

theorem weekday_succ (days : Int) : weekday (days + 1) = (weekday days + 1) % 7 := by
  unfold weekday
  omega

theorem falls_ofDays (days : Int) : Falls days (ofDays days) (weekday days) := by
  induction days using Int.induction_on with
  | zero => exact .epoch
  | succ n ih =>
    rw [← next_ofDays, weekday_succ]
    exact .after ih
  | pred n ih =>
    refine .before (isValid_ofDays _) (weekday_lt _) ?_
    rw [next_ofDays, ← weekday_succ, Int.sub_add_cancel]
    exact ih

/-- The day count of a date is the one that counting day by day gives. -/
theorem Falls.toDays_eq {days : Int} {date : Date} {weekday : Nat} (h : Falls days date weekday) :
    date.IsValid ∧ date.toDays = days ∧ weekday = Date.weekday days := by
  induction h with
  | epoch => exact ⟨⟨by decide, by decide⟩, by decide, by decide⟩
  | @after days date weekday _ ih =>
    obtain ⟨hvalid, hdays, hweekday⟩ := ih
    refine ⟨isValid_next hvalid, by rw [toDays_next hvalid, hdays], ?_⟩
    rw [weekday_succ, hweekday]
  | @before days date weekday hvalid hlt _ ih =>
    obtain ⟨-, hdays, hweekday⟩ := ih
    rw [toDays_next hvalid] at hdays
    have hold := weekday_lt days
    rw [weekday_succ] at hweekday
    exact ⟨hvalid, by omega, by omega⟩

/-- One date only falls on a day. -/
theorem Falls.unique {days : Int} {date date' : Date} {weekday weekday' : Nat}
    (h : Falls days date weekday) (h' : Falls days date' weekday') :
    date = date' ∧ weekday = weekday' := by
  obtain ⟨hvalid, hdays, hweekday⟩ := h.toDays_eq
  obtain ⟨hvalid', hdays', hweekday'⟩ := h'.toDays_eq
  exact ⟨toDays_inj hvalid hvalid' (hdays.trans hdays'.symm), hweekday.trans hweekday'.symm⟩

end Date

end MarkdownDirectives
