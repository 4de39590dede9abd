import MarkdownDirectives.Clock.Stamp
import MarkdownDirectives.Proofs.Calendar
import MarkdownDirectives.Proofs.LineBreaks

/-!
# Reading date stamps

A stamp is cut at its spaces, and each piece is read on its own: the names of weekdays and months,
and the numbers by their digits. The half of the day and an hour between one and twelve give
the hour of the day, so the instant of a stamp can be read off.
-/

namespace MarkdownDirectives.Stamp

/-- What a stamp says, with the hour on the twelve-hour clock. -/
structure Reading where
  /-- Sunday is zero. -/
  weekday : Nat
  date : Date
  hour : Nat
  minute : Nat
  second : Nat
  isAfternoon : Bool
  deriving DecidableEq, Repr

namespace Reading

structure IsProper (reading : Reading) : Prop where
  weekday : reading.weekday < 7
  date : reading.date.IsValid
  hour : 1 ≤ reading.hour ∧ reading.hour ≤ 12
  minute : reading.minute < 60
  second : reading.second < 60

/-- The hour twelve comes first in each half of the day. -/
def secondOfDay (reading : Reading) : Nat :=
  3600 * (reading.hour % 12 + if reading.isAfternoon then 12 else 0) + 60 * reading.minute +
    reading.second

/-- The seconds from the start of 1970 in UTC. -/
def instant (reading : Reading) : Int := 86400 * reading.date.toDays + reading.secondOfDay

end Reading

/-! ### Reading -/

def number? (t : Text) : Option Nat :=
  if t.all Char.isDigit && !t.isEmpty then some (Text.digitsValue t) else none

def year? : Text → Option Int
  | '-' :: digits => (number? digits).map fun n => -Int.ofNat n
  | '+' :: digits => (number? digits).map Int.ofNat
  | digits => (number? digits).map Int.ofNat

def beforeComma? (t : Text) : Option Text :=
  if t.getLast? = some ',' then some t.dropLast else none

def time? (t : Text) : Option (Nat × Nat × Nat) :=
  match t.splitOn ':' with
  | [hour, minute, second] => do
    return (← number? hour, ← number? minute, ← number? second)
  | _ => none

/-- The number of a weekday by its name, Sunday being zero. -/
def weekday? (t : Text) : Option Nat :=
  (["Sunday", "Monday", "Tuesday", "Wednesday", "Thursday", "Friday", "Saturday"].map
    String.toList).idxOf? t

/-- The number of a month by its name, January being one. -/
def month? (t : Text) : Option Nat :=
  ((["January", "February", "March", "April", "May", "June", "July", "August", "September",
    "October", "November", "December"].map String.toList).idxOf? t).map (· + 1)

def half? (t : Text) : Option Bool :=
  if t = "AM".toList then some false else if t = "PM".toList then some true else none

def read? (stamp : Text) : Option Reading :=
  match stamp.splitOn ' ' with
  | [weekday, month, day, year, time, half, zone] => do
    let weekday ← weekday? (← beforeComma? weekday)
    let month ← month? month
    let day ← number? (← beforeComma? day)
    let year ← year? (← beforeComma? year)
    let (hour, minute, second) ← time? time
    let isAfternoon ← half? half
    if zone = "UTC".toList then
      some ⟨weekday, ⟨year, month, day⟩, hour, minute, second, isAfternoon⟩
    else none
  | _ => none

/-! ### Numbers -/

theorem isDigit_of_mem_padded {width n : Nat} {c : Char} (h : c ∈ padded width n) :
    c.isDigit = true := by
  rcases List.mem_append.mp h with hc | hc
  · rw [List.eq_of_mem_replicate hc]
    rfl
  · exact Text.isDigit_of_mem_ofNat hc

theorem not_mem_ofNat {c : Char} (h : c.isDigit = false) (n : Nat) : c ∉ Text.ofNat n := by
  intro hc
  rw [Text.isDigit_of_mem_ofNat hc] at h
  cases h

theorem not_mem_padded {c : Char} (h : c.isDigit = false) (width n : Nat) : c ∉ padded width n := by
  intro hc
  rw [isDigit_of_mem_padded hc] at h
  cases h

theorem padded_ne_nil (width n : Nat) : padded width n ≠ [] := by
  intro h
  exact Text.ofNat_ne_nil n (List.append_eq_nil_iff.mp h).2

theorem digitsValue_padded (width n : Nat) : Text.digitsValue (padded width n) = n := by
  have hzeros : ∀ count, (List.replicate count '0').foldl
      (fun n c => 10 * n + (c.toNat - '0'.toNat)) 0 = 0 := by
    intro count
    induction count with
    | zero => rfl
    | succ count ih => exact ih
  have hvalue := Text.digitsValue_ofNat n
  unfold padded Text.digitsValue at *
  rw [List.foldl_append, hzeros]
  exact hvalue

theorem number?_eq {t : Text} (h : ∀ c ∈ t, c.isDigit = true) (hne : t ≠ []) :
    number? t = some (Text.digitsValue t) := by
  have hall : t.all Char.isDigit = true := List.all_eq_true.mpr h
  have hempty : t.isEmpty = false := by
    cases t with
    | nil => exact absurd rfl hne
    | cons c t => rfl
  simp [number?, hall, hempty]

theorem number?_ofNat (n : Nat) : number? (Text.ofNat n) = some n := by
  rw [number?_eq (fun c hc => Text.isDigit_of_mem_ofNat hc) (Text.ofNat_ne_nil n),
    Text.digitsValue_ofNat]

theorem number?_padded (width n : Nat) : number? (padded width n) = some n := by
  rw [number?_eq (fun c hc => isDigit_of_mem_padded hc) (padded_ne_nil width n),
    digitsValue_padded]

theorem year?_of_digits {t : Text} (h : ∀ c ∈ t, c.isDigit = true) :
    year? t = (number? t).map Int.ofNat := by
  unfold year?
  split
  · have hminus := h '-' (List.mem_cons_self ..)
    cases hminus
  · have hplus := h '+' (List.mem_cons_self ..)
    cases hplus
  · rfl

theorem year?_year (y : Int) : year? (year y) = some y := by
  unfold year
  split
  · next hy =>
    simp only [Bool.and_eq_true, decide_eq_true_eq] at hy
    rw [year?_of_digits fun c hc => isDigit_of_mem_padded hc, number?_padded, Option.map_some]
    exact congrArg some (Int.natAbs_of_nonneg hy.1)
  · split
    · next hneg =>
      show (number? (padded 4 y.natAbs)).map (fun n => -Int.ofNat n) = some y
      rw [number?_padded, Option.map_some]
      have hvalue : -((y.natAbs : Nat) : Int) = y := by omega
      exact congrArg some hvalue
    · next hneg =>
      show (number? (padded 4 y.natAbs)).map Int.ofNat = some y
      rw [number?_padded, Option.map_some]
      exact congrArg some (Int.natAbs_of_nonneg (by omega))

theorem beforeComma?_concat (t : Text) : beforeComma? (t ++ [',']) = some t := by
  simp [beforeComma?]

theorem time?_eq (hour minute second : Nat) :
    time? (Text.ofNat hour ++ ':' :: padded 2 minute ++ ':' :: padded 2 second) =
      some (hour, minute, second) := by
  have hcolon : ':'.isDigit = false := by decide
  have hhour := not_mem_ofNat hcolon hour
  have hminute := not_mem_padded hcolon 2 minute
  have hsecond := not_mem_padded hcolon 2 second
  have hpieces : (Text.ofNat hour ++ ':' :: padded 2 minute ++ ':' :: padded 2 second).splitOn ':' =
      [Text.ofNat hour, padded 2 minute, padded 2 second] := by
    rw [Text.splitOn_append, Text.splitOn_append, Text.splitOn_of_not_mem hhour,
      Text.splitOn_of_not_mem hminute, Text.splitOn_of_not_mem hsecond]
    rfl
  simp only [time?, hpieces, number?_ofNat, number?_padded]
  rfl

/-! ### Pieces -/

def halfName (second : Nat) : Text := if second < 43200 then "AM".toList else "PM".toList

def timeText (second : Nat) : Text :=
  Text.ofNat (hour (second / 3600)) ++ ':' :: padded 2 (second / 60 % 60) ++
    ':' :: padded 2 (second % 60)

def pieces (days : Int) (second : Nat) : List Text :=
  [(weekdayNames[Date.weekday days]?).getD [] ++ [','],
    (monthNames[(Date.ofDays days).month - 1]?).getD [],
    Text.ofNat (Date.ofDays days).day ++ [','], year (Date.ofDays days).year ++ [','],
    timeText second, halfName second, "UTC".toList]

theorem ofDay_eq (days : Int) (second : Nat) :
    ofDay days second = Text.joinWith ' ' (pieces days second) := by
  have hhalf : (if second < 43200 then " AM UTC".toList else " PM UTC".toList) =
      ' ' :: (halfName second ++ ' ' :: "UTC".toList) := by
    unfold halfName
    split <;> rfl
  have hcomma : ", ".toList = [',', ' '] := rfl
  simp only [ofDay, hhalf, hcomma, pieces, timeText, Text.joinWith, List.append_assoc,
    List.cons_append, List.nil_append]

theorem space_not_mem_pieces (days : Int) (second : Nat) :
    ∀ piece ∈ pieces days second, ' ' ∉ piece := by
  have hspace : ' '.isDigit = false := by decide
  have hnames : ∀ names : List Text, (∀ name ∈ names, ' ' ∉ name) → ∀ n : Nat,
      ' ' ∉ (names[n]?).getD [] := by
    intro names h n
    cases hn : names[n]? with
    | none => exact List.not_mem_nil
    | some name => exact h name (List.mem_of_getElem? hn)
  have hweekday := hnames weekdayNames (by decide) (Date.weekday days)
  have hmonth := hnames monthNames (by decide) ((Date.ofDays days).month - 1)
  have hnumber := not_mem_ofNat hspace
  have hpadded := not_mem_padded hspace
  have hyear : ' ' ∉ year (Date.ofDays days).year := by
    unfold year
    split
    · exact hpadded 4 _
    · split <;> simp [hpadded 4]
  have hhalf : ' ' ∉ halfName second := by
    unfold halfName
    split <;> decide
  have htime : ' ' ∉ timeText second := by
    simp [timeText, hnumber, hpadded]
  intro piece hp
  simp only [pieces, List.mem_cons, List.not_mem_nil, or_false] at hp
  rcases hp with rfl | rfl | rfl | rfl | rfl | rfl | rfl
  · simp [hweekday]
  · exact hmonth
  · simp [hnumber]
  · simp [hyear]
  · exact htime
  · exact hhalf
  · decide

theorem weekday?_name {n : Nat} (h : n < 7) :
    weekday? ((weekdayNames[n]?).getD []) = some n := by
  have htable : ∀ n < 7, weekday? ((weekdayNames[n]?).getD []) = some n := by
    decide +kernel
  exact htable n h

theorem month?_name {n : Nat} (h : 1 ≤ n ∧ n ≤ 12) :
    month? ((monthNames[n - 1]?).getD []) = some n := by
  have htable : ∀ n < 12, month? ((monthNames[n]?).getD []) = some (n + 1) := by
    decide +kernel
  obtain ⟨m, rfl⟩ : ∃ m, n = m + 1 := ⟨n - 1, by omega⟩
  exact htable m (by omega)

theorem half?_halfName (second : Nat) :
    half? (halfName second) = some (decide (43200 ≤ second)) := by
  unfold halfName
  split
  · next h =>
    have hlate : ¬ 43200 ≤ second := by omega
    simp [half?, hlate]
  · next h =>
    have hlate : 43200 ≤ second := by omega
    simp [half?, hlate]

/-- What the stamp of a second of a day says. -/
def readingOf (days : Int) (second : Nat) : Reading :=
  ⟨Date.weekday days, Date.ofDays days, hour (second / 3600), second / 60 % 60, second % 60,
    decide (43200 ≤ second)⟩

theorem read?_ofDay (days : Int) (second : Nat) :
    read? (ofDay days second) = some (readingOf days second) := by
  have hpieces : (ofDay days second).splitOn ' ' = pieces days second := by
    rw [ofDay_eq]
    exact Text.splitOn_joinWith_of_not_mem (List.cons_ne_nil _ _) (space_not_mem_pieces days second)
  have hmonth := month?_name (Date.isValid_ofDays days).month
  have hweekday := weekday?_name (Date.weekday_lt days)
  simp only [read?, hpieces, pieces, beforeComma?_concat, hweekday, hmonth, number?_ofNat,
    year?_year, timeText, time?_eq, half?_halfName, Option.bind_eq_bind, Option.bind_some, if_true]
  rfl

theorem hour_bounds (h : Nat) : 1 ≤ hour h ∧ hour h ≤ 12 ∧ hour h % 12 = h % 12 := by
  unfold hour
  split <;> omega

theorem isProper_readingOf (days : Int) (second : Nat) : (readingOf days second).IsProper := by
  obtain ⟨hlow, hhigh, -⟩ := hour_bounds (second / 3600)
  exact ⟨Date.weekday_lt days, Date.isValid_ofDays days, ⟨hlow, hhigh⟩, Nat.mod_lt _ (by decide),
    Nat.mod_lt _ (by decide)⟩

theorem secondOfDay_readingOf (days : Int) {second : Nat} (h : second < 86400) :
    (readingOf days second).secondOfDay = second := by
  obtain ⟨-, -, hhour⟩ := hour_bounds (second / 3600)
  show 3600 * (hour (second / 3600) % 12 + if decide (43200 ≤ second) = true then 12 else 0) +
    60 * (second / 60 % 60) + second % 60 = second
  rw [hhour]
  by_cases hlate : 43200 ≤ second
  · rw [if_pos (decide_eq_true hlate)]
    omega
  · rw [if_neg (by simpa using hlate)]
    omega

/-! ### Instants -/

/-- The start of the first day and the last second of the last day that can be stamped. -/
def firstSecond : Int := 86400 * Date.toDays ⟨-262143, 1, 1⟩

def lastSecond : Int := 86400 * Date.toDays ⟨262142, 12, 31⟩ + 86399

example : firstSecond = -8334601228800 ∧ lastSecond = 8210266876799 := by decide +kernel

theorem isYear_iff {date : Date} (h : date.IsValid) :
    isYear date.year = true ↔
      Date.toDays ⟨-262143, 1, 1⟩ ≤ date.toDays ∧ date.toDays ≤ Date.toDays ⟨262142, 12, 31⟩ := by
  have hlow := Date.year_lt_iff h (-262143)
  have hhigh := Date.year_lt_iff h 262143
  have hfirst : Date.toDays ⟨-262143, 1, 1⟩ + Date.daysBeforeYear 1970 =
      Date.daysBeforeYear (-262143) := by
    decide +kernel
  have hlast : Date.toDays ⟨262142, 12, 31⟩ + 1 + Date.daysBeforeYear 1970 =
      Date.daysBeforeYear 262143 := by
    decide +kernel
  simp only [isYear, Bool.and_eq_true, decide_eq_true_eq]
  omega

theorem ofSeconds?_eq_some_iff {seconds : Int} {stamp : Text} :
    ofSeconds? seconds = some stamp ↔
      (firstSecond ≤ seconds ∧ seconds ≤ lastSecond) ∧
        ofDay (seconds / 86400) (seconds % 86400).toNat = stamp := by
  have hyear := isYear_iff (Date.isValid_ofDays (seconds / 86400))
  have hrange : isYear (Date.ofDays (seconds / 86400)).year = true ↔
      firstSecond ≤ seconds ∧ seconds ≤ lastSecond := by
    rw [hyear, Date.toDays_ofDays]
    unfold firstSecond lastSecond
    omega
  rw [← hrange]
  unfold ofSeconds?
  simp only
  split
  · next h => simp [h]
  · next h => simp [h]

theorem read?_of_ofSeconds? {seconds : Int} {stamp : Text} (h : ofSeconds? seconds = some stamp) :
    read? stamp = some (readingOf (seconds / 86400) (seconds % 86400).toNat) := by
  rw [← (ofSeconds?_eq_some_iff.mp h).2, read?_ofDay]

theorem instant_readingOf (seconds : Int) :
    (readingOf (seconds / 86400) (seconds % 86400).toNat).instant = seconds := by
  have hsecond : (seconds % 86400).toNat < 86400 := by omega
  unfold Reading.instant
  rw [secondOfDay_readingOf _ hsecond]
  show 86400 * (Date.ofDays (seconds / 86400)).toDays + _ = seconds
  rw [Date.toDays_ofDays]
  omega

/-- Every second in the range of the calendar has a stamp, from which the second, its date and its
weekday can be read, which are the only ones of that day; no other second has that stamp. -/
theorem stamp_determines_instant {seconds : Int} (hfirst : firstSecond ≤ seconds)
    (hlast : seconds ≤ lastSecond) :
    ∃ stamp reading, ofSeconds? seconds = some stamp ∧ read? stamp = some reading ∧
      reading.IsProper ∧ reading.instant = seconds ∧
      Date.Falls (seconds / 86400) reading.date reading.weekday ∧
      (∀ date weekday, Date.Falls (seconds / 86400) date weekday →
        date = reading.date ∧ weekday = reading.weekday) ∧
      ∀ other, ofSeconds? other = some stamp → other = seconds := by
  have hstamp := ofSeconds?_eq_some_iff.mpr ⟨⟨hfirst, hlast⟩, rfl⟩
  have hread := read?_of_ofSeconds? hstamp
  refine ⟨_, _, hstamp, hread, isProper_readingOf _ _, instant_readingOf seconds,
    Date.falls_ofDays _, fun date weekday h => h.unique (Date.falls_ofDays _), fun other ho => ?_⟩
  have hsame := (read?_of_ofSeconds? ho).symm.trans hread
  have hinstant := congrArg Reading.instant (Option.some.inj hsame)
  rwa [instant_readingOf, instant_readingOf] at hinstant

/-- Noon of a leap day before year one. -/
theorem stamp_determines_leapNoon :
    (firstSecond ≤ -62288308800 ∧ (-62288308800 : Int) ≤ lastSecond) ∧
      ∃ reading, ofSeconds? (-62288308800) =
          some "Thursday, February 29, -0004, 12:00:00 PM UTC".toList ∧
        read? "Thursday, February 29, -0004, 12:00:00 PM UTC".toList = some reading ∧
        reading.instant = -62288308800 := by
  have hfirst : firstSecond ≤ -62288308800 := by decide +kernel
  have hlast : (-62288308800 : Int) ≤ lastSecond := by decide +kernel
  have hnoon : ofSeconds? (-62288308800) =
      some "Thursday, February 29, -0004, 12:00:00 PM UTC".toList := by
    decide +kernel
  obtain ⟨stamp, reading, hstamp, hread, -, hinstant, -⟩ := stamp_determines_instant hfirst hlast
  cases hnoon.symm.trans hstamp
  exact ⟨⟨hfirst, hlast⟩, reading, hnoon, hread, hinstant⟩

end MarkdownDirectives.Stamp
