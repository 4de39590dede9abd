import MarkdownDirectives.Json.Reader

/-!
# TOML scalars

Numbers, booleans and date-times are written without quotes. Digits may be grouped by single
underscores between them. A float has digits before the point and after it; `inf` and `nan` are
floats without a finite value, and digits beyond the finite floats are an error. A date-time is kept
as the text in its normal form: a `T` between date and time, `Z` or a signed offset after them, and
the fraction of a second without zeros at its end.
-/

namespace MarkdownDirectives.Toml

inductive Scalar where
  | bool (b : Bool)
  | integer (i : Int)
  /-- None for an infinity or a value that is no number. -/
  | float (x : Option Binary64)
  | dateTime (t : Text)
  deriving DecidableEq, Repr

namespace Scalar

/-! ### Numbers -/

/-- The digits without the underscores between them. -/
def ungroup (isDigit : Char → Bool) (t : Text) : Option Text :=
  let groups := t.splitOn '_'
  if groups.all fun group => !group.isEmpty && group.all isDigit then some groups.flatten else none

/-- A sign in front, true for a minus, and the rest. -/
def splitSign : Text → Option Bool × Text
  | '-' :: rest => (some true, rest)
  | '+' :: rest => (some false, rest)
  | t => (none, t)

/-- The digits of a whole number in base ten, which begin with zero only if that is all. -/
def wholeDigits (t : Text) : Option Text := do
  let digits ← ungroup Char.isDigit t
  match digits with
  | '0' :: _ :: _ => none
  | _ => some digits

def inBase (base : Nat) (t : Text) : Option Nat := do
  let digits ← ungroup (fun c => match Json.hexValue c with | some n => n < base | none => false) t
  digits.foldlM (fun n c => (Json.hexValue c).map (base * n + ·)) 0

def integer? (t : Text) : Option Int :=
  match t with
  | '0' :: 'x' :: rest => (inBase 16 rest).map Int.ofNat
  | '0' :: 'o' :: rest => (inBase 8 rest).map Int.ofNat
  | '0' :: 'b' :: rest => (inBase 2 rest).map Int.ofNat
  | t =>
    let (sign, rest) := splitSign t
    (wholeDigits rest).map fun digits =>
      if sign = some true then -(Text.digitsValue digits : Int) else Text.digitsValue digits

def exponent? (t : Text) : Option Int :=
  let (sign, rest) := splitSign t
  (ungroup Char.isDigit rest).map fun digits =>
    if sign = some true then -(Text.digitsValue digits : Int) else Text.digitsValue digits

def float? (t : Text) : Option Binary64 := do
  let (sign, rest) := splitSign t
  let (mantissa, tail) := rest.span fun c => c != 'e' && c != 'E'
  let (whole, fraction) := mantissa.span (· != '.')
  if tail.isEmpty && fraction.isEmpty then none
  else
    let whole ← wholeDigits whole
    let fraction ← if fraction.isEmpty then some [] else ungroup Char.isDigit (fraction.drop 1)
    let exponent ← if tail.isEmpty then some 0 else exponent? (tail.drop 1)
    Decimal.toBinary64 (sign = some true)
      ⟨Text.digitsValue (whole ++ fraction), exponent - fraction.length⟩

def isNonFinite (t : Text) : Bool :=
  let (_, rest) := splitSign t
  rest == "inf".toList || rest == "nan".toList

/-! ### Date-times -/

def twoDigits (least greatest : Nat) : Text → Option (Text × Text)
  | a :: b :: rest =>
    let n := Text.digitsValue [a, b]
    if a.isDigit && b.isDigit && least ≤ n && n ≤ greatest then some ([a, b], rest) else none
  | _ => none

def isLeapYear (y : Nat) : Bool := (y % 4 == 0 && y % 100 != 0) || y % 400 == 0

def daysInMonth (year month : Nat) : Nat :=
  if month = 2 then (if isLeapYear year then 29 else 28)
  else if [4, 6, 9, 11].contains month then 30
  else 31

def date? : Text → Option (Text × Text)
  | a :: b :: c :: d :: '-' :: rest => do
    if !([a, b, c, d].all Char.isDigit) then none
    let (month, rest) ← twoDigits 1 12 rest
    match rest with
    | '-' :: rest =>
      let greatest := daysInMonth (Text.digitsValue [a, b, c, d]) (Text.digitsValue month)
      let (day, rest) ← twoDigits 1 greatest rest
      some (a :: b :: c :: d :: '-' :: month ++ '-' :: day, rest)
    | _ => none
  | _ => none

/-- The fraction of a second, cut after nine digits and without zeros at its end. -/
def fraction? : Text → Option (Text × Text)
  | '.' :: rest =>
    let (digits, rest) := rest.span Char.isDigit
    if digits.isEmpty then none
    else
      match Text.dropEndWhile (· == '0') (digits.take 9) with
      | [] => some (['.', '0'], rest)
      | kept => some ('.' :: kept, rest)
  | t => some ([], t)

/-- A time at the front; its seconds may be missing. -/
def time? (t : Text) : Option (Text × Text) := do
  let (hour, rest) ← twoDigits 0 23 t
  match rest with
  | ':' :: rest =>
    let (minute, rest) ← twoDigits 0 59 rest
    match rest with
    | ':' :: rest =>
      let (second, rest) ← twoDigits 0 60 rest
      let (fraction, rest) ← fraction? rest
      some (hour ++ ':' :: minute ++ ':' :: second ++ fraction, rest)
    | rest => some (hour ++ ':' :: minute, rest)
  | _ => none

/-- An offset as a whole text; none has the sign of a negative zero. -/
def offset? : Text → Option Text
  | [] => some []
  | [c] => if c = 'Z' || c = 'z' then some ['Z'] else none
  | sign :: rest => do
    if sign != '+' && sign != '-' then none
    let (hour, rest) ← twoDigits 0 23 rest
    match rest with
    | ':' :: rest =>
      let (minute, rest) ← twoDigits 0 59 rest
      if !rest.isEmpty then none
      let isZero := (hour ++ minute).all (· == '0')
      some ((if isZero then '+' else sign) :: hour ++ ':' :: minute)
    | _ => none

def dateTime? (t : Text) : Option Text :=
  match date? t with
  | none => do
    let (time, rest) ← time? t
    if rest.isEmpty then some time else none
  | some (date, []) => some date
  | some (date, separator :: rest) => do
    if separator != 'T' && separator != 't' && separator != ' ' then none
    let (time, rest) ← time? rest
    let offset ← offset? rest
    some (date ++ 'T' :: time ++ offset)

/-! ### All scalars -/

/-- Integers are read as far as 128 bits hold them. -/
def isWide (i : Int) : Bool := -(Int.pow 2 127) ≤ i && i < Int.pow 2 128

def read? (t : Text) : Option Scalar :=
  if t = "true".toList then some (.bool true)
  else if t = "false".toList then some (.bool false)
  else if isNonFinite t then some (.float none)
  else
    match integer? t with
    | some i => if isWide i then some (.integer i) else none
    | none =>
      match float? t with
      | some x => some (.float (some x))
      | none => (dateTime? t).map .dateTime

def isPart (c : Char) : Bool :=
  c.isAlphanum || c == '_' || c == '+' || c == '-' || c == '.' || c == ':'

/-- The scalar at the front of a text. A space belongs to it between a date and a time. -/
def scan (t : Text) : Option (Scalar × Text) := do
  let (first, rest) := t.span isPart
  let extended :=
    match date? first, rest with
    | some (_, []), ' ' :: c :: more =>
      if c.isDigit then
        let (second, after) := (c :: more).span isPart
        some (first ++ ' ' :: second, after)
      else none
    | _, _ => none
  let (whole, rest) := extended.getD (first, rest)
  let scalar ← read? whole
  some (scalar, rest)

end Scalar

end MarkdownDirectives.Toml
