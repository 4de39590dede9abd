import MarkdownDirectives.Number.Binary64
import MarkdownDirectives.Text.Basic

/-!
# Decimals of binary64 numbers

A decimal is a coefficient times a power of ten. Reading rounds a decimal to the nearest binary64
number. The shortest decimal of a number is the one with the fewest digits among those that read
back as the number, and the nearest of these; it is found by testing, for one digit, two digits and
so on, the two neighbours of the number on the grid of that many digits. A layout says how a decimal
is written down.
-/

namespace MarkdownDirectives

structure Decimal where
  coefficient : Nat
  exponent : Int
  deriving DecidableEq, Repr

namespace Decimal

/-! ### Reading -/

def digitCount (n : Nat) : Nat := (Nat.toDigits 10 n).length

/-- The nearest binary64 number, or none beyond the greatest finite one. Magnitudes outside
`10 ^ -324` and `10 ^ 309` are decided by their digit count alone. -/
def toBinary64 (negative : Bool) (d : Decimal) : Option Binary64 :=
  let magnitude := (digitCount d.coefficient : Int) + d.exponent
  if d.coefficient = 0 then some ⟨negative, 0, 0⟩
  else if 310 < magnitude then none
  else if magnitude < -330 then some ⟨negative, 0, 0⟩
  else
    match d.exponent with
    | .ofNat e => Binary64.ofRatio negative (d.coefficient * Nat.pow 10 e) 1
    | .negSucc e => Binary64.ofRatio negative d.coefficient (Nat.pow 10 (e + 1))

/-! ### Shortest digits -/

/-- The reals that round to a number, scaled by `4 * 2 ^ 1074`: the lower end, the number itself and
the upper end. The interval is closed if the significand is even and open otherwise. -/
structure Neighbourhood where
  low : Nat
  centre : Nat
  high : Nat
  isClosed : Bool

def neighbourhood (x : Binary64) : Neighbourhood :=
  let unit := Nat.pow 2 x.scale
  let below := if x.significand = Nat.pow 2 52 ∧ 0 < x.scale then 1 else 2
  { low := (4 * x.significand - below) * unit
    centre := 4 * x.significand * unit
    high := (4 * x.significand + 2) * unit
    isClosed := x.significand % 2 == 0 }

/-- The least `p` among `start`, `start + 1`, … with `centre / den < 10 ^ p`. -/
def pointPosition (centre den : Nat) : Nat → Int → Int
  | 0, start => start
  | tries + 1, start =>
    let isBelow :=
      match start with
      | .ofNat e => decide (centre < den * Nat.pow 10 e)
      | .negSucc e => decide (centre * Nat.pow 10 (e + 1) < den)
    if isBelow then start else pointPosition centre den tries (start + 1)

/-- The neighbour of the number on the grid of `10 ^ exponent` that reads back, the nearer one if
both do. -/
def onGrid (n : Neighbourhood) (exponent : Int) : Option Decimal :=
  let up := match exponent with | .ofNat _ => 1 | .negSucc e => Nat.pow 10 (e + 1)
  let den := 4 * Binary64.one * match exponent with | .ofNat e => Nat.pow 10 e | .negSucc _ => 1
  let floor := n.centre * up / den
  let isInside (k : Nat) : Bool :=
    if n.isClosed then n.low * up ≤ k * den && k * den ≤ n.high * up
    else n.low * up < k * den && k * den < n.high * up
  let toFloor := n.centre * up - floor * den
  let toCeiling := (floor + 1) * den - n.centre * up
  match isInside floor, isInside (floor + 1) with
  | true, true => some ⟨if toFloor ≤ toCeiling then floor else floor + 1, exponent⟩
  | true, false => some ⟨floor, exponent⟩
  | false, true => some ⟨floor + 1, exponent⟩
  | false, false => none

/-- The first hit on the grids of `count`, `count + 1`, … digits. -/
def firstOnGrid (n : Neighbourhood) (point : Int) : Nat → Nat → Decimal
  | 0, count => ⟨0, point - count⟩
  | tries + 1, count =>
    match onGrid n (point - count) with
    | some d => d
    | none => firstOnGrid n point tries (count + 1)

/-- The shortest decimal that reads back as the magnitude of `x`. -/
def shortest (x : Binary64) : Decimal :=
  if x.isZero then ⟨0, 0⟩
  else
    let n := neighbourhood x
    let den := 4 * Binary64.one
    -- the decimal logarithm from the binary one; at most a few places too low
    let estimate : Int := ((Nat.log2 n.centre : Int) - 1076) * 30103 / 100000 - 1
    firstOnGrid n (pointPosition n.centre den 5 estimate) 17 1

/-! ### Writing -/

/-- How a decimal is written: whether the exponent of the leading digit calls for positional
notation, and what follows a whole number. -/
structure Layout where
  isPositional : Int → Bool
  afterWhole : Text

def significantDigits (coefficient : Nat) : Text :=
  match Text.dropEndWhile (· == '0') (Text.ofNat coefficient) with
  | [] => ['0']
  | digits => digits

def positional (afterWhole digits : Text) (point : Int) : Text :=
  if point ≤ 0 then '0' :: '.' :: List.replicate point.natAbs '0' ++ digits
  else if (digits.length : Int) ≤ point then
    digits ++ List.replicate (point.natAbs - digits.length) '0' ++ afterWhole
  else digits.take point.natAbs ++ '.' :: digits.drop point.natAbs

/-- Exponent notation: one digit before the point, and an exponent that shows its sign. -/
def scientific (digits : Text) (point : Int) : Text :=
  let exponent := point - 1
  digits.take 1 ++ (if digits.length ≤ 1 then [] else '.' :: digits.drop 1) ++
    'e' :: (if exponent < 0 then '-' else '+') :: Text.ofNat exponent.natAbs

def write (layout : Layout) (negative : Bool) (d : Decimal) : Text :=
  let digits := significantDigits d.coefficient
  let point := if d.coefficient = 0 then 1 else (digitCount d.coefficient : Int) + d.exponent
  let magnitude :=
    if layout.isPositional (point - 1) then positional layout.afterWhole digits point
    else scientific digits point
  if negative then '-' :: magnitude else magnitude

/-- Every number in positional notation, a whole one without a point. -/
def plainLayout : Layout := ⟨fun _ => true, []⟩

/-- Positional from `10 ^ -5` to below `10 ^ 16`, and a whole number ends in `.0`. -/
def jsonLayout : Layout := ⟨fun e => -5 ≤ e && e < 16, ['.', '0']⟩

end Decimal

/-- The shortest text of a number in a layout. -/
def Binary64.write (layout : Decimal.Layout) (x : Binary64) : Text :=
  Decimal.write layout x.negative (Decimal.shortest x)

end MarkdownDirectives
