/-!
# Finite binary64 numbers

A finite binary64 number is a sign, a significand below `2 ^ 53` and a scale; its magnitude is
`significand * 2 ^ scale` units of `2 ^ -1074`. A scale above zero goes with a significand of
exactly 53 bits, so every number but zero has one form. Arithmetic is exact on natural numbers and
rounds once, to nearest with ties to even; what would round to an infinity is no number.
-/

namespace MarkdownDirectives

structure Binary64 where
  negative : Bool
  significand : Nat
  scale : Nat
  deriving DecidableEq, Repr

namespace Binary64

/-- How many units make one. -/
def one : Nat := Nat.pow 2 1074

/-- The magnitude in units of `2 ^ -1074`. -/
def units (x : Binary64) : Nat := x.significand * Nat.pow 2 x.scale

def isZero (x : Binary64) : Bool := x.significand == 0

def zero : Binary64 := ⟨false, 0, 0⟩

def negate (x : Binary64) : Binary64 := { x with negative := !x.negative }

/-! ### Rounding -/

def bitLength (n : Nat) : Nat := if n = 0 then 0 else Nat.log2 n + 1

/-- The integer nearest to `num / den`; a tie goes to the even one. -/
def roundRatio (num den : Nat) : Nat :=
  let quotient := num / den
  let twice := 2 * (num % den)
  if twice < den then quotient
  else if den < twice then quotient + 1
  else quotient + quotient % 2

/-- The number nearest to `num / den` units, or none beyond the greatest finite one. -/
def ofUnitRatio (negative : Bool) (num den : Nat) : Option Binary64 :=
  let scale := bitLength (num / den) - 53
  let significand := roundRatio num (den * Nat.pow 2 scale)
  let rounded : Binary64 :=
    if significand = Nat.pow 2 53 then ⟨negative, Nat.pow 2 52, scale + 1⟩
    else ⟨negative, significand, scale⟩
  if 2045 < rounded.scale then none else some rounded

def ofRatio (negative : Bool) (num den : Nat) : Option Binary64 :=
  ofUnitRatio negative (num * one) den

/-- The number nearest to an integer; the integers that occur are far from overflow. -/
def ofInt (i : Int) : Binary64 := (ofRatio (i < 0) i.natAbs 1).getD zero

/-! ### Arithmetic -/

def signedUnits (x : Binary64) : Int := if x.negative then -(x.units : Int) else x.units

/-- The rounded sum; a sum of zero is negative only if both operands are. -/
def add (x y : Binary64) : Option Binary64 :=
  let sum := x.signedUnits + y.signedUnits
  if sum = 0 then some ⟨x.negative && y.negative, 0, 0⟩
  else ofUnitRatio (sum < 0) sum.natAbs 1

def mul (x y : Binary64) : Option Binary64 :=
  ofUnitRatio (x.negative != y.negative) (x.units * y.units) one

def div (x y : Binary64) : Option Binary64 :=
  ofUnitRatio (x.negative != y.negative) (x.units * one) y.units

/-! ### Whole numbers -/

def isWhole (x : Binary64) : Bool := x.units % one == 0

def wholePart (x : Binary64) : Nat := x.units / one

end Binary64

end MarkdownDirectives
