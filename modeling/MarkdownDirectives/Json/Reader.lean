import MarkdownDirectives.Json.Value

/-!
# Reading JSON

A JSON text is read into a value, or not at all. Arrays and objects nest at most 127 deep. The last
of several fields with one key wins. An integer within 64 bits stays an integer; every other number
is a float, minus zero included.

A float is the significand formed by as many leading digits as fit 64 bits, rounded, and then
multiplied or divided once by a rounded power of ten. A float beyond the finite ones is an error.
-/

namespace MarkdownDirectives.Json

/-! ### Numbers -/

def greatestSignificand : Nat := Nat.pow 2 64 - 1

/-- Appends digits to a significand as long as it fits, giving also the digits left over. -/
def appendDigits (significand : Nat) : Text → Nat × Text
  | [] => (significand, [])
  | c :: rest =>
    let next := 10 * significand + (c.toNat - '0'.toNat)
    if next ≤ greatestSignificand then appendDigits next rest else (significand, c :: rest)

def powerOfTen (e : Nat) : Binary64 := (Binary64.ofRatio false (Nat.pow 10 e) 1).getD .zero

/-- `x * 10 ^ exponent`, small results being reached in steps of `10 ^ 308`. -/
def scale (x : Binary64) (exponent : Int) : Nat → Option Binary64
  | 0 => none
  | steps + 1 =>
    if exponent.natAbs ≤ 308 then
      if 0 ≤ exponent then x.mul (powerOfTen exponent.natAbs)
      else x.div (powerOfTen exponent.natAbs)
    else if x.isZero then some x
    else if 0 ≤ exponent then none
    else (x.div (powerOfTen 308)).bind fun y => scale y (exponent + 308) steps

structure NumberParts where
  negative : Bool
  whole : Text
  fraction : Option Text
  exponent : Option (Bool × Text)

def NumberParts.toFloat (p : NumberParts) : Option Binary64 :=
  let (first, wholeRest) := appendDigits 0 p.whole
  let fraction := p.fraction.getD []
  let (significand, fractionRest) := appendDigits first fraction
  let shift := (wholeRest.length : Int) - ((fraction.length : Int) - fractionRest.length)
  let zero : Binary64 := ⟨p.negative, 0, 0⟩
  let scaled (exponent : Int) : Option Binary64 :=
    (scale (Binary64.ofInt significand) exponent 5).map fun x =>
      if p.negative then x.negate else x
  match p.exponent with
  | none => scaled shift
  | some (isNegative, digits) =>
    let exponent := Text.digitsValue digits
    if Nat.pow 2 31 ≤ exponent then
      if isNegative || significand = 0 then some zero else none
    else scaled (if isNegative then shift - exponent else shift + exponent)

def NumberParts.toNumber (p : NumberParts) : Option Number :=
  let n := Text.digitsValue p.whole
  if p.fraction.isNone && p.exponent.isNone then
    if p.negative then
      if 0 < n && n ≤ Nat.pow 2 63 then some (.integer (-n)) else p.toFloat.map .float
    else if n ≤ greatestSignificand then some (.integer n)
    else p.toFloat.map .float
  else p.toFloat.map .float

def readDigits (t : Text) : Option (Text × Text) :=
  match t.span Char.isDigit with
  | ([], _) => none
  | (digits, rest) => some (digits, rest)

/-- The digits before the point: a zero at the front stands alone. -/
def readWhole (t : Text) : Option (Text × Text) := do
  let (digits, rest) ← readDigits t
  match digits with
  | '0' :: _ :: _ => none
  | _ => some (digits, rest)

def readFraction (t : Text) : Option (Option Text × Text) :=
  match t with
  | '.' :: rest => (readDigits rest).map fun (digits, rest) => (some digits, rest)
  | _ => some (none, t)

def readExponentDigits (negative : Bool) (t : Text) : Option (Option (Bool × Text) × Text) :=
  (readDigits t).map fun (digits, rest) => (some (negative, digits), rest)

def readExponent (t : Text) : Option (Option (Bool × Text) × Text) :=
  match t with
  | c :: rest =>
    if c = 'e' || c = 'E' then
      match rest with
      | '-' :: rest => readExponentDigits true rest
      | '+' :: rest => readExponentDigits false rest
      | _ => readExponentDigits false rest
    else some (none, t)
  | [] => some (none, t)

def readNumber (t : Text) : Option (Number × Text) := do
  let (negative, t) := match t with | '-' :: rest => (true, rest) | _ => (false, t)
  let (whole, t) ← readWhole t
  let (fraction, t) ← readFraction t
  let (exponent, t) ← readExponent t
  let number ← NumberParts.toNumber ⟨negative, whole, fraction, exponent⟩
  some (number, t)

/-! ### Strings -/

def hexValue (c : Char) : Option Nat :=
  if c.isDigit then some (c.toNat - '0'.toNat)
  else if 'a' ≤ c && c ≤ 'f' then some (c.toNat - 'a'.toNat + 10)
  else if 'A' ≤ c && c ≤ 'F' then some (c.toNat - 'A'.toNat + 10)
  else none

def hexNumber (t : Text) : Option Nat :=
  t.foldlM (fun n c => (hexValue c).map (16 * n + ·)) 0

/-- The character of a code point that is a Unicode scalar value. -/
def scalar? (n : Nat) : Option Char :=
  if h : n.isValidChar then some (Char.ofNatAux n h) else none

def shortEscape : Char → Option Char
  | '"' => some '"'
  | '\\' => some '\\'
  | '/' => some '/'
  | 'b' => some '\x08'
  | 'f' => some '\x0c'
  | 'n' => some '\n'
  | 'r' => some '\r'
  | 't' => some '\t'
  | _ => none

/-- The rest of a string after its opening quote. A code point above `U+FFFF` may be written as a
pair of surrogates; a surrogate without its partner is an error. -/
def readString : Text → Option (Text × Text)
  | [] => none
  | '"' :: rest => some ([], rest)
  | '\\' :: 'u' :: a :: b :: c :: d :: rest => do
    let unit ← hexNumber [a, b, c, d]
    if 0xD800 ≤ unit && unit < 0xDC00 then
      match rest with
      | '\\' :: 'u' :: e :: f :: g :: h :: rest =>
        let low ← hexNumber [e, f, g, h]
        if 0xDC00 ≤ low && low < 0xE000 then
          let c ← scalar? (0x10000 + (unit - 0xD800) * 0x400 + (low - 0xDC00))
          let (t, rest) ← readString rest
          some (c :: t, rest)
        else none
      | _ => none
    else
      let c ← scalar? unit
      let (t, rest) ← readString rest
      some (c :: t, rest)
  | '\\' :: c :: rest => do
    let c ← shortEscape c
    let (t, rest) ← readString rest
    some (c :: t, rest)
  | c :: rest =>
    if c.toNat < 32 then none
    else do
      let (t, rest) ← readString rest
      some (c :: t, rest)

/-! ### Values -/

def isJsonBlank (c : Char) : Bool := c == ' ' || c == '\t' || c == '\n' || c == '\r'

def skipBlanks (t : Text) : Text := t.dropWhile isJsonBlank

def nestingLimit : Nat := 127

mutual

/-- Reads a value; `depth` more levels may be opened, and `fuel` bounds the number of steps. -/
def readValue (depth : Nat) : Nat → Text → Option (Value × Text)
  | 0, _ => none
  | fuel + 1, t =>
    match t with
    | 'n' :: 'u' :: 'l' :: 'l' :: rest => some (.null, rest)
    | 't' :: 'r' :: 'u' :: 'e' :: rest => some (.bool true, rest)
    | 'f' :: 'a' :: 'l' :: 's' :: 'e' :: rest => some (.bool false, rest)
    | '"' :: rest => (readString rest).map fun (s, rest) => (.string s, rest)
    | '[' :: rest =>
      if depth = 0 then none
      else
        match skipBlanks rest with
        | ']' :: rest => some (.array [], rest)
        | rest => (readItems (depth - 1) fuel rest).map fun (items, rest) => (.array items, rest)
    | '{' :: rest =>
      if depth = 0 then none
      else
        match skipBlanks rest with
        | '}' :: rest => some (.object [], rest)
        | rest =>
          (readFields (depth - 1) fuel rest).map fun (fields, rest) =>
            (.object (Fields.ofList fields), rest)
    | t => (readNumber t).map fun (n, rest) => (.number n, rest)

def readItems (depth : Nat) : Nat → Text → Option (List Value × Text)
  | 0, _ => none
  | fuel + 1, t => do
    let (item, rest) ← readValue depth fuel (skipBlanks t)
    match skipBlanks rest with
    | ',' :: rest =>
      let (more, rest) ← readItems depth fuel rest
      some (item :: more, rest)
    | ']' :: rest => some ([item], rest)
    | _ => none

def readFields (depth : Nat) : Nat → Text → Option (List (Text × Value) × Text)
  | 0, _ => none
  | fuel + 1, t =>
    match skipBlanks t with
    | '"' :: rest => do
      let (key, rest) ← readString rest
      match skipBlanks rest with
      | ':' :: rest =>
        let (value, rest) ← readValue depth fuel (skipBlanks rest)
        match skipBlanks rest with
        | ',' :: rest =>
          let (more, rest) ← readFields depth fuel rest
          some ((key, value) :: more, rest)
        | '}' :: rest => some ([(key, value)], rest)
        | _ => none
      | _ => none
    | _ => none

end

/-- Reads a whole JSON text; every step of the reader uses up a character. -/
def read? (t : Text) : Option Value := do
  let (value, rest) ← readValue nestingLimit (2 * t.length + 2) (skipBlanks t)
  if (skipBlanks rest).isEmpty then some value else none

end MarkdownDirectives.Json
