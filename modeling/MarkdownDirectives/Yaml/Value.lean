import MarkdownDirectives.Json.Value
import MarkdownDirectives.Yaml.Event

/-!
# The value of a YAML document

A plain scalar is null, a boolean, an integer, a float or else a string; a quoted or block scalar is
a string unless a tag asks for something else. The keys of a mapping are the texts of scalars, and
the last of several entries with one key wins. Collections nest at most 128 deep, and aliases are
followed at most a hundred times per event.
-/

namespace MarkdownDirectives.Yaml

/-! ### Plain scalars -/

def isNull (t : Text) : Bool := ["null", "Null", "NULL", "~"].any (·.toList == t)

def bool? (t : Text) : Option Bool :=
  if ["true", "True", "TRUE"].any (·.toList == t) then some true
  else if ["false", "False", "FALSE"].any (·.toList == t) then some false
  else none

/-- Digits that begin with a zero but are more than that; they write no number. -/
def hasLeadingZero (t : Text) : Bool :=
  let digits := match t with | c :: rest => if c = '-' || c = '+' then rest else t | [] => []
  1 < digits.length && digits.head? == some '0' && digits.all Char.isDigit

def basedDigits : Text → Option (Nat × Text)
  | '0' :: 'x' :: rest => some (16, rest)
  | '0' :: 'o' :: rest => some (8, rest)
  | '0' :: 'b' :: rest => some (2, rest)
  | _ => none

def digits? (base : Nat) (t : Text) : Option Nat :=
  if t.isEmpty then none
  else
    t.foldlM
      (fun n c => (Json.hexValue c).bind fun d => if d < base then some (base * n + d) else none) 0

def natural? (t : Text) : Option Nat :=
  match (basedDigits t).bind fun (base, rest) => digits? base rest with
  | some n => some n
  | none => if hasLeadingZero t then none else digits? 10 t

def integer? : Text → Option Int
  | '-' :: rest => (natural? rest).map fun n => -(n : Int)
  | '+' :: rest => (natural? rest).map Int.ofNat
  | t => (natural? t).map Int.ofNat

/-- A finite number in decimal notation with an optional point and exponent; digits may be missing
on one side of the point. -/
def decimal? (isNegative : Bool) (t : Text) : Option Binary64 := do
  let (whole, rest) := t.span Char.isDigit
  let (fraction, rest) := match rest with | '.' :: more => more.span Char.isDigit | _ => ([], rest)
  if whole.isEmpty && fraction.isEmpty then none
  else
    let exponent : Int ←
      match rest with
      | [] => some 0
      | c :: more =>
        if c != 'e' && c != 'E' then none
        else
          match more with
          | '-' :: digits => (digits? 10 digits).map fun n => -(n : Int)
          | '+' :: digits => (digits? 10 digits).map Int.ofNat
          | digits => (digits? 10 digits).map Int.ofNat
    Decimal.toBinary64 isNegative
      ⟨Text.digitsValue (whole ++ fraction), exponent - fraction.length⟩

/-- A float; an infinity or a value that is no number is none inside. -/
def float? (t : Text) : Option (Option Binary64) :=
  let isInfinity (t : Text) : Bool := [".inf", ".Inf", ".INF"].any (·.toList == t)
  if [".nan", ".NaN", ".NAN"].any (·.toList == t) then some none
  else
    match t with
    | '-' :: rest => if isInfinity rest then some none else (decimal? true rest).map some
    | '+' :: rest => if isInfinity rest then some none else (decimal? false rest).map some
    | t => if isInfinity t then some none else (decimal? false t).map some

def floatValue : Option Binary64 → Value
  | some x => .ofFloat x
  | none => .null

def integerValue (i : Int) : Option Value :=
  if -(Int.pow 2 63) ≤ i && i < Int.pow 2 64 then some (.number (.integer i)) else none

/-- Whether 128 bits hold an integer; beyond them it reads as a float. -/
def isWide (i : Int) : Bool := -(Int.pow 2 127) ≤ i && i < Int.pow 2 128

/-- The value of a plain scalar without a tag; an integer of more than 64 bits is an error. -/
def plainValue (t : Text) : Option Value :=
  if t.isEmpty || isNull t then some .null
  else
    match bool? t with
    | some b => some (.bool b)
    | none =>
      match (integer? t).filter isWide with
      | some i => integerValue i
      | none =>
        if hasLeadingZero t then some (.string t)
        else
          match float? t with
          | some x => some (floatValue x)
          | none => some (.string t)

/-- The value of a scalar. A tag of the common schema asks for a boolean, an integer, a float or
null; a local tag is an error, and any other one makes a string. -/
def scalarValue (tag : Option Text) (isPlain : Bool) (t : Text) : Option Value :=
  match tag with
  | none => if isPlain then plainValue t else some (.string t)
  | some tag =>
    if tag.head? == some '!' then none
    else if tag = "tag:yaml.org,2002:bool".toList then (bool? t).map .bool
    else if tag = "tag:yaml.org,2002:int".toList then ((integer? t).filter isWide).bind integerValue
    else if tag = "tag:yaml.org,2002:float".toList then (float? t).map floatValue
    else if tag = "tag:yaml.org,2002:null".toList then (if isNull t then some .null else none)
    else some (.string t)

/-! ### Documents -/

def hasLocalTag (tag : Option Text) : Bool :=
  match tag with
  | some tag => tag.head? == some '!'
  | none => false

def nestingLimit : Nat := 128

namespace Document

def target? (document : Document) (anchor : Nat) : Option Nat :=
  (document.anchors.find? (·.1 == anchor)).map (·.2)

/-- A part that was read, the position after it, and how many more aliases may be followed. -/
structure Reading (α : Type) where
  value : α
  position : Nat
  jumps : Nat

def readKey (document : Document) (position jumps : Nat) : Option (Reading Text) :=
  match document.events[position]? with
  | some (.scalar _ _ t) => some ⟨t, position + 1, jumps⟩
  | some (.reference anchor) =>
    if jumps = 0 then none
    else
      match (document.target? anchor).bind (document.events[·]?) with
      | some (.scalar _ _ t) => some ⟨t, position + 1, jumps - 1⟩
      | _ => none
  | _ => none

mutual

def readNode (document : Document) :
    (fuel depth position jumps : Nat) → Option (Reading Value)
  | 0, _, _, _ => none
  | fuel + 1, depth, position, jumps =>
    match document.events[position]? with
    | some (.scalar tag isPlain t) =>
      (scalarValue tag isPlain t).map fun value => ⟨value, position + 1, jumps⟩
    | some (.reference anchor) =>
      if jumps = 0 then none
      else
        (document.target? anchor).bind fun target =>
          (readNode document fuel depth target (jumps - 1)).map fun reading =>
            { reading with position := position + 1 }
    | some (.sequenceStart tag) =>
      if hasLocalTag tag || depth = 0 then none
      else
        (readItems document fuel (depth - 1) (position + 1) jumps).map fun reading =>
          ⟨.array reading.value, reading.position, reading.jumps⟩
    | some (.mappingStart tag) =>
      if hasLocalTag tag || depth = 0 then none
      else
        (readEntries document fuel (depth - 1) (position + 1) jumps).map fun reading =>
          ⟨.object (Fields.ofList reading.value), reading.position, reading.jumps⟩
    | _ => none

def readItems (document : Document) :
    (fuel depth position jumps : Nat) → Option (Reading (List Value))
  | 0, _, _, _ => none
  | fuel + 1, depth, position, jumps =>
    match document.events[position]? with
    | some .sequenceEnd => some ⟨[], position + 1, jumps⟩
    | _ => do
      let first ← readNode document fuel depth position jumps
      let more ← readItems document fuel depth first.position first.jumps
      some { more with value := first.value :: more.value }

def readEntries (document : Document) :
    (fuel depth position jumps : Nat) → Option (Reading (List (Text × Value)))
  | 0, _, _, _ => none
  | fuel + 1, depth, position, jumps =>
    match document.events[position]? with
    | some .mappingEnd => some ⟨[], position + 1, jumps⟩
    | _ => do
      let key ← readKey document position jumps
      let value ← readNode document fuel depth key.position key.jumps
      let more ← readEntries document fuel depth value.position value.jumps
      some { more with value := (key.value, value.value) :: more.value }

end

/-- The value of a document; one without events is null. Each level of nesting takes at most as many
steps as there are events, and one to follow an alias. -/
def value? (document : Document) : Option Value :=
  if document.events.isEmpty then some .null
  else
    let count := document.events.size
    (readNode document ((nestingLimit + 2) * (2 * count + 2)) nestingLimit 0 (100 * count)).map
      (·.value)

end Document

def read? (t : Text) : Option Value := do
  let tokens ← tokens? t
  let document ← Document.ofTokens? tokens
  document.value?

end MarkdownDirectives.Yaml
