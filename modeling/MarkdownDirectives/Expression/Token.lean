import MarkdownDirectives.Expression.Escape
import MarkdownDirectives.Error

/-!
# Tokens of an expression

An expression is cut into tokens from left to right, each as long as possible; blanks between tokens
are skipped. The first character decides the class of a token, so only its length is in question.
Where no token begins, the fault quotes the longest text that could still begin one.
-/

namespace MarkdownDirectives

inductive Token where
  | operation (name : Text)
  /-- The text between the double braces. -/
  | property (path : Text)
  | identifier (name : Text)
  /-- None for a literal beyond the finite numbers. -/
  | number (x : Option Binary64)
  /-- The decoded text and its quotation mark. -/
  | string (value : Text) (quote : Char)
  /-- The text between backticks as written. -/
  | template (inside : Text)
  | dot
  | bracketOpen
  | bracketClose
  | parenOpen
  | parenClose
  | comma
  | plus
  | or
  | and
  | bang
  deriving DecidableEq, Repr

structure PlacedToken where
  token : Token
  offset : Nat
  deriving DecidableEq, Repr

structure Fault where
  offset : Nat
  reason : Text
  deriving DecidableEq, Repr

def inBackticks (t : Text) : Text := '`' :: t ++ ['`']

namespace Token

def shown : Token → Text
  | operation name => '@' :: name
  | property path => '{' :: '{' :: path ++ ['}', '}']
  | identifier name => name
  | number none => "inf".toList
  | number (some x) => x.write Decimal.plainLayout
  | string value quote => quote :: value ++ [quote]
  | template inside => inBackticks inside
  | dot => ['.']
  | bracketOpen => ['[']
  | bracketClose => [']']
  | parenOpen => ['(']
  | parenClose => [')']
  | comma => [',']
  | plus => ['+']
  | or => ['|', '|']
  | and => ['&', '&']
  | bang => ['!']

/-! ### Character classes -/

def isBlank (c : Char) : Bool := c == ' ' || c == '\t' || c == '\r' || c == '\n' || c == '\x0c'

def isNameStart (c : Char) : Bool := c.isAlpha || c == '_'

def isNamePart (c : Char) : Bool := c.isAlphanum || c == '_'

def isIdentifierStart (c : Char) : Bool := isNameStart c || c == '$'

def isIdentifierPart (c : Char) : Bool := isNamePart c || c == '$'

/-! ### Cutting -/

/-- The outcome of looking for a token: its length, or the length of the longest text that could
still begin one. -/
inductive Cut where
  | token (length : Nat)
  | stuck (length : Nat)
  deriving DecidableEq, Repr

def runLength (p : Char → Bool) (t : Text) : Nat := (t.takeWhile p).length

def fractionLength : Text → Nat
  | '.' :: rest => if runLength Char.isDigit rest = 0 then 0 else 1 + runLength Char.isDigit rest
  | _ => 0

/-- The length of an exponent: `e`, an optional sign and at least one digit. -/
def exponentLength : Text → Nat
  | c :: rest =>
    if c = 'e' || c = 'E' then
      let sign := match rest with | s :: _ => if s = '+' || s = '-' then 1 else 0 | [] => 0
      let digits := runLength Char.isDigit (rest.drop sign)
      if digits = 0 then 0 else 1 + sign + digits
    else 0
  | [] => 0

def numberLength (t : Text) : Nat :=
  let whole := runLength Char.isDigit t
  let fraction := fractionLength (t.drop whole)
  whole + fraction + exponentLength (t.drop (whole + fraction))

/-- Looks for the end of a quoted literal whose first `length` characters are passed; a backslash
takes the next character with it, unless that is a line feed. -/
def cutQuoted (quote : Char) : Bool → Nat → Text → Cut
  | _, length, [] => .stuck length
  | true, length, c :: rest =>
    if c = '\n' then .stuck length else cutQuoted quote false (length + 1) rest
  | false, length, c :: rest =>
    if c = quote then .token (length + 1) else cutQuoted quote (c == '\\') (length + 1) rest

def cutProperty : Text → Cut
  | '{' :: rest =>
    let inside := runLength (fun c => c != '{' && c != '}') rest
    match rest.drop inside with
    | '}' :: '}' :: _ => .token (inside + 4)
    | '}' :: _ => .stuck (inside + 3)
    | _ => .stuck (inside + 2)
  | _ => .stuck 1

def cut : Text → Cut
  | [] => .stuck 0
  | c :: rest =>
    if isIdentifierStart c then .token (1 + runLength isIdentifierPart rest)
    else if c.isDigit then .token (numberLength (c :: rest))
    else if c = '@' then
      match rest with
      | d :: _ => if isNameStart d then .token (1 + runLength isNamePart rest) else .stuck 1
      | [] => .stuck 1
    else if c = '{' then cutProperty rest
    else if c = '"' || c = '\'' || c = '`' then cutQuoted c false 1 rest
    else if c = '|' || c = '&' then
      match rest with
      | d :: _ => if d = c then .token 2 else .stuck 1
      | [] => .stuck 1
    else if ".[](),+!".toList.contains c then .token 1
    else .stuck 1

/-! ### Reading a token -/

def numberOf (t : Text) : Option Binary64 :=
  let whole := t.takeWhile Char.isDigit
  -- the length of a fraction counts its point, which is dropped here
  let fraction := (t.drop (whole.length + 1)).take (fractionLength (t.drop whole.length) - 1)
  let tail := t.drop (whole.length + fractionLength (t.drop whole.length))
  let exponent : Int :=
    match tail.drop 1 with
    | '-' :: digits => -(Text.digitsValue digits : Int)
    | '+' :: digits => Text.digitsValue digits
    | digits => Text.digitsValue digits
  Decimal.toBinary64 false ⟨Text.digitsValue (whole ++ fraction), exponent - fraction.length⟩

/-- The token that a text writes as a whole; none if a quoted literal holds a wrong escape. -/
def ofText : Text → Option Token
  | [] => none
  | c :: rest =>
    if isIdentifierStart c then some (.identifier (c :: rest))
    else if c.isDigit then some (.number (numberOf (c :: rest)))
    else
      match c with
      | '@' => some (.operation rest)
      | '{' => some (.property ((rest.drop 1).take (rest.length - 3)))
      | '`' => some (.template rest.dropLast)
      | '"' => (Escape.decode rest.dropLast).map (.string · '"')
      | '\'' => (Escape.decode rest.dropLast).map (.string · '\'')
      | '.' => some .dot
      | '[' => some .bracketOpen
      | ']' => some .bracketClose
      | '(' => some .parenOpen
      | ')' => some .parenClose
      | ',' => some .comma
      | '+' => some .plus
      | '|' => some .or
      | '&' => some .and
      | '!' => some .bang
      | _ => none

/-- Cuts the tokens from a byte offset on, after passing over `skip` characters of a token. -/
def cutFrom : (offset skip : Nat) → Text → Except Fault (List PlacedToken)
  | _, _, [] => .ok []
  | offset, skip + 1, c :: rest => cutFrom (offset + c.utf8Size) skip rest
  | offset, 0, c :: rest =>
    if isBlank c then cutFrom (offset + c.utf8Size) 0 rest
    else
      match cut (c :: rest) with
      | .stuck length =>
        .error ⟨offset, "unexpected character ".toList ++ inBackticks ((c :: rest).take length)⟩
      | .token length =>
        match ofText ((c :: rest).take length) with
        | none => .error ⟨offset, "invalid escape sequence".toList⟩
        | some token =>
          (cutFrom (offset + c.utf8Size) (length - 1) rest).map (⟨token, offset⟩ :: ·)

def tokenize (t : Text) : Except Fault (List PlacedToken) := cutFrom 0 0 t

end Token

end MarkdownDirectives
