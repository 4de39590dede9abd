import MarkdownDirectives.Json.Reader

/-!
# TOML strings

A basic string stands between quotation marks and may hold escapes; a literal string stands between
apostrophes and holds none. Three marks at either end make a string of several lines: a line break
right after the opening marks does not count, and up to two marks may stand before the closing ones.
In a basic string of several lines a backslash at the end of a line drops the line break and the
blanks after it.
-/

namespace MarkdownDirectives.Toml.Quoted

/-- Tab, printable ASCII and everything beyond ASCII. -/
def isPrintable (c : Char) : Bool := c == '\t' || (32 ≤ c.toNat && c.toNat != 127)

def isSpace (c : Char) : Bool := c == ' ' || c == '\t'

def shortEscape : Char → Option Char
  | 'b' => some '\x08'
  | 't' => some '\t'
  | 'n' => some '\n'
  | 'f' => some '\x0c'
  | 'r' => some '\r'
  | 'e' => some '\x1b'
  | '"' => some '"'
  | '\\' => some '\\'
  | _ => none

def coded (digits : Text) : Option Char := (Json.hexNumber digits).bind Json.scalar?

/-- The character of the escape at the front of a text, after its backslash. -/
def escape? : Text → Option (Char × Text)
  | 'x' :: a :: b :: rest => (coded [a, b]).map (·, rest)
  | 'u' :: a :: b :: c :: d :: rest => (coded [a, b, c, d]).map (·, rest)
  | 'U' :: a :: b :: c :: d :: e :: f :: g :: h :: rest =>
    (coded [a, b, c, d, e, f, g, h]).map (·, rest)
  | c :: rest => (shortEscape c).map (·, rest)
  | [] => none

/-- The rest of a basic string after its opening mark; `fuel` bounds its length. -/
def basic : (fuel : Nat) → Text → Option (Text × Text)
  | 0, _ => none
  | _ + 1, [] => none
  | _ + 1, '"' :: rest => some ([], rest)
  | fuel + 1, '\\' :: rest => do
    let (c, rest) ← escape? rest
    let (t, rest) ← basic fuel rest
    some (c :: t, rest)
  | fuel + 1, c :: rest =>
    if isPrintable c then (basic fuel rest).map fun (t, rest) => (c :: t, rest) else none

def literal : Text → Option (Text × Text)
  | [] => none
  | c :: rest =>
    if c = '\'' then some ([], rest)
    else if isPrintable c then (literal rest).map fun (t, rest) => (c :: t, rest)
    else none

def dropBreak? : Text → Option Text
  | '\n' :: rest => some rest
  | '\r' :: '\n' :: rest => some rest
  | _ => none

def dropBreak (t : Text) : Text := (dropBreak? t).getD t

/-- The marks before the closing ones, and the rest after these. -/
def closing? (mark : Char) (t : Text) : Option (Text × Text) :=
  let count := (t.takeWhile (· == mark)).length
  if count < 3 then none else some (List.replicate (min count 5 - 3) mark, t.drop (min count 5))

/-- The rest of a basic string of several lines. While `isTrimming`, blanks and line breaks are
dropped. -/
def basicLines : (isTrimming : Bool) → (fuel : Nat) → Text → Option (Text × Text)
  | _, 0, _ => none
  | _, _ + 1, [] => none
  | true, fuel + 1, c :: rest =>
    if isSpace c then basicLines true fuel rest
    else
      match dropBreak? (c :: rest) with
      | some rest => basicLines true fuel rest
      | none => basicLines false fuel (c :: rest)
  | false, fuel + 1, c :: rest =>
    match closing? '"' (c :: rest) with
    | some ending => some ending
    | none =>
      if c = '\\' then
        match dropBreak? (rest.dropWhile isSpace) with
        | some rest => basicLines true fuel rest
        | none => do
          let (c, rest) ← escape? rest
          let (t, rest) ← basicLines false fuel rest
          some (c :: t, rest)
      else if isPrintable c || (dropBreak? (c :: rest)).isSome then
        (basicLines false fuel rest).map fun (t, rest) => (c :: t, rest)
      else none

def literalLines : Text → Option (Text × Text)
  | [] => none
  | c :: rest =>
    match closing? '\'' (c :: rest) with
    | some ending => some ending
    | none =>
      if isPrintable c || (dropBreak? (c :: rest)).isSome then
        (literalLines rest).map fun (t, rest) => (c :: t, rest)
      else none

def line? : Text → Option (Text × Text)
  | '"' :: rest => basic (rest.length + 1) rest
  | '\'' :: rest => literal rest
  | _ => none

def read? : Text → Option (Text × Text)
  | '"' :: '"' :: '"' :: rest => basicLines false (2 * rest.length + 1) (dropBreak rest)
  | '\'' :: '\'' :: '\'' :: rest => literalLines (dropBreak rest)
  | t => line? t

end MarkdownDirectives.Toml.Quoted
