import MarkdownDirectives.Text.Pattern
import MarkdownDirectives.Text.Word
import MarkdownDirectives.Error

/-!
# Property paths

A property path is a word followed by steps: `.word`, `[digits]`, `['text']` or `["text"]`, blanks
being allowed inside the brackets. Each step selects a key or a position. Digits may be any decimal
digits as far as the shape goes, but only ASCII digits of a number below `2 ^ 64` make a position.

One pattern takes a path as a whole. The segments after the first are then searched for by a second
pattern, in what is left of the path from its first point or bracket on.
-/

namespace MarkdownDirectives

inductive Segment where
  | key (name : Text)
  | index (position : Nat)
  deriving DecidableEq, Repr

abbrev PropertyPath := List Segment

namespace PropertyPath

/-! ### Patterns -/

def blanks : Pattern := .many (.char Text.isBlank)

def word : Pattern := .many1 (.char Text.isWord)

def digits : Pattern := .many1 (.char Text.isDecimalDigit)

def others (quote : Char) : Pattern := .many (.char (· != quote))

/-- The expression `\s*(\w+(?:\.\w+|\[\s*(?:\d+|'[^']*'|"[^"]*")\s*\])*)\s*` -/
def pathPattern : Pattern :=
  blanks ++
    .group 1 (word ++ .many (.either (.literal '.' ++ word)
      (.literal '[' ++ blanks ++
        .either digits (.either (.between '\'' (others '\'')) (.between '"' (others '"'))) ++
        blanks ++ .literal ']'))) ++
    blanks

/-- The expression `\.(\w+)|\[\s*(?:(\d+)|'([^']*)'|"([^"]*)")\s*\]` -/
def segmentPattern : Pattern :=
  .either (.literal '.' ++ .group 1 word)
    (.literal '[' ++ blanks ++
      .either (.group 2 digits)
        (.either (.between '\'' (.group 3 (others '\'')))
          (.between '"' (.group 4 (others '"')))) ++
      blanks ++ .literal ']')

/-! ### Reading -/

def position? (digits : Text) : Option Nat :=
  if digits.all Char.isDigit && Text.digitsValue digits < Nat.pow 2 64 then
    some (Text.digitsValue digits)
  else none

/-- The segments that a piece of a path gives: one for a match, none for what stands between. -/
def segments? : Pattern.Piece → Option (List Segment)
  | .text _ => some []
  | .found groups =>
    match (groups.lookup 1).or ((groups.lookup 3).or (groups.lookup 4)), groups.lookup 2 with
    | some name, _ => some [.key name]
    | none, some digits => (position? digits).map fun position => [.index position]
    | none, none => some []

/-- The path that a text writes, up to blanks around it. -/
def parse? (t : Text) : Option PropertyPath := do
  let groups ← pathPattern.whole? t
  let path ← groups.lookup 1
  let (head, rest) := path.span fun c => c != '.' && c != '['
  let more ← (segmentPattern.search 0 rest).mapM segments?
  return .key head :: more.flatten

/-! ### Writing -/

def showStep : Segment → Text
  | .key name => '.' :: name
  | .index position => '[' :: Text.ofNat position ++ [']']

/-- A path with a point before every key but the first. -/
def shown : PropertyPath → Text
  | [] => []
  | .key name :: more => name ++ more.flatMap showStep
  | segment :: more => showStep segment ++ more.flatMap showStep

end PropertyPath

end MarkdownDirectives
