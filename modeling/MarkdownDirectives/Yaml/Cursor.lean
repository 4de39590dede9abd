import MarkdownDirectives.Text.Basic

/-!
# Positions in a YAML text

A cursor is the rest of a text with the line, column and index at which it begins. Line breaks are
`CR LF`, `CR`, `LF`, `U+0085`, `U+2028` and `U+2029`; all but the last two count as a line feed.
-/

namespace MarkdownDirectives.Yaml

/-! ### Characters -/

/-- The characters that a YAML text may hold. -/
def isAllowed (c : Char) : Bool :=
  let n := c.toNat
  n == 9 || n == 10 || n == 13 || (32 ≤ n && n ≤ 126) || n == 0x85 || (0xA0 ≤ n && n ≤ 0xFFFD) ||
    0x10000 ≤ n

def isBlank (c : Char) : Bool := c == ' ' || c == '\t'

def isBreak (c : Char) : Bool :=
  c == '\n' || c == '\r' || c == '\u0085' || c == '\u2028' || c == '\u2029'

/-- The characters of anchors, directive names and tag handles. -/
def isNamePart (c : Char) : Bool := c.isAlphanum || c == '_' || c == '-'

structure Cursor where
  rest : Text
  line : Nat
  column : Nat
  index : Nat

namespace Cursor

def start (t : Text) : Cursor := ⟨t, 0, 0, 0⟩

def at? (cursor : Cursor) (n : Nat) : Option Char := cursor.rest[n]?

def peek? (cursor : Cursor) : Option Char := cursor.rest.head?

def isAtEnd (cursor : Cursor) : Bool := cursor.rest.isEmpty

def hasAt (cursor : Cursor) (n : Nat) (c : Char) : Bool := cursor.at? n == some c

def has (cursor : Cursor) (c : Char) : Bool := cursor.hasAt 0 c

/-- Whether the character `n` places further on satisfies `p`, the end of the text counting as
`atEnd`. -/
def satisfiesAt (cursor : Cursor) (n : Nat) (atEnd : Bool) (p : Char → Bool) : Bool :=
  match cursor.at? n with
  | some c => p c
  | none => atEnd

def isAtBlank (cursor : Cursor) : Bool := cursor.satisfiesAt 0 false isBlank

def isAtBreak (cursor : Cursor) : Bool := cursor.satisfiesAt 0 false isBreak

def isGapAt (cursor : Cursor) (n : Nat) : Bool :=
  cursor.satisfiesAt n true fun c => isBlank c || isBreak c

def isAtLineEnd (cursor : Cursor) : Bool := cursor.satisfiesAt 0 true isBreak

def skip (cursor : Cursor) (n : Nat) : Cursor :=
  let n := min n cursor.rest.length
  ⟨cursor.rest.drop n, cursor.line, cursor.column + n, cursor.index + n⟩

/-- Passes over a line break, giving what it counts as. -/
def readBreak (cursor : Cursor) : Text × Cursor :=
  match cursor.rest with
  | '\r' :: '\n' :: rest => (['\n'], ⟨rest, cursor.line + 1, 0, cursor.index + 2⟩)
  | c :: rest =>
    if isBreak c then
      (if c = '\u2028' || c = '\u2029' then [c] else ['\n'],
        ⟨rest, cursor.line + 1, 0, cursor.index + 1⟩)
    else ([], cursor)
  | [] => ([], cursor)

def readWhile (cursor : Cursor) (p : Char → Bool) : Text × Cursor :=
  let t := cursor.rest.takeWhile p
  (t, cursor.skip t.length)

def skipWhile (cursor : Cursor) (p : Char → Bool) : Cursor := (cursor.readWhile p).2

def skipComment (cursor : Cursor) : Cursor :=
  if cursor.has '#' then cursor.skipWhile (!isBreak ·) else cursor

/-- Passes over blanks, a comment and a line break, if nothing else is left on the line. -/
def endLine? (cursor : Cursor) : Option Cursor :=
  let cursor := (cursor.skipWhile isBlank).skipComment
  if cursor.isAtLineEnd then some cursor.readBreak.2 else none

/-- Whether a line of three marks `c` begins here, which starts or ends a document. -/
def isAtMarker (cursor : Cursor) (c : Char) : Bool :=
  cursor.column == 0 && cursor.has c && cursor.hasAt 1 c && cursor.hasAt 2 c && cursor.isGapAt 3

def isAtDocumentMarker (cursor : Cursor) : Bool := cursor.isAtMarker '-' || cursor.isAtMarker '.'

end Cursor

end MarkdownDirectives.Yaml
