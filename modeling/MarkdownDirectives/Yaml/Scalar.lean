import MarkdownDirectives.Json.Reader
import MarkdownDirectives.Yaml.Cursor

/-!
# Scalars as written

A scalar is plain, quoted or a block. Plain and quoted scalars may run over several lines: a single
line break between two parts reads as a space, and of several the first is dropped. A block scalar
keeps its line breaks, or folds them between lines that do not begin with a blank; what happens to
the breaks at its end is said by its header.
-/

namespace MarkdownDirectives.Yaml

/-! ### Gaps -/

/-- The blanks and breaks between two parts of a scalar. -/
structure Gap where
  blanks : Text := []
  first : Text := []
  /-- The breaks after the first one. -/
  further : Text := []
  crossesLine : Bool := false

namespace Gap

def text (gap : Gap) : Text :=
  if gap.crossesLine then
    if gap.first == ['\n'] then (if gap.further.isEmpty then [' '] else gap.further)
    else gap.first ++ gap.further
  else gap.blanks

/-- Reads the gap at a cursor. A tab left of the column `least` on a further line is an error. -/
def read (least : Nat) : (fuel : Nat) → Gap → Cursor → Option (Gap × Cursor)
  | 0, _, _ => none
  | fuel + 1, gap, cursor =>
    match cursor.peek? with
    | none => some (gap, cursor)
    | some c =>
      if isBlank c then
        if gap.crossesLine then
          if c = '\t' && cursor.column < least then none else read least fuel gap (cursor.skip 1)
        else read least fuel { gap with blanks := gap.blanks ++ [c] } (cursor.skip 1)
      else if isBreak c then
        let (text, cursor) := cursor.readBreak
        if gap.crossesLine then read least fuel { gap with further := gap.further ++ text } cursor
        -- blanks at the end of a line are dropped
        else read least fuel { first := text, crossesLine := true } cursor
      else some (gap, cursor)

end Gap

/-! ### Plain scalars -/

def isFlowMark (c : Char) : Bool := c == ',' || c == '[' || c == ']' || c == '{' || c == '}'

/-- The part of a plain scalar up to a blank, a break or what ends the scalar; none if a colon
stands before a flow mark. -/
def plainPart (inFlow : Bool) : Text → Option Text
  | [] => some []
  | c :: rest =>
    if isBlank c || isBreak c then some []
    else
      let beforeGap := match rest with | [] => true | d :: _ => isBlank d || isBreak d
      let beforeMark := match rest with | [] => false | d :: _ => isFlowMark d || d == '?'
      if inFlow && c == ':' && beforeMark then none
      else if (c == ':' && beforeGap) || (inFlow && isFlowMark c) then some []
      else (plainPart inFlow rest).map (c :: ·)

/-- Reads the parts of a plain scalar whose further lines are indented to column `least`, after what
was read so far and a gap. Gives also whether the scalar ends on a further line. -/
def plainFrom (inFlow : Bool) (least : Nat) :
    (fuel : Nat) → Text → Gap → Cursor → Option (Text × Bool × Cursor)
  | 0, _, _, _ => none
  | fuel + 1, done, gap, cursor =>
    if cursor.isAtDocumentMarker || cursor.has '#' then some (done, gap.crossesLine, cursor)
    else do
      let part ← plainPart inFlow cursor.rest
      if part.isEmpty then some (done, gap.crossesLine, cursor)
      else
        let done := done ++ gap.text ++ part
        let cursor := cursor.skip part.length
        if cursor.isAtBlank || cursor.isAtBreak then
          let (gap, cursor) ← Gap.read least (cursor.rest.length + 1) {} cursor
          if !inFlow && cursor.column < least then some (done, gap.crossesLine, cursor)
          else plainFrom inFlow least fuel done gap cursor
        else some (done, false, cursor)

def plain (inFlow : Bool) (least : Nat) (cursor : Cursor) : Option (Text × Bool × Cursor) :=
  plainFrom inFlow least (cursor.rest.length + 1) [] {} cursor

/-! ### Quoted scalars -/

def shortEscape : Char → Option Char
  | '0' => some '\x00'
  | 'a' => some '\x07'
  | 'b' => some '\x08'
  | 't' => some '\t'
  | '\t' => some '\t'
  | 'n' => some '\n'
  | 'v' => some '\x0b'
  | 'f' => some '\x0c'
  | 'r' => some '\r'
  | 'e' => some '\x1b'
  | ' ' => some ' '
  | '"' => some '"'
  | '/' => some '/'
  | '\\' => some '\\'
  | 'N' => some '\u0085'
  | '_' => some '\u00A0'
  | 'L' => some '\u2028'
  | 'P' => some '\u2029'
  | _ => none

/-- The number of hexadecimal digits after the letter of a coded escape. -/
def codedLength : Char → Option Nat
  | 'x' => some 2
  | 'u' => some 4
  | 'U' => some 8
  | _ => none

def escape? (t : Text) : Option (Char × Nat) := do
  let letter ← t.head?
  match codedLength letter with
  | some length =>
    let digits := (t.drop 1).take length
    if digits.length < length then none
    else
      let c ← (Json.hexNumber digits).bind Json.scalar?
      some (c, length + 1)
  | none => (shortEscape letter).map (·, 1)

inductive PartEnd where
  | quote
  | gap
  | joined

def quotedPart (isSingle : Bool) : (fuel : Nat) → Cursor → Option (Text × PartEnd × Cursor)
  | 0, _ => none
  | fuel + 1, cursor =>
    match cursor.peek? with
    | none => some ([], .gap, cursor)
    | some c =>
      if isBlank c || isBreak c then some ([], .gap, cursor)
      else if isSingle && c == '\'' && cursor.hasAt 1 '\'' then do
        let (t, ending, cursor) ← quotedPart isSingle fuel (cursor.skip 2)
        some ('\'' :: t, ending, cursor)
      else if c == (if isSingle then '\'' else '"') then some ([], .quote, cursor.skip 1)
      else if !isSingle && c == '\\' then
        if (cursor.skip 1).isAtBreak then some ([], .joined, (cursor.skip 1).readBreak.2)
        else do
          let (d, length) ← escape? (cursor.rest.drop 1)
          let (t, ending, cursor) ← quotedPart isSingle fuel (cursor.skip (length + 1))
          some (d :: t, ending, cursor)
      else do
        let (t, ending, cursor) ← quotedPart isSingle fuel (cursor.skip 1)
        some (c :: t, ending, cursor)

def quotedFrom (isSingle : Bool) : (fuel : Nat) → Text → Cursor → Option (Text × Cursor)
  | 0, _, _ => none
  | fuel + 1, done, cursor =>
    if cursor.isAtDocumentMarker || cursor.isAtEnd then none
    else do
      let (part, ending, cursor) ← quotedPart isSingle (cursor.rest.length + 1) cursor
      match ending with
      | .quote => some (done ++ part, cursor)
      | .gap =>
        let (gap, cursor) ← Gap.read 0 (cursor.rest.length + 1) {} cursor
        quotedFrom isSingle fuel (done ++ part ++ gap.text) cursor
      | .joined =>
        let (gap, cursor) ← Gap.read 0 (cursor.rest.length + 1) { crossesLine := true } cursor
        quotedFrom isSingle fuel (done ++ part ++ gap.text) cursor

def quoted (isSingle : Bool) (cursor : Cursor) : Option (Text × Cursor) :=
  quotedFrom isSingle (cursor.rest.length + 1) [] (cursor.skip 1)

/-! ### Block scalars -/

inductive Chomping where
  | strip
  | clip
  | keep
  deriving DecidableEq

def chomping? : Option Char → Option Chomping
  | some '+' => some .keep
  | some '-' => some .strip
  | _ => none

/-- The depth that an indentation indicator states; a zero is an error. -/
def indentation? (cursor : Cursor) : Option (Option Nat × Cursor) :=
  match cursor.peek? with
  | some c =>
    if c = '0' then none
    else if c.isDigit then some (some (c.toNat - '0'.toNat), cursor.skip 1)
    else some (none, cursor)
  | none => some (none, cursor)

/-- The indicators of a block header, which come in either order. -/
def blockHeader (cursor : Cursor) : Option (Chomping × Option Nat × Cursor) := do
  match chomping? cursor.peek? with
  | some chomping =>
    let (depth, cursor) ← indentation? (cursor.skip 1)
    some (chomping, depth, cursor)
  | none =>
    let (depth, cursor) ← indentation? cursor
    match depth, chomping? cursor.peek? with
    | some _, some chomping => some (chomping, depth, cursor.skip 1)
    | _, _ => some (.clip, depth, cursor)

/-- Passes over empty lines and the indentation after them; a depth of zero is still to be found.
Gives the breaks and the deepest column seen. -/
def blockBreaks (depth : Nat) : (fuel : Nat) → Text → Nat → Cursor → Option (Text × Nat × Cursor)
  | 0, _, _, _ => none
  | fuel + 1, breaks, deepest, cursor =>
    let spaces := (cursor.rest.takeWhile (· == ' ')).length
    let cursor := cursor.skip (if depth = 0 then spaces else min spaces (depth - cursor.column))
    let deepest := max deepest cursor.column
    if (depth = 0 || cursor.column < depth) && cursor.has '\t' then none
    else if cursor.isAtBreak then
      let (text, cursor) := cursor.readBreak
      blockBreaks depth fuel (breaks ++ text) deepest cursor
    else some (breaks, deepest, cursor)

structure Block where
  done : Text := []
  first : Text := []
  further : Text := []
  /-- Whether the last line begins with a blank. -/
  afterBlank : Bool := false

/-- The text before the next line; a single break between two lines that do not begin with a blank
is folded. -/
def Block.joined (block : Block) (isLiteral beforeBlank : Bool) : Text :=
  if !isLiteral && block.first == ['\n'] && !block.afterBlank && !beforeBlank then
    block.done ++ (if block.further.isEmpty then [' '] else []) ++ block.further
  else block.done ++ block.first ++ block.further

def blockLines (isLiteral : Bool) (depth : Nat) :
    (fuel : Nat) → Block → Cursor → Option (Block × Cursor)
  | 0, _, _ => none
  | fuel + 1, block, cursor =>
    if cursor.column == depth && !cursor.isAtEnd then do
      let isBlankLine := cursor.isAtBlank
      let (line, next) := cursor.readWhile (!isBreak ·)
      let (first, next) := next.readBreak
      let (further, _, next) ← blockBreaks depth (next.rest.length + 1) [] 0 next
      blockLines isLiteral depth fuel
        ⟨block.joined isLiteral isBlankLine ++ line, first, further, isBlankLine⟩ next
    else some (block, cursor)

/-- Reads the block scalar at a cursor inside a collection indented to `indent`, `-1` being none. -/
def block (isLiteral : Bool) (indent : Int) (cursor : Cursor) : Option (Text × Cursor) := do
  let (chomping, depth, cursor) ← blockHeader (cursor.skip 1)
  let cursor ← cursor.endLine?
  let stated := match depth with | some n => (max indent 0).toNat + n | none => 0
  let (breaks, deepest, cursor) ← blockBreaks stated (cursor.rest.length + 1) [] 0 cursor
  let depth := if stated = 0 then max deepest (max (indent + 1) 1).toNat else stated
  let (block, cursor) ←
    blockLines isLiteral depth (cursor.rest.length + 1) { further := breaks } cursor
  match chomping with
  | .strip => some (block.done, cursor)
  | .clip => some (block.done ++ block.first, cursor)
  | .keep => some (block.done ++ block.first ++ block.further, cursor)

end MarkdownDirectives.Yaml
