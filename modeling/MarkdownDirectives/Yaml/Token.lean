import MarkdownDirectives.Yaml.Scalar
import MarkdownDirectives.Yaml.Tag

/-!
# YAML tokens

The structure of a YAML text shows in its indentation: a deeper entry or key opens a block
collection, and a line further left closes it. That something was a key shows only at the colon
after it, so the places where a key may have begun are remembered, one for each open flow
collection; such a key stays within a line and 1024 characters.
-/

namespace MarkdownDirectives.Yaml

inductive Token where
  | directive (d : Directive)
  | documentStart
  | documentEnd
  | blockSequenceStart
  | blockMappingStart
  | blockEnd
  | flowSequenceStart
  | flowSequenceEnd
  | flowMappingStart
  | flowMappingEnd
  | blockEntry
  | flowEntry
  | key
  | value
  | reference (name : Text)
  | anchor (name : Text)
  | tag (t : Tag)
  | scalar (isPlain : Bool) (t : Text)
  deriving Inhabited

structure KeyPlace where
  isRequired : Bool
  number : Nat
  line : Nat
  column : Nat
  index : Nat

structure Scan where
  cursor : Cursor
  tokens : Array Token := #[]
  flowLevel : Nat := 0
  /-- The column of the innermost block collection, `-1` if there is none. -/
  indent : Int := -1
  indents : List Int := []
  allowsKey : Bool := true
  /-- The possible key of the innermost flow collection, and those around it. -/
  key : Option KeyPlace := none
  keys : List (Option KeyPlace) := []

namespace Scan

def inFlow (scan : Scan) : Bool := scan.flowLevel != 0

def add (scan : Scan) (token : Token) : Scan := { scan with tokens := scan.tokens.push token }

def addMark (scan : Scan) (token : Token) (n : Nat) : Scan :=
  { scan.add token with cursor := scan.cursor.skip n }

/-! ### Keys -/

def isStale (cursor : Cursor) (place : KeyPlace) : Bool :=
  place.line < cursor.line || place.index + 1024 < cursor.index

/-- Forgets a possible key that lies too far back; a required one must not. -/
def freshen (cursor : Cursor) : Option KeyPlace → Option (Option KeyPlace)
  | none => some none
  | some place =>
    if !isStale cursor place then some (some place)
    else if place.isRequired then none
    else some none

def dropStaleKeys (scan : Scan) : Option Scan := do
  let key ← freshen scan.cursor scan.key
  let keys ← scan.keys.mapM (freshen scan.cursor)
  some { scan with key := key, keys := keys }

def dropKey (scan : Scan) : Option Scan :=
  match scan.key with
  | some place => if place.isRequired then none else some { scan with key := none }
  | none => some scan

def saveKey (scan : Scan) : Option Scan :=
  if scan.allowsKey then
    scan.dropKey.map fun scan =>
      { scan with
        key := some
          { isRequired := !scan.inFlow && scan.indent == scan.cursor.column
            number := scan.tokens.size
            line := scan.cursor.line
            column := scan.cursor.column
            index := scan.cursor.index } }
  else some scan

/-! ### Indentation -/

/-- Opens a block collection at a column if it is deeper, its token coming after `number` others. -/
def indentTo (scan : Scan) (column number : Nat) (token : Token) : Scan :=
  if !scan.inFlow && scan.indent < column then
    { scan with
      indents := scan.indent :: scan.indents
      indent := column
      tokens := scan.tokens.insertIdxIfInBounds number token }
  else scan

/-- Closes the block collections that are deeper than a column. -/
def unindent (column : Int) : List Int → Int → Array Token → List Int × Int × Array Token
  | [], indent, tokens => ([], indent, tokens)
  | outer :: more, indent, tokens =>
    if column < indent then unindent column more outer (tokens.push .blockEnd)
    else (outer :: more, indent, tokens)

def unindentTo (scan : Scan) (column : Int) : Scan :=
  if scan.inFlow then scan
  else
    let (indents, indent, tokens) := unindent column scan.indents scan.indent scan.tokens
    { scan with indents := indents, indent := indent, tokens := tokens }

/-! ### Blanks and comments -/

/-- Passes over blanks, comments and line breaks. Outside flow collections a line break allows a
key, and a tab is no blank where a key may begin. -/
def skipFiller : (fuel : Nat) → Scan → Scan
  | 0, scan => scan
  | fuel + 1, scan =>
    let isFiller (c : Char) : Bool := c == ' ' || ((scan.inFlow || !scan.allowsKey) && c == '\t')
    let cursor := (scan.cursor.skipWhile isFiller).skipComment
    if cursor.isAtBreak then
      skipFiller fuel
        { scan with cursor := cursor.readBreak.2, allowsKey := scan.allowsKey || !scan.inFlow }
    else { scan with cursor := cursor }

/-! ### Tokens -/

def closeBlocks (scan : Scan) : Option Scan :=
  (scan.unindentTo (-1)).dropKey.map fun scan => { scan with allowsKey := false }

def flowStart (scan : Scan) (token : Token) : Option Scan :=
  scan.saveKey.map fun scan =>
    { scan.addMark token 1 with
      keys := scan.key :: scan.keys
      key := none
      flowLevel := scan.flowLevel + 1
      allowsKey := true }

def flowEnd (scan : Scan) (token : Token) : Option Scan :=
  scan.dropKey.map fun scan =>
    let scan := { scan.addMark token 1 with allowsKey := false }
    match scan.keys with
    | key :: keys => { scan with key := key, keys := keys, flowLevel := scan.flowLevel - 1 }
    | [] => scan

def flowEntry (scan : Scan) : Option Scan :=
  scan.dropKey.map fun scan => { scan.addMark .flowEntry 1 with allowsKey := true }

def openBlock (scan : Scan) (token : Token) : Option Scan :=
  if scan.inFlow then some scan
  else if scan.allowsKey then some (scan.indentTo scan.cursor.column scan.tokens.size token)
  else none

def blockEntry (scan : Scan) : Option Scan := do
  let scan ← scan.openBlock .blockSequenceStart
  let scan ← scan.dropKey
  some { scan.addMark .blockEntry 1 with allowsKey := true }

def keyMark (scan : Scan) : Option Scan := do
  let scan ← scan.openBlock .blockMappingStart
  let scan ← scan.dropKey
  some { scan.addMark .key 1 with allowsKey := !scan.inFlow }

/-- A colon: what began at the remembered place was a key. -/
def valueMark (scan : Scan) : Option Scan :=
  match scan.key with
  | some place =>
    let scan := { scan with tokens := scan.tokens.insertIdxIfInBounds place.number .key }
    let scan := scan.indentTo place.column place.number .blockMappingStart
    some { scan.addMark .value 1 with key := none, allowsKey := false }
  | none => do
    let scan ← scan.openBlock .blockMappingStart
    some { scan.addMark .value 1 with allowsKey := !scan.inFlow }

/-- Adds a token that may be or begin a key, given the cursor after it. -/
def addNodePart (scan : Scan) (read : Cursor → Option (Token × Cursor)) : Option Scan := do
  let scan ← scan.saveKey
  let (token, cursor) ← read scan.cursor
  some { scan.add token with cursor := cursor, allowsKey := false }

def blockScalar (scan : Scan) (isLiteral : Bool) : Option Scan := do
  let scan ← scan.dropKey
  let (t, cursor) ← block isLiteral scan.indent scan.cursor
  some { scan.add (.scalar false t) with cursor := cursor, allowsKey := true }

def plainScalar (scan : Scan) : Option Scan := do
  let scan ← scan.saveKey
  let (t, endsOnNewLine, cursor) ← plain scan.inFlow (scan.indent + 1).toNat scan.cursor
  some { scan.add (.scalar true t) with cursor := cursor, allowsKey := endsOnNewLine }

def startsPlain (inFlow : Bool) (cursor : Cursor) : Bool :=
  match cursor.peek? with
  | none => false
  | some c =>
    !(isBlank c || isBreak c || "-?:,[]\x7b\x7d#&*!|>'\"%@`".toList.contains c) ||
      (c == '-' && !cursor.satisfiesAt 1 false isBlank) ||
      (!inFlow && (c == '?' || c == ':') && !cursor.isGapAt 1)

def next (scan : Scan) (c : Char) : Option Scan :=
  let cursor := scan.cursor
  let isMark := scan.inFlow || cursor.isGapAt 1
  if cursor.column = 0 && c = '%' then do
    let scan ← scan.closeBlocks
    let (directive, cursor) ← directive? scan.cursor
    some { scan.add (.directive directive) with cursor := cursor }
  else if cursor.isAtMarker '-' then scan.closeBlocks.map (·.addMark .documentStart 3)
  else if cursor.isAtMarker '.' then scan.closeBlocks.map (·.addMark .documentEnd 3)
  else if c = '[' then scan.flowStart .flowSequenceStart
  else if c = '{' then scan.flowStart .flowMappingStart
  else if c = ']' then scan.flowEnd .flowSequenceEnd
  else if c = '}' then scan.flowEnd .flowMappingEnd
  else if c = ',' then scan.flowEntry
  else if c = '-' && cursor.isGapAt 1 then scan.blockEntry
  else if c = '?' && isMark then scan.keyMark
  else if c = ':' && isMark then scan.valueMark
  else if c = '*' then
    scan.addNodePart fun cursor =>
      (anchorName cursor).map fun (name, next) => (.reference name, next)
  else if c = '&' then
    scan.addNodePart fun cursor => (anchorName cursor).map fun (name, next) => (.anchor name, next)
  else if c = '!' then
    scan.addNodePart fun cursor => (tag? scan.inFlow cursor).map fun (tag, next) => (.tag tag, next)
  else if c = '|' && !scan.inFlow then scan.blockScalar true
  else if c = '>' && !scan.inFlow then scan.blockScalar false
  else if c = '\'' || c = '"' then
    scan.addNodePart fun cursor =>
      (quoted (c == '\'') cursor).map fun (t, next) => (.scalar false t, next)
  else if startsPlain scan.inFlow cursor then scan.plainScalar
  else none

def finish (scan : Scan) : Option (List Token) :=
  (scan.unindentTo (-1)).dropKey.map (·.tokens.toList)

/-- Adds the tokens from a cursor on; each uses up a character. -/
def run : (fuel : Nat) → Scan → Option (List Token)
  | 0, _ => none
  | fuel + 1, scan => do
    let scan ← (skipFiller (scan.cursor.rest.length + 1) scan).dropStaleKeys
    let scan := scan.unindentTo scan.cursor.column
    match scan.cursor.peek? with
    | none => scan.finish
    | some c =>
      let scan ← scan.next c
      run fuel scan

end Scan

/-- The cursor at the start of a text. A byte-order mark in front does not count, and one more takes
up a column. -/
def startCursor (t : Text) : Cursor :=
  match t with
  | '\uFEFF' :: '\uFEFF' :: rest => (Cursor.start ('\uFEFF' :: rest)).skip 1
  | '\uFEFF' :: rest => .start rest
  | t => .start t

def tokens? (t : Text) : Option (List Token) :=
  if t.all isAllowed then Scan.run (t.length + 1) { cursor := startCursor t } else none

end MarkdownDirectives.Yaml
