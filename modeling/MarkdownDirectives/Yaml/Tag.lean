import MarkdownDirectives.Json.Reader
import MarkdownDirectives.Yaml.Cursor

/-!
# Tags, anchors and directives as written

A tag is a handle and a suffix; the handle stands for a text that a directive gives, and the suffix
follows it. A tag between angle brackets has no handle.
-/

namespace MarkdownDirectives.Yaml

def anchorName (cursor : Cursor) : Option (Text × Cursor) :=
  let (name, cursor) := (cursor.skip 1).readWhile isNamePart
  let isEnded :=
    cursor.isGapAt 0 || cursor.satisfiesAt 0 true fun c => "?:,]\x7d%@\x60".toList.contains c
  if name.isEmpty || !isEnded then none else some (name, cursor)

/-! ### Tags -/

/-- The characters of a tag besides escapes; between angle brackets a few more are allowed. -/
def isTagPart (isVerbatim : Bool) (c : Char) : Bool :=
  isNamePart c || ";/?:@&=+$.!~*'()".toList.contains c ||
    (isVerbatim && (c == ',' || c == '[' || c == ']'))

def sequenceLength (lead : Nat) : Option Nat :=
  if lead < 0x80 then some 1
  else if 0xC0 ≤ lead && lead < 0xE0 then some 2
  else if 0xE0 ≤ lead && lead < 0xF0 then some 3
  else if 0xF0 ≤ lead && lead < 0xF8 then some 4
  else none

def escapedBytes : (count : Nat) → Text → Option (List Nat × Text)
  | 0, t => some ([], t)
  | count + 1, '%' :: a :: b :: rest => do
    let byte ← Json.hexNumber [a, b]
    let (bytes, rest) ← escapedBytes count rest
    some (byte :: bytes, rest)
  | _ + 1, _ => none

/-- Reads the character that percent escapes write in UTF-8. -/
def escapedCharacter (t : Text) : Option (Char × Text) := do
  let ([lead], _) ← escapedBytes 1 t | none
  let length ← sequenceLength lead
  let (bytes, rest) ← escapedBytes length t
  if (bytes.drop 1).all fun b => 0x80 ≤ b && b < 0xC0 then
    let mark := if length = 1 then 0x80 else Nat.pow 2 (7 - length)
    let code := (bytes.drop 1).foldl (fun n b => n * 64 + b % 64) (lead % mark)
    (Json.scalar? code).map (·, rest)
  else none

def tagText (isVerbatim : Bool) : (fuel : Nat) → Cursor → Option (Text × Cursor)
  | 0, _ => none
  | fuel + 1, cursor =>
    match cursor.peek? with
    | some '%' => do
      let (c, rest) ← escapedCharacter cursor.rest
      let (t, cursor) ← tagText isVerbatim fuel (cursor.skip (cursor.rest.length - rest.length))
      some (c :: t, cursor)
    | some c =>
      if isTagPart isVerbatim c then do
        let (t, cursor) ← tagText isVerbatim fuel (cursor.skip 1)
        some (c :: t, cursor)
      else some ([], cursor)
    | none => some ([], cursor)

def readTagText (isVerbatim : Bool) (cursor : Cursor) : Option (Text × Cursor) :=
  tagText isVerbatim (cursor.rest.length + 1) cursor

/-- Reads an exclamation mark, a name, and another exclamation mark if there is one. -/
def handle? (cursor : Cursor) : Option (Text × Cursor) :=
  if cursor.has '!' then
    let (name, cursor) := (cursor.skip 1).readWhile isNamePart
    if cursor.has '!' then some ('!' :: name ++ ['!'], cursor.skip 1)
    else some ('!' :: name, cursor)
  else none

structure Tag where
  handle : Text
  suffix : Text

def tagBody (cursor : Cursor) : Option (Tag × Cursor) := do
  if cursor.hasAt 1 '<' then
    let (suffix, cursor) ← readTagText true (cursor.skip 2)
    if suffix.isEmpty || !cursor.has '>' then none else some (⟨[], suffix⟩, cursor.skip 1)
  else
    let (handle, cursor) ← handle? cursor
    let (more, cursor) ← readTagText false cursor
    if 1 < handle.length && handle.getLast? == some '!' then
      if more.isEmpty then none else some (⟨handle, more⟩, cursor)
    else
      let suffix := handle.drop 1 ++ more
      if suffix.isEmpty then some (⟨[], ['!']⟩, cursor) else some (⟨['!'], suffix⟩, cursor)

/-- Reads a tag, which a gap must follow, or a comma in a flow collection. -/
def tag? (inFlow : Bool) (cursor : Cursor) : Option (Tag × Cursor) := do
  let (tag, cursor) ← tagBody cursor
  if (inFlow && cursor.has ',') || cursor.isGapAt 0 then some (tag, cursor) else none

/-! ### Directives -/

inductive Directive where
  | version (major minor : Nat)
  | tag (handle meaning : Text)

def versionNumber (cursor : Cursor) : Option (Nat × Cursor) :=
  let (digits, cursor) := cursor.readWhile Char.isDigit
  if digits.isEmpty || 9 < digits.length then none else some (Text.digitsValue digits, cursor)

def versionDirective (cursor : Cursor) : Option (Directive × Cursor) := do
  let (major, cursor) ← versionNumber (cursor.skipWhile isBlank)
  if !cursor.has '.' then none
  let (minor, cursor) ← versionNumber (cursor.skip 1)
  some (.version major minor, cursor)

def tagDirective (cursor : Cursor) : Option (Directive × Cursor) := do
  let (handle, cursor) ← handle? (cursor.skipWhile isBlank)
  if handle != ['!'] && !(1 < handle.length && handle.getLast? == some '!') then none
  if !cursor.isAtBlank then none
  let (meaning, cursor) ← readTagText true (cursor.skipWhile isBlank)
  if meaning.isEmpty || !cursor.isGapAt 0 then none
  some (.tag handle meaning, cursor)

def directive? (cursor : Cursor) : Option (Directive × Cursor) := do
  let (name, cursor) := (cursor.skip 1).readWhile isNamePart
  if !cursor.isGapAt 0 then none
  let (directive, cursor) ←
    if name = "YAML".toList then versionDirective cursor
    else if name = "TAG".toList then tagDirective cursor
    else none
  let cursor ← cursor.endLine?
  some (directive, cursor)

end MarkdownDirectives.Yaml
