import MarkdownDirectives.Json.Reader

/-!
# Backslash escapes

Inside a quoted literal a backslash starts an escape: one of the short ones, or `\u` with the
hexadecimal digits of a Unicode scalar value in braces. Every other character stands for itself.

Escapes are decoded in words between double quotation marks. A text with a backslash is made such a
word first, its own quotation marks being escaped; a text without one stands for itself.
-/

namespace MarkdownDirectives.Escape

def short? : Char → Option Char
  | 'a' => some '\x07'
  | 'b' => some '\x08'
  | 'v' => some '\x0b'
  | 'f' => some '\x0c'
  | 'n' => some '\n'
  | 'r' => some '\r'
  | 't' => some '\t'
  | 'e' => some '\x1b'
  | 'E' => some '\x1b'
  | '\\' => some '\\'
  | '\'' => some '\''
  | '"' => some '"'
  | '$' => some '$'
  | '`' => some '`'
  | ' ' => some ' '
  | _ => none

/-- The scalar value written by hexadecimal digits, of which any number may stand after an optional
plus sign. -/
def scalarOfDigits? (digits : Text) : Option Char :=
  let digits := match digits with | '+' :: rest => rest | _ => digits
  if digits.isEmpty then none else (Json.hexNumber digits).bind Json.scalar?

/-- Where the decoder stands: between escapes, after a backslash, after `\u`, or inside the braces
with the digits seen so far, last one first. -/
inductive State where
  | plain
  | backslash
  | unicode
  | braces (digits : Text)

/-- Reads a word from a state on, behind its opening quotation mark. None if an escape is unknown or
unfinished, or if the text does not end with the closing quotation mark. -/
def readWord : State → Text → Option Text
  | _, [] => none
  | .plain, c :: rest =>
    if c = '"' then (if rest.isEmpty then some [] else none)
    else if c = '\\' then readWord .backslash rest
    else (readWord .plain rest).map (c :: ·)
  | .backslash, c :: rest =>
    if c = 'u' then readWord .unicode rest
    else (short? c).bind fun d => (readWord .plain rest).map (d :: ·)
  | .unicode, c :: rest => if c = '{' then readWord (.braces []) rest else none
  | .braces digits, c :: rest =>
    if c = '}' then
      (scalarOfDigits? digits.reverse).bind fun d => (readWord .plain rest).map (d :: ·)
    else readWord (.braces (c :: digits)) rest

def unquote : Text → Option Text
  | '"' :: rest => readWord .plain rest
  | _ => none

/-- Escapes the double quotation marks of a text. A character behind a backslash is copied; none if
a backslash ends the text. -/
def escapeMarks : (escaped : Bool) → Text → Option Text
  | false, [] => some []
  | true, [] => none
  | true, c :: rest => (escapeMarks false rest).map (c :: ·)
  | false, c :: rest =>
    if c = '"' then (escapeMarks false rest).map fun t => '\\' :: c :: t
    else (escapeMarks (c == '\\') rest).map (c :: ·)

def decodeWord (unquote : Text → Option Text) (t : Text) : Option Text :=
  (escapeMarks false t).bind fun inside => unquote ('"' :: (inside ++ ['"']))

/-- What a text stands for if a given function decodes words. -/
def decodeBy (unquote : Text → Option Text) (t : Text) : Option Text :=
  if '\\' ∈ t then decodeWord unquote t else some t

def decode (t : Text) : Option Text := decodeBy unquote t

end MarkdownDirectives.Escape
