import MarkdownDirectives.Text.Basic

/-!
# Line-break normalization

Every line break becomes a line feed, and a run of blank lines between two line feeds becomes one
empty line. The first and the last line are never touched, so blanks before the first and after the
last line feed stay.
-/

namespace MarkdownDirectives.Text

/-- Writes `CRLF` and lone `CR` as line feeds. -/
def unifyBreaks : Text → Text
  | [] => []
  | '\r' :: '\n' :: rest => '\n' :: unifyBreaks rest
  | c :: rest => (if c = '\r' then '\n' else c) :: unifyBreaks rest

def isBlankLine (line : Text) : Bool := line.all isBlank

/-- Replaces each run of blank lines by one empty line, sparing the last line. The flag says
whether the line before was blank and has its empty line already. -/
def squeezeBlankLines : Bool → List Text → List Text
  | _, [] => []
  | _, [line] => [line]
  | afterBlank, line :: next :: more =>
    if isBlankLine line then
      if afterBlank then squeezeBlankLines true (next :: more)
      else [] :: squeezeBlankLines true (next :: more)
    else line :: squeezeBlankLines false (next :: more)

/-- The lines of a normalized text: the first one as it is, the others squeezed. -/
def normalizeLines : List Text → List Text
  | [] => []
  | line :: more => line :: squeezeBlankLines false more

/-- Reduces every line break to a line feed and every run of blank lines to one empty line. -/
def normalizeLineBreaks (t : Text) : Text := ofLines (normalizeLines (lines (unifyBreaks t)))

/-! ### Lines with their breaks -/

/-- The lines of a text, each with the line break that ends it; the last one may have none. -/
def linesWithBreaks : Text → List Text
  | [] => []
  | '\r' :: '\n' :: rest => ['\r', '\n'] :: linesWithBreaks rest
  | c :: rest =>
    if c = '\n' || c = '\r' then [c] :: linesWithBreaks rest
    else
      match linesWithBreaks rest with
      | [] => [[c]]
      | line :: more => (c :: line) :: more

def endsInBreak (t : Text) : Bool := t.getLast? == some '\n' || t.getLast? == some '\r'

/-- The lines of a text without their breaks; after a final line break there is no further line. -/
def printedLines (t : Text) : List Text :=
  match (lines t).reverse with
  | [] :: more => more.reverse
  | _ => lines t

end MarkdownDirectives.Text
