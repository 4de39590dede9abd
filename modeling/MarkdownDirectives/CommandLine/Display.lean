import MarkdownDirectives.Diff.Compaction
import MarkdownDirectives.Text.LineBreaks

/-!
# Terminal output

What a reader sees of a document: its lines with their numbers, or the changes to the file that it
is written to. Colors are codes of the terminal around a text; without color the text stands alone.
-/

namespace MarkdownDirectives.CommandLine

inductive Style where
  | green
  | red
  | dimmed
  | bold
  deriving DecidableEq, Repr

namespace Style

def code (number : Text) : Text := '\x1b' :: '[' :: number ++ ['m']

def opening : Style → Text
  | .green => code "32".toList
  | .red => code "31".toList
  | .dimmed => code "2".toList
  | .bold => code "1".toList

/-- A color goes back to the default one, any other style to the plain one. -/
def closing : Style → Text
  | .green | .red => code "39".toList
  | .dimmed | .bold => code "0".toList

/-- A text in a style, if styles are shown. -/
def apply (color : Bool) (style : Style) (t : Text) : Text :=
  if color then style.opening ++ t ++ style.closing else t

end Style

/-! ### Changes -/

def endedLine (line : Text) : Text := if Text.endsInBreak line then line else line ++ ['\n']

/-- A changed line with its mark; one without a line break gets an empty line after it. -/
def showLine (color : Bool) (kind : EditKind) (line : Text) : Text :=
  let shown :=
    match kind with
    | .delete => ' ' :: ' ' :: Style.red.apply color ('-' :: endedLine line)
    | .insert => ' ' :: ' ' :: Style.green.apply color ('+' :: endedLine line)
    | .keep => ' ' :: ' ' :: ' ' :: endedLine line
  if Text.endsInBreak line then shown else shown ++ ['\n']

def showChanges (color : Bool) (old new : Text) : Text :=
  (Diff.changes old.linesWithBreaks new.linesWithBreaks).flatMap fun run =>
    run.lines.flatMap (showLine color run.kind)

/-! ### Previews -/

def alignRight (width : Nat) (t : Text) : Text := List.replicate (width - t.length) ' ' ++ t

def showPreview (color : Bool) (title t : Text) : Text :=
  let lines := Text.printedLines t
  let width := (Text.ofNat lines.length).length
  let numbered := (lines.zipIdx 1).flatMap fun (line, n) =>
    Style.dimmed.apply color (alignRight width (Text.ofNat n) ++ " │".toList) ++ ' ' :: line ++
      ['\n']
  Style.bold.apply color ("┌─ ".toList ++ title) ++ '\n' :: numbered ++
    Style.bold.apply color "└─".toList ++ ['\n']

end MarkdownDirectives.CommandLine
