import MarkdownDirectives.Text.Basic

/-!
# Tag lines

A directive envelope stands between an opening and a closing tag line. Tags have two forms with the
same meaning: the raw one, and the commented one that a Markdown renderer hides. A line is a tag
line only as a whole; blanks may follow the tag, and spaces and tabs around the expression do not
count.
-/

namespace MarkdownDirectives

/-- The two interchangeable forms of an envelope. -/
inductive TagForm where
  | raw
  | commented
  deriving DecidableEq, Repr

/-- The expression of an envelope that is removed together with its body. -/
def discardMark : Text := ['!']

namespace TagForm

def openMark : TagForm → Text
  | raw => ['<', '?']
  | commented => ['<', '!', '-', '-', '?']

def endMark : TagForm → Text
  | raw => ['?', '>']
  | commented => ['?', '-', '-', '>']

def closeTag : TagForm → Text
  | raw => ['<', '?', '!', '>']
  | commented => ['<', '!', '-', '-', '?', '!', '-', '-', '>']

def openTag (form : TagForm) (expression : Text) : Text :=
  form.openMark ++ ' ' :: expression ++ ' ' :: form.endMark

def wrap (form : TagForm) (expression body : Text) : Text :=
  form.openTag expression ++ body ++ form.closeTag

def closes (form : TagForm) (line : Text) : Bool :=
  Text.dropEndWhile Text.isSpace line == form.closeTag

/-- The text before an ending, if it has the ending. -/
def dropEnding? (ending t : Text) : Option Text :=
  if ending.isSuffixOf t then some (t.take (t.length - ending.length)) else none

def opening? (form : TagForm) (line : Text) : Option Text :=
  if form.openMark.isPrefixOf line then
    (dropEnding? form.endMark (Text.dropEndWhile Text.isSpace (line.drop form.openMark.length))).map
      (Text.trimWhile Text.isSpace)
  else none

def opens (form : TagForm) (line : Text) : Bool := (form.opening? line).isSome

end TagForm

def openingTag? (line : Text) : Option (TagForm × Text) :=
  match TagForm.raw.opening? line with
  | some expression => some (.raw, expression)
  | none => (TagForm.commented.opening? line).map fun expression => (.commented, expression)

end MarkdownDirectives
