import MarkdownDirectives.Expression.Escape
import MarkdownDirectives.Expression.Path

/-!
# Template strings

The inside of a template string is text with interpolations `${path}`, blanks being allowed inside
the braces. What merely resembles an interpolation is text. The text parts may hold escapes. An
interpolation is found by a pattern of its own, and the path inside is then read for itself.
-/

namespace MarkdownDirectives

inductive TemplatePart where
  | text (t : Text)
  | interpolation (path : PropertyPath)
  deriving DecidableEq, Repr

namespace TemplatePart

open PropertyPath in
/-- The expression `\$\{\s*(\w+(?:\.\w+|\[\s*(?:\d+|'[^']*'|"[^"]*")\s*\])*)\s*\}` -/
def interpolationPattern : Pattern :=
  .literal '$' ++ .literal '{' ++ blanks ++
    .group 1 (word ++ .many (.either (.literal '.' ++ word)
      (.literal '[' ++ blanks ++
        .either digits (.either (.between '\'' (others '\'')) (.between '"' (others '"'))) ++
        blanks ++ .literal ']'))) ++
    blanks ++ .literal '}'

def ofPiece? : Pattern.Piece → Option TemplatePart
  | .text t => (Escape.decode t).map .text
  | .found groups => do
    let path ← PropertyPath.parse? (← groups.lookup 1)
    return .interpolation path

def parse? (inside : Text) : Option (List TemplatePart) :=
  (interpolationPattern.search 0 inside).mapM ofPiece?

end TemplatePart

end MarkdownDirectives
