import MarkdownDirectives.Directive.Tag

/-!
# Commenting tags

Raw tags are turned into the commented form by writing `<!--` and `-->` for the angle brackets
around them. This is done for every line that begins with `<?` and ends with `>` after at least one
more character that is no dash. A line beginning with `<?` that is no such line is still changed
if the line after it is a lone `>`, which then ends the tag.
-/

namespace MarkdownDirectives

/-- The line with its angle brackets replaced, if it is a tag in one line. -/
def commentLine? : Text → Option Text
  | '<' :: '?' :: rest =>
    match rest.reverse with
    | '>' :: c :: _ =>
      if c = '-' then none else some ("<!--?".toList ++ rest.dropLast ++ "-->".toList)
    | _ => none
  | _ => none

/-- The line with its first angle bracket replaced, if the line after it is a lone `>`. -/
def commentTwoLines? : Text → Text → Option Text
  | '<' :: '?' :: rest, ['>'] => some ("<!--?".toList ++ rest)
  | _, _ => none

def commentLines : List Text → List Text
  | [] => []
  | line :: more =>
    match commentLine? line with
    | some commented => commented :: commentLines more
    | none =>
      match more with
      | [] => [line]
      | next :: rest =>
        match commentTwoLines? line next with
        | some commented => commented :: "-->".toList :: commentLines rest
        | none => line :: commentLines (next :: rest)

def commentTags (t : Text) : Text := Text.ofLines (commentLines t.lines)

end MarkdownDirectives
