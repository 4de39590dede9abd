import MarkdownDirectives.Text.Basic

/-!
# Diagnostic comments

The body of a directive that fails is a comment with the message. Two dashes in a row could end the
comment, so a space is put between each two adjacent dashes of the message.
-/

namespace MarkdownDirectives.Diagnostic

/-- Puts a space between each two adjacent dashes. -/
def separateDashes : Text → Text
  | '-' :: '-' :: rest => '-' :: ' ' :: separateDashes ('-' :: rest)
  | c :: rest => c :: separateDashes rest
  | [] => []

/-- What a comment shows: the trimmed message, or a general one in the place of a blank one. -/
def payload (message : Text) : Text :=
  separateDashes (if message.trim.isEmpty then "FAILED!".toList else message.trim)

def body (message : Text) : Text :=
  '\n' :: "<!-- `".toList ++ payload message ++ "` -->".toList ++ ['\n']

end MarkdownDirectives.Diagnostic
