import MarkdownDirectives.Expression.Template
import MarkdownDirectives.Json.Value

/-!
# Expression trees
-/

namespace MarkdownDirectives

inductive BinaryOperator where
  | add
  | or
  | and
  deriving DecidableEq, Repr

inductive Expression where
  | literal (value : Value)
  | template (parts : List TemplatePart)
  | property (path : PropertyPath)
  /-- All properties as one object. -/
  | this
  /-- A bare name, which has no value. -/
  | identifier (name : Text)
  | operation (name : Text)
  | call (name : Text) (arguments : List Expression)
  | member (object : Expression) (name : Text)
  | index (object position : Expression)
  | not (e : Expression)
  | binary (operator : BinaryOperator) (left right : Expression)
  deriving Inhabited

end MarkdownDirectives
