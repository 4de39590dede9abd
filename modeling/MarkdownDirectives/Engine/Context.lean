import MarkdownDirectives.Clock.Stamp
import MarkdownDirectives.Directive.Fragment
import MarkdownDirectives.Files.Disk
import MarkdownDirectives.Json.Printer
import MarkdownDirectives.Link.Table

/-!
# Contexts

A context is what the directives of one document share: the metadata properties, the base path of
references, the link table, the options, and how deep the evaluation is nested. An operation takes a
context and returns a result or an error together with the context it leaves.
-/

namespace MarkdownDirectives

structure ParseOptions where
  unterminated : Unterminated := .absorb
  maxDepth : Nat := 16
  timestamp : Option Text := none
  deriving DecidableEq, Repr

structure Context where
  properties : Fields
  base : Path
  links : LinkTable := .empty
  options : ParseOptions := {}
  depth : Nat := 0
  /-- The files being included, innermost first. -/
  includes : List Path := []

/-- A computation on a context that may fail; the context outlives the failure. -/
abbrev Eval := ExceptT Error (StateM Context)

namespace Eval

/-- Runs a computation in a changed context and changes the context it leaves. -/
def within {α : Type} (enter leave : Context → Context) (action : Eval α) : Eval α := fun context =>
  let (result, context) := action (enter context)
  (result, leave context)

end Eval

namespace Context

/-- A fresh context whose base path is made absolute and clean. -/
def new (world : World) (properties : Fields) (base : Path) (options : ParseOptions) : Context :=
  { properties := properties
    base := Path.clean (Path.absolute world.folderPath base)
    options := options }

/-! ### Properties -/

def baseKey : Text := "path".toList

def property? (context : Context) (name : Text) : Option Value :=
  if name = baseKey then some (.string context.base) else Fields.get? name context.properties

def snapshot (context : Context) : Value :=
  .object (Fields.insert baseKey (.string context.base) context.properties)

/-! ### References to files -/

/-- A reference without blanks around it and without leading slashes. -/
def trimReference (reference : Text) : Text :=
  reference.trim.dropWhile fun c => c == '/' || c == '\\'

/-- The cleaned path of a reference, if something stands there. -/
def resolve? (world : World) (context : Context) (reference : Text) : Option Path :=
  let trimmed := trimReference reference
  if trimmed.isEmpty then none
  else
    let candidate := Path.clean (Path.join context.base trimmed)
    if world.exists? candidate then some candidate else none

def resolve (world : World) (context : Context) (reference : Text) : Value :=
  match context.resolve? world reference with
  | some path => .string path
  | none => .bool false

/-- A path relative to the base path if it is below it, with slashes only. -/
def relative (context : Context) (path : Path) : Text :=
  ((Path.relativeTo? context.base path).getD path).map fun c => if c = '\\' then '/' else c

def existing (world : World) (context : Context) (reference : Text) : Text :=
  match context.resolve? world reference with
  | some path => (Value.string (context.relative path)).format
  | none => (Value.bool false).format

/-! ### The footer -/

def timestamp (world : World) (context : Context) : Text :=
  context.options.timestamp.getD ((Stamp.ofSeconds? world.now).getD [])

/-- The block at the end of a document: a discarded envelope with the link definitions and the
stamp. -/
def footer (world : World) (context : Context) : Text :=
  '\n' :: '\n' :: TagForm.raw.openTag discardMark ++ '\n' :: context.links.render ++
    "\n---\nLast Updated: ".toList ++ context.timestamp world ++ '\n' :: TagForm.raw.closeTag ++
    ['\n']

end Context

end MarkdownDirectives
