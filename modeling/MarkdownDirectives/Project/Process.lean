import MarkdownDirectives.Directive.Comment
import MarkdownDirectives.Engine.Document
import MarkdownDirectives.Project.Config
import MarkdownDirectives.Project.Metadata

/-!
# Processing projects

The documents of a project are processed one after the other, each in a context of its own. A
document is read from the folder of raw documents if a file of its name is there; the output for it
then has its raw tags turned into the commented form. All that can fail before a file changes
comes first, as a draft of the output; writing the draft comes last.
-/

namespace MarkdownDirectives

structure Draft where
  source : Path
  target : Option Path
  output : Text
  deriving DecidableEq, Repr

structure Report where
  source : Path
  target : Option Path
  /-- Where the old content of the target went. -/
  backup : Option Path
  output : Text
  deriving DecidableEq, Repr

/-- Parses a document again `count` times, in the context that the parses before have left. -/
def reparse (world : World) : (count : Nat) → Text → Eval Text
  | 0, t => return t
  | count + 1, t => do reparse world count (← parse world t)

namespace Project

variable (project : Project)

def documentPath (document : Path) : Path := Path.join project.root document

def rawPath (document : Path) : Path :=
  Path.join (Path.join project.root project.docsFolder) document

def isRaw (world : World) (document : Path) : Bool := world.isFile (project.rawPath document)

def sourcePath (world : World) (document : Path) : Path :=
  if project.isRaw world document then project.rawPath document else project.documentPath document

def context (world : World) (metadata : Fields) : Context :=
  Context.new world metadata project.root project.parse

/-- The text of a document after its first parse and the repeated ones. -/
def parsed (world : World) (metadata : Fields) (t : Text) : Except Error Text :=
  (reparse world (project.roundtrips + 1) t (project.context world metadata)).1

def draft (world : World) (metadata : Fields) (document : Path) : Except Error Draft := do
  -- a suffix that does not fit is reported before the source is read
  let target ← outputPath (project.documentPath document) project.output
  let source := project.sourcePath world document
  let t ← (world.read source).mapError .file
  let output ← project.parsed world metadata t
  return ⟨source, target, if project.isRaw world document then commentTags output else output⟩

def writeDraft (draft : Draft) : ExceptT Error (StateM World) Report := do
  let backup ←
    match draft.target with
    | some target => writeOutput target draft.output project.backup
    | none => pure none
  return ⟨draft.source, draft.target, backup, draft.output⟩

def processDocument (metadata : Fields) (document : Path) :
    ExceptT Error (StateM World) Report := do
  project.writeDraft (← project.draft (← get) metadata document)

/-- Processes documents in order up to the first error; what was written before it stays. -/
def processDocuments (metadata : Fields) : List Path → ExceptT Error (StateM World) (List Report)
  | [] => return []
  | document :: more => do
    let report ← project.processDocument metadata document
    let reports ← processDocuments metadata more
    return report :: reports

def process : ExceptT Error (StateM World) (List Report) := do
  let metadata ← Metadata.load (← get) project.root project.manifest
  project.processDocuments metadata project.documents

end Project

/-- A document whose draft fails changes nothing. -/
theorem processDocument_eq (project : Project) (metadata : Fields) (document : Path)
    (world : World) :
    project.processDocument metadata document world =
      match project.draft world metadata document with
      | .ok draft => project.writeDraft draft world
      | .error e => (.error e, world) := by
  change (liftM (project.draft world metadata document) >>= project.writeDraft :
    ExceptT Error (StateM World) Report) world = _
  cases project.draft world metadata document with
  | ok draft => rfl
  | error e => rfl

end MarkdownDirectives
