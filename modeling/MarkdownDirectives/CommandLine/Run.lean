import MarkdownDirectives.CommandLine.Arguments
import MarkdownDirectives.CommandLine.Display
import MarkdownDirectives.Project.Process

/-!
# Running command lines

The arguments override the project's configuration. The documents are processed one after the other;
at the first error the run ends, and what was printed and written before stays. A dry run writes
nothing, but names and compares with the file that would be written.
-/

namespace MarkdownDirectives.CommandLine

/-! ### The project of a run -/

def Arguments.folder (a : Arguments) (world : World) : Path := a.root.getD world.folderPath

def Arguments.override (a : Arguments) (project : Project) : Project :=
  { project with
    documents := if a.documents.isEmpty then project.documents else a.documents
    output :=
      match a.suffix with
      | some s => .suffix s
      | none => project.output
    backup := a.backup || project.backup
    roundtrips := a.roundtrips.getD project.roundtrips
    parse :=
      { project.parse with
        unterminated := if a.strict then .reject else project.parse.unterminated
        maxDepth := a.maxDepth.getD project.parse.maxDepth } }

def Arguments.project (a : Arguments) (world : World) : Except Error Project :=
  (Project.load world (a.folder world)).map a.override

def withoutOutput (project : Project) : Project := { project with output := .none }

/-! ### Documents -/

structure Processed where
  shown : Path
  /-- What was in that file before, empty if it could not be read. -/
  previous : Text
  report : Report
  deriving DecidableEq, Repr

def processOne (a : Arguments) (project : Project) (metadata : Fields) (document : Path) :
    ExceptT Error (StateM World) Processed := do
  let world ← get
  let target ← outputPath (project.documentPath document) project.output
  let destination := target.getD (project.documentPath document)
  -- read before the document is processed, which may overwrite the file
  let previous :=
    match world.read destination with
    | .ok t => t
    | .error _ => []
  let project := if a.dryRun then withoutOutput project else project
  let report ← project.processDocument metadata document
  return ⟨report.target.getD destination, previous, report⟩

def processEach (a : Arguments) (project : Project) (metadata : Fields) :
    List Path → StateM World (List Processed × Option Error)
  | [] => return ([], none)
  | document :: more => do
    match ← (processOne a project metadata document).run with
    | .error e => return ([], some e)
    | .ok first =>
      let (others, e) ← processEach a project metadata more
      return (first :: others, e)

def Arguments.run (a : Arguments) : StateM World (List Processed × Option Error) := do
  let world ← get
  let start : Except Error (Project × Fields) := do
    let project ← a.project world
    let metadata ← Metadata.load world project.root project.manifest
    return (project, metadata)
  match start with
  | .error e => return ([], some e)
  | .ok (project, metadata) => processEach a project metadata project.documents

/-! ### Output -/

structure Terminal where
  color : Bool
  /-- How the time spent on a document is written, in milliseconds. -/
  elapsed : Text

def relative (folder path : Path) : Text := (Path.relativeTo? folder path).getD path

def Processed.print (a : Arguments) (terminal : Terminal) (folder : Path) (p : Processed) : Text :=
  let color := terminal.color && !a.noColor
  let title := relative folder p.shown
  let output := p.report.output
  let done :=
    Style.green.apply color "mdon:".toList ++ ' ' :: title ++ " done in ".toList ++
      terminal.elapsed ++ " ms\n".toList
  let backup :=
    match p.report.backup with
    | some path => "  backed up to ".toList ++ relative folder path ++ ['\n']
    | none => []
  let diff :=
    if !a.diff then []
    else if p.previous = output then
      ' ' :: ' ' :: Style.dimmed.apply color "no changes".toList ++ ['\n']
    else showChanges color p.previous output
  let text :=
    if a.preview then showPreview color title output
    else if a.dryRun && !a.diff then output
    else []
  done ++ backup ++ diff ++ text

inductive Failure where
  | usage
  | error (e : Error)
  deriving DecidableEq, Repr

structure Outcome where
  output : Text
  failure : Option Failure
  deriving DecidableEq, Repr

def Outcome.exitCode (outcome : Outcome) : Nat := if outcome.failure.isSome then 2 else 0

def versionText : Text := "mdon_cli 0.3.0\n".toList

def helpText : Text :=
  ("Regenerate directive sections in markdown documents.\n\n" ++
    "Usage: mdon [OPTIONS] [ROOT] [DOCUMENTS]...\n\n" ++
    "Options:\n" ++
    "      --suffix <SUFFIX>          Write <name><suffix>.<ext> next to each document\n" ++
    "      --dry-run                  Process documents without writing anything\n" ++
    "      --backup                   Move an existing output file aside before writing\n" ++
    "      --preview                  Print each processed document with line numbers\n" ++
    "      --diff                     Show the changes to the output file\n" ++
    "      --roundtrips <ROUNDTRIPS>  Process the output this many more times\n" ++
    "      --strict                   Fail on directives that are never closed\n" ++
    "      --max-depth <MAX_DEPTH>    Maximum depth of nested parses\n" ++
    "  -v, --verbose                  Enable verbose output\n" ++
    "      --no-color                 Disable colored output\n" ++
    "  -h, --help                     Print help\n" ++
    "  -V, --version                  Print version\n").toList

/-- What a request leaves behind, given what its documents came to. -/
def report (a : Arguments) (terminal : Terminal) (folder : Path)
    (results : List Processed × Option Error) : Outcome :=
  ⟨results.1.flatMap (Processed.print a terminal folder), results.2.map .error⟩

def perform (terminal : Terminal) (arguments : List Text) : StateM World Outcome := do
  match read? arguments with
  | none => return ⟨[], some .usage⟩
  | some .version => return ⟨versionText, none⟩
  | some .help => return ⟨helpText, none⟩
  | some (.run a) =>
    let folder := a.folder (← get)
    return report a terminal folder (← a.run)

end MarkdownDirectives.CommandLine
