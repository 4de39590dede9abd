import MarkdownDirectives.Engine.Context
import MarkdownDirectives.Project.Output
import MarkdownDirectives.Toml.Document

/-!
# Configuration

A project is a folder with documents, a metadata file and settings. The settings come from the first
configuration file found in the folder; what it leaves out has a default, and keys that are no
settings do not count.
-/

namespace MarkdownDirectives

structure Config where
  manifest : Option Path := none
  documents : List Path := []
  output : OutputTarget := .inPlace
  /-- Whether an output file that exists is moved aside before it is written. -/
  backup : Bool := false
  /-- How often the output of a document is parsed again. -/
  roundtrips : Nat := 0
  strict : Bool := false
  maxDepth : Nat := 16
  docsFolder : Option Path := none
  deriving DecidableEq, Repr

namespace Config

/-! ### Reading settings -/

def string? : Toml.Item → Option Text
  | .string t => some t
  | _ => none

def bool? : Toml.Item → Option Bool
  | .scalar (.bool b) => some b
  | _ => none

def count? : Toml.Item → Option Nat
  | .scalar (.integer i) => if 0 ≤ i && i < Int.pow 2 64 then some i.toNat else none
  | _ => none

def strings? : Toml.Item → Option (List Text)
  | .array _ items => items.mapM string?
  | _ => none

/-- `true` is the document itself, `false` no file, and a string a suffix. -/
def output? : Toml.Item → Option OutputTarget
  | .scalar (.bool true) => some .inPlace
  | .scalar (.bool false) => some .none
  | .string suffix => some (.suffix suffix)
  | _ => none

/-- The setting of a key, or its default if the key is not there; none if the value is of the wrong
kind. -/
def setting {α : Type} (entries : Toml.Entries) (key : String) (read : Toml.Item → Option α)
    (default : α) : Option α :=
  match entries.get? key.toList with
  | some item => read item
  | none => some default

def ofEntries? (entries : Toml.Entries) : Option Config := do
  let manifest ← setting entries "manifest" (fun item => (string? item).map some) none
  let documents ← setting entries "documents" strings? []
  let output ← setting entries "output" output? .inPlace
  let backup ← setting entries "backup" bool? false
  let roundtrips ← setting entries "roundtrips" count? 0
  let strict ← setting entries "strict" bool? false
  let maxDepth ← setting entries "max_depth" count? 16
  let docsFolder ← setting entries "docs_dir" (fun item => (string? item).map some) none
  some
    { manifest := manifest, documents := documents, output := output, backup := backup,
      roundtrips := roundtrips, strict := strict, maxDepth := maxDepth, docsFolder := docsFolder }

def read? (t : Text) : Option Config := (Toml.read? t).bind ofEntries?

/-! ### Finding the file -/

/-- The names of configuration files; an earlier one wins. -/
def candidates : List Path :=
  ["mdon.toml".toList, ".mdon.toml".toList, ".config/mdon.toml".toList]

def path? (world : World) (root : Path) : Option Path :=
  (candidates.map (Path.join root)).find? world.isFile

def load (world : World) (root : Path) : Except Error (Option Config) :=
  match path? world root with
  | none => .ok none
  | some path =>
    match world.read path with
    | .error e => .error (.file e)
    | .ok t =>
      match read? t with
      | some config => .ok (some config)
      | none => .error .malformedConfig

end Config

/-! ### Projects -/

structure Project where
  root : Path
  manifest : Option Path
  documents : List Path
  output : OutputTarget
  backup : Bool
  roundtrips : Nat
  docsFolder : Path
  parse : ParseOptions

namespace Project

def defaultDocument : Path := "README.md".toList

def defaultDocsFolder : Path := "docs".toList

def ofConfig (root : Path) (config : Config) : Project :=
  { root := root
    manifest := config.manifest
    documents := if config.documents.isEmpty then [defaultDocument] else config.documents
    output := config.output
    backup := config.backup
    roundtrips := config.roundtrips
    docsFolder := config.docsFolder.getD defaultDocsFolder
    parse :=
      { unterminated := if config.strict then .reject else .absorb
        maxDepth := config.maxDepth } }

def load (world : World) (root : Path) : Except Error Project :=
  (Config.load world root).map fun config => ofConfig root (config.getD {})

end Project

end MarkdownDirectives
