import MarkdownDirectives.Files.Disk
import MarkdownDirectives.Json.Reader
import MarkdownDirectives.Toml.Document
import MarkdownDirectives.Yaml.Value

/-!
# Metadata

The properties that directives can name come from one metadata file, whose extension says how it is
written: JSON, TOML or YAML. At its top level stands an object. A project without a metadata file
has no properties.
-/

namespace MarkdownDirectives

/-! ### TOML as values -/

namespace Toml.Item

mutual

/-- Whether an item holds an integer beyond 64 bits with a sign, which is no value of a table. -/
def hasWideInteger : Item → Bool
  | .scalar (.integer i) => !(-(Int.pow 2 63) ≤ i && i < Int.pow 2 63)
  | .array _ items => anyWideItem items
  | .table _ fields => anyWideField fields
  | _ => false

def anyWideItem : List Item → Bool
  | [] => false
  | item :: more => item.hasWideInteger || anyWideItem more

def anyWideField : List (Text × Item) → Bool
  | [] => false
  | (_, item) :: more => item.hasWideInteger || anyWideField more

end

mutual

/-- The value of an item; a float that is not finite has none. -/
def toValue? : Item → Option Value
  | .string t => some (.string t)
  | .scalar (.bool b) => some (.bool b)
  | .scalar (.integer i) => some (.number (.integer i))
  | .scalar (.float x) => x.map .ofFloat
  | .scalar (.dateTime t) => some (.string t)
  | .array _ items => (itemValues? items).map .array
  | .table _ fields => (fieldValues? fields).map fun fields => .object (Fields.ofList fields)

def itemValues? : List Item → Option (List Value)
  | [] => some []
  | item :: more => do
    let value ← item.toValue?
    let values ← itemValues? more
    some (value :: values)

def fieldValues? : List (Text × Item) → Option (List (Text × Value))
  | [] => some []
  | (key, item) :: more => do
    let value ← item.toValue?
    let values ← fieldValues? more
    some ((key, value) :: values)

end

end Toml.Item

/-! ### Metadata files -/

namespace Metadata

inductive Format where
  | json
  | toml
  | yaml
  deriving DecidableEq, Repr

def Format.ofExtension? (extension : Text) : Option Format :=
  if extension = "json".toList then some .json
  else if extension = "toml".toList then some .toml
  else if extension = "yaml".toList || extension = "yml".toList then some .yaml
  else none

def Format.read (t : Text) : Format → Except MetadataFault Value
  | .json =>
    match Json.read? t with
    | some value => .ok value
    | none => .error .malformed
  | .toml =>
    match Toml.read? t with
    | none => .error .malformed
    | some entries =>
      let table := Toml.Item.table .header entries
      if table.hasWideInteger then .error .malformed
      else
        match table.toValue? with
        | some value => .ok value
        | none => .error .nonFiniteFloat
  | .yaml =>
    match Yaml.read? t with
    | some value => .ok value
    | none => .error .malformed

def fieldsOf : Value → Except MetadataFault Fields
  | .object fields => .ok fields
  | _ => .error .noTable

/-- The metadata files looked for when none is named; an earlier one wins. -/
def candidates : List Path := ["package.json".toList, "Cargo.toml".toList]

def extensionOf (path : Path) : Text := ((Path.extension? path).getD []).map Char.toLower

def loadFile (world : World) (root path : Path) : Except Error Fields :=
  match world.read (Path.join root path) with
  | .error e => .error (.metadataFile path (.unreadable e))
  | .ok t =>
    match Format.ofExtension? (extensionOf path) with
    | none => .error (.unsupportedMetadata (extensionOf path))
    | some format => ((format.read t).bind fieldsOf).mapError (.metadataFile path)

/-- The properties of a project, from the metadata file named or else the first one found. -/
def load (world : World) (root : Path) (manifest : Option Path) : Except Error Fields :=
  match manifest with
  | some path => loadFile world root path
  | none =>
    match candidates.find? fun path => world.isFile (Path.join root path) with
    | some path => loadFile world root path
    | none => .ok []

end Metadata

end MarkdownDirectives
