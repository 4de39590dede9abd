import MarkdownDirectives.Files.Path
import MarkdownDirectives.Error

/-!
# Files

A disk maps locations to files and folders; a location is the list of names from the root, which is
always a folder. A path is walked from a working folder name by name, so that a missing folder or a
file in the place of a folder shows on the way.
-/

namespace MarkdownDirectives

abbrev Location := List Text

/-- What a file holds: a text, or bytes that are no UTF-8. -/
inductive Content where
  | text (t : Text)
  | bytes (bytes : List UInt8)
  deriving DecidableEq, Repr

namespace Content

def ofBytes (bytes : ByteArray) : Content :=
  match String.fromUTF8? bytes with
  | some t => .text t.toList
  | none => .bytes bytes.toList

end Content

inductive Entry where
  | file (content : Content)
  | folder
  deriving DecidableEq, Repr

structure Disk where
  entries : List (Location × Entry)
  deriving Repr

namespace Disk

/-! ### Locations -/

def entry? (disk : Disk) (location : Location) : Option Entry :=
  if location.isEmpty then some .folder
  else (disk.entries.find? (·.1 == location)).map (·.2)

def erase (disk : Disk) (location : Location) : Disk :=
  ⟨disk.entries.filter (·.1 != location)⟩

def put (disk : Disk) (location : Location) (entry : Entry) : Disk :=
  ⟨(disk.erase location).entries ++ [(location, entry)]⟩

def moveLocation (source target location : Location) : Location :=
  if source.isPrefixOf location then target ++ location.drop source.length else location

def move (disk : Disk) (source target : Location) : Disk :=
  ⟨disk.entries.map fun entry => (moveLocation source target entry.1, entry.2)⟩

def makeFolders (disk : Disk) (location : Location) : Disk :=
  (List.range location.length).foldl
    (fun disk n =>
      let folder := location.take (n + 1)
      if (disk.entry? folder).isSome then disk else disk.put folder .folder)
    disk

/-! ### Walking -/

/-- Where a path leads: to an entry, or to a free place in a folder. -/
inductive Place where
  | found (location : Location) (entry : Entry)
  | free (location : Location)
  deriving DecidableEq, Repr

/-- Walks from a folder; the steps are names, `.` and `..`. -/
def walk (disk : Disk) : Location → List Text → Except FileError Place
  | location, [] =>
    match disk.entry? location with
    | some entry => .ok (.found location entry)
    | none => .ok (.free location)
  | location, step :: more =>
    match disk.entry? location with
    | none => .error .notFound
    | some (.file _) => .error .notFolder
    | some .folder =>
      if step == ['.'] then walk disk location more
      else if step == ['.', '.'] then walk disk location.dropLast more
      else walk disk (location ++ [step]) more

def steps (p : Path) : List Text := (p.splitOn '/').filter (!·.isEmpty)

def endsWithSlash (p : Path) : Bool := p.getLast? == some '/'

/-- Walks a path, seen from a working folder. -/
def locate (disk : Disk) (folder : Location) (p : Path) : Except FileError Place :=
  if p.any (· == '\x00') then .error .nulCharacter
  else if p.isEmpty then .error .notFound
  else walk disk (if Path.isAbsolute p then [] else folder) (steps p)

/-- The entry that a path leads to; a final slash asks for a folder. -/
def find (disk : Disk) (folder : Location) (p : Path) : Except FileError (Location × Entry) := do
  match ← locate disk folder p with
  | .free _ => .error .notFound
  | .found location .folder => .ok (location, .folder)
  | .found location entry => if endsWithSlash p then .error .notFolder else .ok (location, entry)

/-! ### Operations -/

def exists? (disk : Disk) (folder : Location) (p : Path) : Bool :=
  match disk.find folder p with
  | .ok _ => true
  | .error _ => false

def isFile (disk : Disk) (folder : Location) (p : Path) : Bool :=
  match disk.find folder p with
  | .ok (_, .file _) => true
  | _ => false

def read (disk : Disk) (folder : Location) (p : Path) : Except FileError Text := do
  match ← disk.find folder p with
  | (_, .folder) => .error .isFolder
  | (_, .file (.bytes _)) => .error .notText
  | (_, .file (.text t)) => .ok t

def write (disk : Disk) (folder : Location) (p : Path) (t : Text) : Except FileError Disk := do
  match ← locate disk folder p with
  | .found _ .folder => .error .isFolder
  | .found location (.file _) | .free location =>
    if endsWithSlash p then .error .isFolder else .ok (disk.put location (.file (.text t)))

def endsInName (p : Path) : Bool :=
  match (steps p).getLast? with
  | some step => step != ['.'] && step != ['.', '.']
  | none => false

/-- The two ends of a move: what a path leads to, and the free location that another one leads to. A
folder is not moved below itself. -/
def moveEnds (disk : Disk) (folder : Location) (source target : Path) :
    Except FileError (Location × Location) := do
  let (old, _) ← disk.find folder source
  match ← locate disk folder target with
  | .found _ _ => .error .busy
  | .free new =>
    if !(endsInName source && endsInName target) then .error .busy
    else if old.isPrefixOf new then .error .invalidMove
    else .ok (old, new)

end Disk

/-- What the outside of a run consists of: the files, the folder in which relative paths begin, and
the time in seconds since the start of 1970. -/
structure World where
  disk : Disk
  folder : Location
  now : Int

namespace World

def folderPath (world : World) : Path := '/' :: Text.joinWith '/' world.folder

def exists? (world : World) (p : Path) : Bool := world.disk.exists? world.folder p

def isFile (world : World) (p : Path) : Bool := world.disk.isFile world.folder p

def read (world : World) (p : Path) : Except FileError Text := world.disk.read world.folder p

/-- Moves what a path leads to; a working folder in it moves along. -/
def rename (world : World) (source target : Path) : Except FileError World :=
  (world.disk.moveEnds world.folder source target).map fun (old, new) =>
    { world with
      disk := world.disk.move old new
      folder := Disk.moveLocation old new world.folder }

end World

end MarkdownDirectives
