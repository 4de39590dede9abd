import MarkdownDirectives.Files.Disk
import MarkdownDirectives.Text.Word

/-!
# Output files

The output for a document overwrites it, goes to a file beside it with a suffix before the
extension, or is not written. A suffix that the document's name already shows is refused, so that an
output is never processed as a document. Before a file is overwritten it can be moved to the lowest
free numbered name beside it.
-/

namespace MarkdownDirectives

inductive OutputTarget where
  | inPlace
  | suffix (s : Text)
  | none
  deriving DecidableEq, Repr

/-- A suffix is a point and at least one word character. -/
def isSuffix : Text → Bool
  | '.' :: word => !word.isEmpty && word.all Text.isWord
  | _ => false

def isSuffixed (filename stem suffix : Text) : Bool :=
  suffix.isSuffixOf stem || suffix.isSuffixOf filename || Text.contains (suffix ++ ['.']) filename

def suffixedPath (document : Path) (suffix : Text) : Except Error Path :=
  if !isSuffix suffix then .error (.invalidSuffix suffix)
  else
    let filename := (Path.fileName? document).getD []
    let stem := (Path.stem? document).getD []
    if isSuffixed filename stem suffix then .error (.alreadySuffixed filename suffix)
    else
      let name :=
        match Path.extension? document with
        | some extension => stem ++ suffix ++ '.' :: extension
        | none => stem ++ suffix
      .ok (Path.withFileName document name)

def outputPath (document : Path) : OutputTarget → Except Error (Option Path)
  | .inPlace => .ok (some document)
  | .none => .ok none
  | .suffix s => (suffixedPath document s).map some

/-! ### Writing -/

def backupName (p : Path) (n : Nat) : Path := p ++ '.' :: Text.ofNat n

/-- The lowest free numbered name; one more than there are entries cannot all be taken. -/
def backupPath (world : World) (p : Path) : Path :=
  let numbers := List.range (world.disk.entries.length + 1)
  backupName p ((numbers.find? fun n => !world.exists? (backupName p n)).getD numbers.length)

/-- Moves an existing file aside if `backup` is set; gives where it went. -/
def moveAside (world : World) (p : Path) (backup : Bool) :
    Except FileError (Option Path × World) :=
  if backup && world.exists? p then
    let destination := backupPath world p
    (world.rename p destination).map (some destination, ·)
  else .ok (none, world)

/-- Writes an output file, moving an existing one aside first if `backup` is set. A file that was
moved aside stays there if the writing fails. -/
def writeOutput (p : Path) (t : Text) (backup : Bool) :
    ExceptT Error (StateM World) (Option Path) :=
  fun world =>
    match moveAside world p backup with
    | .error e => (.error (.file e), world)
    | .ok (moved, world) =>
      match world.disk.write world.folder p t with
      | .error e => (.error (.file e), world)
      | .ok disk => (.ok moved, { world with disk := disk })

end MarkdownDirectives
