import MarkdownDirectives.CommandLine.Run

/-!
# The program

The files below the working folder and below the project's folder are read into a world, the command
line is run on it, and the files that have changed are written.
-/

namespace MarkdownDirectives.CommandLine

/-! ### Reading -/

/-- The entries below a folder, which is given with the location it stands for. -/
partial def entriesBelow (name : String) (location : Location) : IO (List (Location × Entry)) := do
  let folder ← IO.FS.realPath name
  let mut entries : List (Location × Entry) := []
  for child in ← folder.readDir do
    let place := location ++ [child.fileName.toList]
    if ← child.path.isDir then
      let below ← entriesBelow child.path.toString place
      entries := (place, .folder) :: below ++ entries
    else
      try
        entries := (place, .file (Content.ofBytes (← IO.FS.readBinFile child.path))) :: entries
      catch _ => pure ()
  return entries

/-- The disk with the entries below a folder, or unchanged if the folder cannot be read. -/
def addBelow (disk : Disk) (location : Location) : IO Disk := do
  try
    let entries ← entriesBelow (String.ofList ('/' :: Text.joinWith '/' location)) location
    return ⟨(disk.makeFolders location).entries ++ entries⟩
  catch _ => return disk

/-- The seconds since the start of 1970, from the time of the system's start and the time since. -/
def clock : IO Int := do
  let start := (← IO.FS.lines "/proc/stat").toList.filterMap fun line =>
    match Text.splitOn ' ' line.toList with
    | [name, seconds] => if name = "btime".toList then some (Text.digitsValue seconds) else none
    | _ => none
  let since := (← IO.FS.readFile "/proc/uptime").toList.takeWhile Char.isDigit
  return start.headD 0 + Text.digitsValue since

def readWorld (arguments : List Text) : IO World := do
  let folder := Disk.steps (← IO.currentDir).toString.toList
  let disk ← addBelow ⟨[]⟩ folder
  let world : World := ⟨disk, folder, ← clock⟩
  match read? arguments with
  | some (.run a) =>
    let root := Path.clean (Path.absolute world.folderPath (a.folder world))
    let location := Disk.steps root
    if folder.isPrefixOf location then return world
    else return { world with disk := ← addBelow disk location }
  | _ => return world

/-! ### Writing -/

def nameOf (location : Location) : String := String.ofList ('/' :: Text.joinWith '/' location)

def writeContent (location : Location) : Content → IO Unit
  | .text t => IO.FS.writeFile (nameOf location) (String.ofList t)
  | .bytes bytes => IO.FS.writeBinFile (nameOf location) ⟨bytes.toArray⟩

def writeChanges (old new : Disk) : IO Unit := do
  for (location, entry) in old.entries.reverse do
    if (new.entry? location).isNone then
      match entry with
      | .file _ => IO.FS.removeFile (nameOf location)
      | .folder => IO.FS.removeDir (nameOf location)
  for (location, entry) in new.entries do
    if old.entry? location != some entry then
      match entry with
      | .file content => writeContent location content
      | .folder => IO.FS.createDirAll (nameOf location)

/-! ### Reporting -/

def milliseconds (nanoseconds : Nat) : Text :=
  let tenths := (nanoseconds + 50000) / 100000
  Text.ofNat (tenths / 10) ++ '.' :: Text.ofNat (tenths % 10)

def failureText : Failure → Text
  | .usage => "error: the arguments do not fit; see --help\n".toList
  | .error e =>
    let hint :=
      match e.help with
      | some t => "  help: ".toList ++ t ++ ['\n']
      | none => []
    e.code ++ "\n  ".toList ++ e.message ++ '\n' :: hint

def runProgram (arguments : List Text) : IO UInt32 := do
  let color := (← IO.getEnv "NO_COLOR").isNone
  let world ← readWorld arguments
  let start ← IO.monoNanosNow
  let (first, after) := perform ⟨color, []⟩ arguments world
  writeChanges world.disk after.disk
  let stop ← IO.monoNanosNow
  let terminal : Terminal := ⟨color, milliseconds (stop - start)⟩
  -- the output names the time spent, so it is made once more when that is known
  let outcome := (perform terminal arguments world).1
  let out ← IO.getStdout
  out.putStr (String.ofList outcome.output)
  match first.failure with
  | some failure => IO.eprint (String.ofList (failureText failure))
  | none => pure ()
  return first.exitCode.toUInt32

end MarkdownDirectives.CommandLine

def main (arguments : List String) : IO UInt32 :=
  MarkdownDirectives.CommandLine.runProgram (arguments.map String.toList)
