import MarkdownDirectives.Text.Basic

/-!
# Paths

A path is a text in which slashes separate components. Repeated and final slashes and the component
`.` inside a path do not count, but a path is joined and shown as it is written. A cleaned path
holds no `.`, and `..` only at the front of a relative path.
-/

namespace MarkdownDirectives

abbrev Path := Text

namespace Path

inductive Component where
  | root
  /-- A `.` at the front of a relative path. -/
  | current
  | parent
  | name (n : Text)
  deriving DecidableEq, Repr

/-! ### Components -/

def isAbsolute (p : Path) : Bool := p.head? == some '/'

def isIgnorable (piece : Text) : Bool := piece.isEmpty || piece == ['.']

def componentOf (piece : Text) : Component := if piece == ['.', '.'] then .parent else .name piece

/-- The root or the `.` at the front, and the pieces after it. -/
def frontAndPieces (p : Path) : List Component × List Text :=
  match p.splitOn '/' with
  | piece :: more =>
    if isAbsolute p then ([.root], more)
    else if piece == ['.'] then ([.current], more)
    else ([], piece :: more)
  | [] => ([], [])

def components (p : Path) : List Component :=
  let (front, pieces) := frontAndPieces p
  front ++ (pieces.filter (!isIgnorable ·)).map componentOf

def Component.text : Component → Text
  | .root => ['/']
  | .current => ['.']
  | .parent => ['.', '.']
  | .name n => n

/-! ### Joining -/

/-- The path `q` seen from `p`; an absolute path is seen from nowhere. -/
def join (p q : Path) : Path :=
  if isAbsolute q then q
  else if p.isEmpty || p.getLast? == some '/' then p ++ q
  else p ++ '/' :: q

def ofComponents (components : List Component) : Path :=
  components.foldl (fun p component => join p component.text) []

/-! ### Cleaning -/

/-- Adds a component to a cleaned list, which is given last component first. -/
def cleanStep (done : List Component) : Component → List Component
  | .current => done
  | .parent =>
    match done with
    | .root :: _ => done
    | .name _ :: more => more
    | _ => .parent :: done
  | component => component :: done

def cleanComponents (components : List Component) : List Component :=
  (components.foldl cleanStep []).reverse

/-- The path without `.`, and with each `..` resolved against the name before it; above the root
there is nothing. -/
def clean (p : Path) : Path :=
  match cleanComponents (components p) with
  | [] => ['.']
  | components => ofComponents components

/-- The path seen from a folder, cleaned component by component but for `..`; an empty path stays.
-/
def absolute (folder p : Path) : Path :=
  if p.isEmpty then p
  else
    let components := (components p).filter (· != .current)
    if isAbsolute p then ofComponents components
    else components.foldl (fun p component => join p component.text) folder

/-! ### Names -/

def fileName? (p : Path) : Option Text :=
  match (components p).getLast? with
  | some (.name n) => some n
  | _ => none

/-- A name cut at its last point; a name without a point, or with one at the front only, has no
extension. -/
def stemAndExtension (name : Text) : Text × Option Text :=
  match (name.splitOn '.').reverse with
  | extension :: piece :: more =>
    let stem := Text.joinWith '.' (piece :: more).reverse
    if stem.isEmpty then (name, none) else (stem, some extension)
  | _ => (name, none)

def extension? (p : Path) : Option Text := (fileName? p).bind fun n => (stemAndExtension n).2

def stem? (p : Path) : Option Text := (fileName? p).map fun n => (stemAndExtension n).1

def dropIgnorableEnd (pieces : List Text) : List Text :=
  (pieces.reverse.dropWhile isIgnorable).reverse

def parent (p : Path) : Path :=
  let (front, pieces) := frontAndPieces p
  let pieces := dropIgnorableEnd (dropIgnorableEnd pieces).dropLast
  match front with
  | [.root] => '/' :: Text.joinWith '/' pieces
  | [_] => Text.joinWith '/' (['.'] :: pieces)
  | _ => Text.joinWith '/' pieces

/-- The path with its last component replaced by a name; a path that does not end in a name gets one
more component. -/
def withFileName (p : Path) (name : Text) : Path :=
  if (fileName? p).isSome then join (parent p) name else join p name

/-! ### Relative paths -/

def dropComponents : (count : Nat) → List Text → List Text
  | 0, pieces => pieces
  | _ + 1, [] => []
  | count + 1, piece :: more =>
    if isIgnorable piece then dropComponents (count + 1) more else dropComponents count more

def relativeTo? (folder p : Path) : Option Path :=
  if (components folder).isPrefixOf (components p) then
    let count := (components folder).length
    if count = 0 then
      let (front, pieces) := frontAndPieces p
      match front with
      | [.root] => some ('/' :: Text.joinWith '/' (dropIgnorableEnd pieces))
      | [_] => some (Text.joinWith '/' (['.'] :: dropIgnorableEnd pieces))
      | _ => some (Text.joinWith '/' (dropIgnorableEnd pieces))
    else
      let (front, pieces) := frontAndPieces p
      let rest := dropComponents (count - front.length) pieces
      some (Text.joinWith '/' (dropIgnorableEnd (rest.dropWhile isIgnorable)))
  else none

end Path

end MarkdownDirectives
