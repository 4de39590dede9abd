import MarkdownDirectives.Project.Config

/-!
# Command lines

The first positional argument is the project's folder, the others are documents. Options stand
anywhere before an argument `--`, after which all arguments are positional. An option is given at
most once; a value follows it as the next argument or after an equals sign. Options of one letter
may share a dash.
-/

namespace MarkdownDirectives.CommandLine

structure Arguments where
  root : Option Path := none
  documents : List Path := []
  suffix : Option Text := none
  roundtrips : Option Nat := none
  maxDepth : Option Nat := none
  dryRun : Bool := false
  backup : Bool := false
  preview : Bool := false
  diff : Bool := false
  strict : Bool := false
  verbose : Bool := false
  noColor : Bool := false
  deriving DecidableEq, Repr

inductive Request where
  | run (arguments : Arguments)
  | version
  | help
  deriving DecidableEq, Repr

/-! ### Options -/

inductive Flag where
  | dryRun
  | backup
  | preview
  | diff
  | strict
  | verbose
  | noColor
  deriving DecidableEq, Repr

inductive Setting where
  | suffix
  | roundtrips
  | maxDepth
  deriving DecidableEq, Repr

inductive Switch where
  | flag (f : Flag)
  | setting (s : Setting)
  | version
  | help
  deriving DecidableEq, Repr

def switches : List (Text × Switch) :=
  [("suffix".toList, .setting .suffix), ("dry-run".toList, .flag .dryRun),
    ("backup".toList, .flag .backup), ("preview".toList, .flag .preview),
    ("diff".toList, .flag .diff), ("roundtrips".toList, .setting .roundtrips),
    ("strict".toList, .flag .strict), ("max-depth".toList, .setting .maxDepth),
    ("verbose".toList, .flag .verbose), ("no-color".toList, .flag .noColor),
    ("help".toList, .help), ("version".toList, .version)]

def switch? (name : Text) : Option Switch := (switches.find? (·.1 == name)).map (·.2)

/-! ### Values -/

/-- A number of 64 bits in decimal digits, after an optional plus sign. -/
def count? (t : Text) : Option Nat :=
  let digits := match t with | '+' :: rest => rest | t => t
  if digits.isEmpty || !digits.all Char.isDigit then none
  else
    let n := Text.digitsValue digits
    if n < Nat.pow 2 64 then some n else none

/-- Whether an argument can be the value of the option before it. -/
def isValue : Text → Bool
  | ['-'] => true
  | '-' :: _ => false
  | _ => true

namespace Arguments

def raise (a : Arguments) : Flag → Option Arguments
  | .dryRun => if a.dryRun then none else some { a with dryRun := true }
  | .backup => if a.backup then none else some { a with backup := true }
  | .preview => if a.preview then none else some { a with preview := true }
  | .diff => if a.diff then none else some { a with diff := true }
  | .strict => if a.strict then none else some { a with strict := true }
  | .verbose => if a.verbose then none else some { a with verbose := true }
  | .noColor => if a.noColor then none else some { a with noColor := true }

/-- Gives an option without a value yet the one that a text writes. -/
def assign (a : Arguments) (value : Text) : Setting → Option Arguments
  | .suffix => if a.suffix.isSome then none else some { a with suffix := some value }
  | .roundtrips =>
    if a.roundtrips.isSome then none
    else (count? value).map fun n => { a with roundtrips := some n }
  | .maxDepth =>
    if a.maxDepth.isSome then none else (count? value).map fun n => { a with maxDepth := some n }

def place (a : Arguments) (path : Path) : Option Arguments :=
  if path.isEmpty then none
  else
    match a.root with
    | none => some { a with root := some path }
    | some _ => some { a with documents := a.documents ++ [path] }

end Arguments

/-! ### Reading -/

/-- Reads the letters after a dash; `version` and `help` end the reading. -/
def readLetters : Text → Arguments → Option Request
  | [], a => some (.run a)
  | c :: more, a =>
    if c = 'v' then (a.raise .verbose).bind (readLetters more)
    else if c = 'V' then some .version
    else if c = 'h' then some .help
    else none

/-- Reads arguments after those that gave `a`; none if they do not fit. -/
def readMore : List Text → Arguments → Option Request
  | [], a => some (.run a)
  | argument :: more, a =>
    match argument with
    | ['-'] => (a.place argument).bind (readMore more)
    | ['-', '-'] => (more.foldlM Arguments.place a).map .run
    | '-' :: '-' :: option =>
      let (name, rest) := option.span (· != '=')
      match switch? name, rest with
      | some (.flag f), [] => (a.raise f).bind (readMore more)
      | some (.setting s), _ :: value => (a.assign value s).bind (readMore more)
      | some (.setting s), [] =>
        match more with
        | value :: more => if isValue value then (a.assign value s).bind (readMore more) else none
        | [] => none
      | some .version, [] => some .version
      | some .help, [] => some .help
      | _, _ => none
    | '-' :: letters =>
      match readLetters letters a with
      | some (.run a) => readMore more a
      | other => other
    | _ => (a.place argument).bind (readMore more)

def read? (arguments : List Text) : Option Request := readMore arguments {}

end MarkdownDirectives.CommandLine
