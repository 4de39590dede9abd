import MarkdownDirectives.Toml.Quoted
import MarkdownDirectives.Toml.Table

/-!
# TOML documents

A document is a list of lines: headers, key-value pairs, and lines that hold at most a comment. The
pairs after a header belong to its table. Arrays and inline tables may run over several lines and
nest at most 80 deep.
-/

namespace MarkdownDirectives.Toml

/-! ### Blanks, comments and line ends -/

def skipSpaces (t : Text) : Text := t.dropWhile Quoted.isSpace

def skipComment : (inComment : Bool) → Text → Option Text
  | _, [] => some []
  | true, c :: rest =>
    if c = '\n' || c = '\r' then some (c :: rest)
    else if Quoted.isPrintable c then skipComment true rest
    else none
  | false, c :: rest => if c = '#' then skipComment true rest else some (c :: rest)

/-- The rest after the end of a line: blanks, a comment, and a line break or the end of the text. -/
def endLine (t : Text) : Option Text := do
  match ← skipComment false (skipSpaces t) with
  | [] => some []
  | rest => Quoted.dropBreak? rest

def skipFiller : (inComment : Bool) → Text → Option Text
  | _, [] => some []
  | _, '\n' :: rest => skipFiller false rest
  | _, '\r' :: '\n' :: rest => skipFiller false rest
  | true, c :: rest => if Quoted.isPrintable c then skipFiller true rest else none
  | false, c :: rest =>
    if Quoted.isSpace c then skipFiller false rest
    else if c = '#' then skipFiller true rest
    else some (c :: rest)

/-! ### Keys -/

def isBareKeyPart (c : Char) : Bool := c.isAlphanum || c == '_' || c == '-'

def simpleKey (t : Text) : Option (Text × Text) :=
  match Quoted.line? t with
  | some key => some key
  | none =>
    let (key, rest) := t.span isBareKeyPart
    if key.isEmpty then none else some (key, rest)

/-- A dotted key: the keys on the way and the last one. Blanks may stand around the points. -/
def dottedKey : (fuel : Nat) → Text → Option ((List Text × Text) × Text)
  | 0, _ => none
  | fuel + 1, t => do
    let (key, rest) ← simpleKey (skipSpaces t)
    match skipSpaces rest with
    | '.' :: rest =>
      let ((path, last), rest) ← dottedKey fuel rest
      some ((key :: path, last), rest)
    | rest => some (([], key), rest)

/-! ### Values -/

def nestingLimit : Nat := 80

mutual

def value (depth : Nat) : (fuel : Nat) → Text → Option (Item × Text)
  | 0, _ => none
  | fuel + 1, t =>
    match t with
    | '[' :: rest =>
      if depth = 0 then none
      else (arrayItems (depth - 1) fuel rest).map fun (items, rest) => (.array false items, rest)
    | '{' :: rest =>
      if depth = 0 then none
      else
        (inlineEntries (depth - 1) fuel [] rest).map fun (entries, rest) =>
          (.table .inline entries, rest)
    | '"' :: _ => (Quoted.read? t).map fun (s, rest) => (.string s, rest)
    | '\'' :: _ => (Quoted.read? t).map fun (s, rest) => (.string s, rest)
    | _ => (Scalar.scan t).map fun (s, rest) => (.scalar s, rest)

def arrayItems (depth : Nat) : (fuel : Nat) → Text → Option (List Item × Text)
  | 0, _ => none
  | fuel + 1, t => do
    match ← skipFiller false t with
    | ']' :: rest => some ([], rest)
    | t =>
      let (item, rest) ← value depth fuel t
      match ← skipFiller false rest with
      | ',' :: rest =>
        let (more, rest) ← arrayItems depth fuel rest
        some (item :: more, rest)
      | ']' :: rest => some ([item], rest)
      | _ => none

def inlineEntries (depth : Nat) : (fuel : Nat) → Entries → Text → Option (Entries × Text)
  | 0, _, _ => none
  | fuel + 1, entries, t => do
    match ← skipFiller false t with
    | '}' :: rest => some (entries, rest)
    | t =>
      let ((path, key), rest) ← dottedKey (t.length + 1) t
      match rest with
      | '=' :: rest =>
        let (item, rest) ← value depth fuel (skipSpaces rest)
        let entries ← Entries.insert path key item .inline entries
        match ← skipFiller false rest with
        | ',' :: rest => inlineEntries depth fuel entries rest
        | '}' :: rest => some (entries, rest)
        | _ => none
      | _ => none

end

/-! ### Lines -/

inductive Line where
  | header (path : List Text) (key : Text)
  | arrayHeader (path : List Text) (key : Text)
  | entry (path : List Text) (key : Text) (item : Item)

/-- The line at the front of a text, after which only the end of the line may follow. -/
def line (t : Text) : Option (Line × Text) := do
  match t with
  | '[' :: '[' :: rest =>
    let ((path, key), rest) ← dottedKey (rest.length + 1) rest
    match rest with
    | ']' :: ']' :: rest => some (.arrayHeader path key, rest)
    | _ => none
  | '[' :: rest =>
    let ((path, key), rest) ← dottedKey (rest.length + 1) rest
    match rest with
    | ']' :: rest => some (.header path key, rest)
    | _ => none
  | t =>
    let ((path, key), rest) ← dottedKey (t.length + 1) t
    match rest with
    | '=' :: rest =>
      let (item, rest) ← value nestingLimit (2 * rest.length + 2) (skipSpaces rest)
      some (.entry path key item, rest)
    | _ => none

/-- The lines of a text; each uses up a character. -/
def lines : (fuel : Nat) → Text → Option (List Line)
  | 0, _ => none
  | fuel + 1, t => do
    match ← skipFiller false t with
    | [] => some []
    | t =>
      let (first, rest) ← line t
      let rest ← endLine rest
      (lines fuel rest).map (first :: ·)

/-! ### The document -/

/-- The document so far and the path of the table that entries belong to. -/
structure Build where
  entries : Entries
  current : List Text

def Build.add (build : Build) : Line → Option Build
  | .header path key =>
    (build.entries.openTable path key).map fun entries => ⟨entries, path ++ [key]⟩
  | .arrayHeader path key =>
    (build.entries.openArrayTable path key).map fun entries => ⟨entries, path ++ [key]⟩
  | .entry path key item =>
    (Entries.within false (Entries.insert path key item) build.current .header build.entries).map
      fun entries => { build with entries := entries }

/-- The entries of a document; a byte-order mark in front does not count. -/
def read? (t : Text) : Option Entries := do
  let t := match t with | '\uFEFF' :: rest => rest | t => t
  let lines ← lines (t.length + 1) t
  let build ← lines.foldlM Build.add ⟨[], []⟩
  some build.entries

end MarkdownDirectives.Toml
