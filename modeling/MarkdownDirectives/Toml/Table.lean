import MarkdownDirectives.Toml.Scalar

/-!
# TOML tables

A table remembers how it came about, because that decides what may still be added to it. A table on
the way to a header's table is implicit and may get a header of its own; a table on the way to a
dotted key may get more dotted keys; an inline table is complete; and no key is set twice.
-/

namespace MarkdownDirectives.Toml

/-- How a table came about: on the way to the table of a header or to a dotted key, by a header of
its own or as the document, or between braces. -/
inductive Origin where
  | implicit
  | dotted
  | header
  | inline
  deriving DecidableEq, Repr

inductive Item where
  | string (t : Text)
  | scalar (s : Scalar)
  /-- An array between brackets, or one of tables given by headers. -/
  | array (isOfTables : Bool) (items : List Item)
  | table (origin : Origin) (fields : List (Text × Item))
  deriving Inhabited

abbrev Entries := List (Text × Item)

namespace Entries

def get? (key : Text) (entries : Entries) : Option Item :=
  (entries.find? (·.1 == key)).map (·.2)

def set (key : Text) (item : Item) : Entries → Entries
  | [] => [(key, item)]
  | (k, old) :: more => if k = key then (k, item) :: more else (k, old) :: set key item more

/-- Changes the table that a path leads to, given its origin; missing tables are made on the way. A
path goes through the last table of an array of tables. The keys of a dotted path only lead through
tables without a header. -/
def within (isDotted : Bool) (change : Origin → Entries → Option Entries) :
    List Text → Origin → Entries → Option Entries
  | [], origin, entries => change origin entries
  | key :: path, _, entries =>
    match get? key entries with
    | none =>
      let origin := if isDotted then .dotted else .implicit
      (within isDotted change path origin []).map fun inner =>
        entries ++ [(key, .table origin inner)]
    | some (.table origin inner) =>
      if origin = .inline || (isDotted && origin = .header) then none
      else
        (within isDotted change path origin inner).map fun inner =>
          set key (.table origin inner) entries
    | some (.array true items) =>
      match items.getLast? with
      | some (.table origin inner) =>
        (within isDotted change path origin inner).map fun inner =>
          set key (.array true (items.dropLast ++ [.table origin inner])) entries
      | _ => none
    | some _ => none

/-- Sets a key that has no value yet in the table of a dotted path. Dotted and plain keys do not mix
in one table. -/
def insert (path : List Text) (key : Text) (item : Item) (origin : Origin) (entries : Entries) :
    Option Entries :=
  within true
    (fun origin entries =>
      -- with a path the table must be one of dotted keys, without one it must not
      if decide (origin = .dotted) == path.isEmpty || (get? key entries).isSome then none
      else some (entries ++ [(key, item)]))
    path origin entries

def openTable (path : List Text) (key : Text) (entries : Entries) : Option Entries :=
  within false
    (fun _ entries =>
      match get? key entries with
      | none => some (entries ++ [(key, .table .header [])])
      -- so far the table only lay on the way to another one
      | some (.table .implicit inner) => some (set key (.table .header inner) entries)
      | some _ => none)
    path .header entries

def openArrayTable (path : List Text) (key : Text) (entries : Entries) : Option Entries :=
  within false
    (fun _ entries =>
      match get? key entries with
      | none => some (entries ++ [(key, .array true [.table .header []])])
      | some (.array true items) =>
        some (set key (.array true (items ++ [.table .header []])) entries)
      | some _ => none)
    path .header entries

end Entries

end MarkdownDirectives.Toml
