import MarkdownDirectives.Text.Basic

/-!
# Edit scripts

An edit script turns a list of lines into another one by runs of kept, deleted and inserted lines.
The search for a short one goes from both ends at once. On the diagonal `k` of the edit graph stand
the points with `k` more old lines than new ones behind them; after each step the point of furthest
reach on each diagonal is known from either end, and where two of them meet the lists are cut in
two. Lines that both lists have at the front or at the end are kept beforehand.
-/

namespace MarkdownDirectives

inductive EditKind where
  | keep
  | delete
  | insert
  deriving DecidableEq, Repr

structure EditRun where
  kind : EditKind
  lines : List Text
  deriving DecidableEq, Repr

namespace Diff

/-- The number of lines at the front that two lists have in common. -/
def commonLength : List Text → List Text → Nat
  | a :: old, b :: new => if a = b then commonLength old new + 1 else 0
  | _, _ => 0

/-! ### Furthest reach -/

/-- How far to go on the diagonals of a step, in old lines, from the reach on the diagonals of the
step before. The diagonals of step `d` are `d`, `d - 2`, …, `-d`; each is entered from the one below
it by an old line or from the one above it by a new line. -/
def enter (reach : List Nat) : List Nat := List.zipWith max (0 :: reach) (reach.map (· + 1) ++ [0])

def diagonal (step place : Nat) : Int := step - 2 * place

def newLines (oldLines : Nat) (k : Int) : Nat := (oldLines - k).toNat

/-- Goes on along a diagonal while the lines are equal. -/
def slide (old new : List Text) (oldLines : Nat) (k : Int) : Nat :=
  oldLines + commonLength (old.drop oldLines) (new.drop (newLines oldLines k))

def reachOf (old new : List Text) (step : Nat) (entered : List Nat) : List Nat :=
  (entered.zipIdx).map fun (oldLines, place) => slide old new oldLines (diagonal step place)

/-- The reach on a diagonal, if it is one of the step. -/
def reachOn (reach : List Nat) (k : Int) : Option Nat :=
  let below := (reach.length : Int) - 1 - k
  if below < 0 || below % 2 != 0 then none else reach[(below / 2).toNat]?

/-- The first place whose diagonal the search from the other end has reached from its side, so that
together they pass all `count` old lines. The other end sees the diagonal as `delta - k`. -/
def meeting? (count : Nat) (delta : Int) (step : Nat) (reach other : List Nat) : Option Nat :=
  (List.range reach.length).find? fun place =>
    match reach[place]?, reachOn other (delta - diagonal step place) with
    | some x, some y => count ≤ x + y
    | _, _ => false

/-! ### The cut -/

/-- Where to cut two lists, as numbers of old and new lines. The search takes the given number of
steps; from the front the cut is before the last equal lines, from the end it is after them. -/
def cut? (old new : List Text) : (steps step : Nat) → (front back : List Nat) → Option (Nat × Nat)
  | 0, _, _, _ => none
  | steps + 1, step, front, back =>
    let count := old.length
    let delta : Int := count - new.length
    let entered := enter front
    let front := reachOf old new step entered
    match meeting? count delta step front back with
    | some place =>
      let oldLines := entered.getD place 0
      some (oldLines, newLines oldLines (diagonal step place))
    | none =>
      let back := reachOf old.reverse new.reverse step (enter back)
      match meeting? count delta step back front with
      | some place =>
        let oldLines := back.getD place 0
        some (count - oldLines, new.length - newLines oldLines (diagonal step place))
      | none => cut? old new steps (step + 1) front back

/-! ### Scripts -/

/-- A run of lines, left out if there are none. -/
def run (kind : EditKind) (lines : List Text) : List EditRun :=
  if lines.isEmpty then [] else [⟨kind, lines⟩]

/-- The script that turns `old` into `new`, cut into at most `fuel` levels. Where no cut is left,
all old lines are deleted and all new lines inserted. -/
def script : (fuel : Nat) → (old new : List Text) → List EditRun
  | 0, old, new => run .delete old ++ run .insert new
  | fuel + 1, old, new =>
    let front := commonLength old new
    let kept := old.take front
    let old := old.drop front
    let new := new.drop front
    let back := commonLength old.reverse new.reverse
    let keptBack := old.drop (old.length - back)
    let old := old.take (old.length - back)
    let new := new.take (new.length - back)
    let middle :=
      if old.isEmpty || new.isEmpty then run .delete old ++ run .insert new
      else
        match cut? old new ((old.length + new.length + 1) / 2 + 1) 0 [] [] with
        | some (x, y) =>
          script fuel (old.take x) (new.take y) ++ script fuel (old.drop x) (new.drop y)
        | none => run .delete old ++ run .insert new
    run .keep kept ++ middle ++ run .keep keptBack

end Diff

end MarkdownDirectives
