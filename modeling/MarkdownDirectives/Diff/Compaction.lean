import MarkdownDirectives.Diff.Script

/-!
# Compacting edit scripts

The runs of a script are moved to where they read best. A run of deletions or insertions goes up
past runs of the other kind and past kept lines that leave the result the same, joins the runs of
its own kind that it meets, and then goes down in the same way as far as it can. Only insertions
move past kept lines.
-/

namespace MarkdownDirectives.Diff

/-! ### Moving past kept lines -/

/-- Moves an insertion past kept lines. Both lists begin where they touch; a line is passed if it
equals the first inserted line, which then stands behind the others. Gives the lines not passed, the
inserted lines, and the lines passed. -/
def pass : (kept inserted : List Text) → List Text × List Text × List Text
  | c :: kept, l :: inserted =>
    if c = l then
      let (rest, inserted, passed) := pass kept (inserted ++ [l])
      (rest, inserted, c :: passed)
    else (c :: kept, l :: inserted, [])
  | kept, inserted => (kept, inserted, [])

def keepAbove (lines : List Text) : List EditRun → List EditRun
  | ⟨.keep, more⟩ :: below => ⟨.keep, lines ++ more⟩ :: below
  | below => run .keep lines ++ below

def keepBelow (lines : List Text) : List EditRun → List EditRun
  | ⟨.keep, more⟩ :: above => ⟨.keep, more ++ lines⟩ :: above
  | above => run .keep lines ++ above

/-! ### Moving up and down -/

/-- A script seen from one of its runs; the runs above it are given from the nearest on. -/
structure Focus where
  above : List EditRun
  here : EditRun
  below : List EditRun
  deriving DecidableEq, Repr

def moveUp : (above : List EditRun) → (here : EditRun) → (below : List EditRun) → Focus
  | [], here, below => ⟨[], here, below⟩
  | next :: above, here, below =>
    if next.kind = here.kind then moveUp above ⟨here.kind, next.lines ++ here.lines⟩ below
    else if next.kind != .keep then moveUp above here (next :: below)
    else if here.kind = .insert then
      let (rest, inserted, passed) := pass next.lines.reverse here.lines.reverse
      let here := ⟨.insert, inserted.reverse⟩
      let below := keepAbove passed.reverse below
      if rest.isEmpty then moveUp above here below
      else ⟨⟨.keep, rest.reverse⟩ :: above, here, below⟩
    else ⟨next :: above, here, below⟩

def moveDown : (above : List EditRun) → (here : EditRun) → (below : List EditRun) → Focus
  | above, here, [] => ⟨above, here, []⟩
  | above, here, next :: below =>
    if next.kind = here.kind then moveDown above ⟨here.kind, here.lines ++ next.lines⟩ below
    else if next.kind != .keep then moveDown (next :: above) here below
    else if here.kind = .insert then
      let (rest, inserted, passed) := pass next.lines here.lines
      let here := ⟨.insert, inserted⟩
      let above := keepBelow passed above
      if rest.isEmpty then moveDown above here below else ⟨above, here, ⟨.keep, rest⟩ :: below⟩
    else ⟨above, here, next :: below⟩

/-! ### Passes over a script -/

def moveAll (kind : EditKind) :
    (fuel : Nat) → (above : List EditRun) → (below : List EditRun) → List EditRun
  | 0, above, below => above.reverse ++ below
  | _ + 1, above, [] => above.reverse
  | fuel + 1, above, next :: below =>
    if next.kind = kind then
      let up := moveUp above next below
      let down := moveDown up.above up.here up.below
      moveAll kind fuel (down.here :: down.above) down.below
    else moveAll kind fuel (next :: above) below

/-- How many runs a pass may look at: a run passes each line at most once between two joins. -/
def passFuel (runs : List EditRun) : Nat :=
  let lines := runs.foldr (fun run n => run.lines.length + n) 1
  lines * lines

def compact (runs : List EditRun) : List EditRun :=
  let runs := moveAll .delete (passFuel runs) [] runs
  moveAll .insert (passFuel runs) [] runs

/-! ### Changes -/

/-- The lines that a script deletes and inserts between two runs of kept lines. -/
def changed (deleted inserted : List Text) : List EditRun :=
  run .delete deleted ++ run .insert inserted

/-- The script with the deletions before the insertions between kept lines. -/
def arrange : (deleted inserted : List Text) → List EditRun → List EditRun
  | deleted, inserted, [] => changed deleted inserted
  | deleted, inserted, ⟨.delete, lines⟩ :: more => arrange (deleted ++ lines) inserted more
  | deleted, inserted, ⟨.insert, lines⟩ :: more => arrange deleted (inserted ++ lines) more
  | deleted, inserted, ⟨.keep, lines⟩ :: more =>
    changed deleted inserted ++ ⟨.keep, lines⟩ :: arrange [] [] more

def changes (old new : List Text) : List EditRun :=
  arrange [] [] (compact (script (old.length + new.length + 1) old new))

end MarkdownDirectives.Diff
