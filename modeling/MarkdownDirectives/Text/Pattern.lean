import MarkdownDirectives.Text.Basic

/-!
# Patterns

A pattern says what a text looks like: a character of a class, one pattern after another, one of two
patterns, or a pattern any number of times, with groups that keep what they took under a number. A
pattern is tried at one place in all its ways, the preferred one first: the first of two patterns
before the second, and one repetition more before none. A search goes from left to right.
-/

namespace MarkdownDirectives

inductive Pattern where
  | char (accepts : Char → Bool)
  | seq (first second : Pattern)
  | either (first second : Pattern)
  | many (body : Pattern)
  | group (number : Nat) (body : Pattern)

namespace Pattern

instance : Append Pattern := ⟨seq⟩

def literal (c : Char) : Pattern := char (· == c)

def many1 (p : Pattern) : Pattern := p ++ many p

def between (quote : Char) (p : Pattern) : Pattern := literal quote ++ p ++ literal quote

/-! ### Trying a pattern at one place -/

/-- The texts that the groups took, the latest first. -/
abbrev Groups := List (Nat × Text)

/-- One way to take a front of a text: what the groups took, and what is left of the text. -/
structure Match where
  groups : Groups
  rest : Text

def Match.after (earlier : Groups) (m : Match) : Match := { m with groups := m.groups ++ earlier }

/-- Up to `fuel` repetitions, each of which takes something. -/
def repeated (once : Text → List Match) : (fuel : Nat) → Text → List Match
  | 0, t => [⟨[], t⟩]
  | fuel + 1, t =>
    ((once t).flatMap fun m =>
      if m.rest.length < t.length then (repeated once fuel m.rest).map (.after m.groups) else []) ++
    [⟨[], t⟩]

/-- The ways to take a front of a text, the preferred one first. -/
def ways : Pattern → Text → List Match
  | char _, [] => []
  | char accepts, c :: rest => if accepts c then [⟨[], rest⟩] else []
  | seq p q, t => (p.ways t).flatMap fun m => (q.ways m.rest).map (.after m.groups)
  | either p q, t => p.ways t ++ q.ways t
  | many p, t => repeated p.ways t.length t
  | group number p, t => (p.ways t).map fun m =>
    { m with groups := (number, t.take (t.length - m.rest.length)) :: m.groups }

def whole? (p : Pattern) (t : Text) : Option Groups :=
  ((p.ways t).find? (·.rest.isEmpty)).map Match.groups

/-! ### Searching -/

/-- A text that no match takes, or the groups of a match. -/
inductive Piece where
  | text (t : Text)
  | found (groups : Groups)

def Piece.consChar (c : Char) : List Piece → List Piece
  | .text t :: more => .text (c :: t) :: more
  | pieces => .text [c] :: pieces

/-- The matches of a pattern that takes no empty text, from left to right, and the texts around
them, after passing over `skip` characters that a match takes. -/
def search (p : Pattern) : (skip : Nat) → Text → List Piece
  | _, [] => []
  | skip + 1, _ :: rest => p.search skip rest
  | 0, c :: rest =>
    match (p.ways (c :: rest)).head? with
    | some m => .found m.groups :: p.search (rest.length - m.rest.length) rest
    | none => Piece.consChar c (p.search 0 rest)

end Pattern

end MarkdownDirectives
