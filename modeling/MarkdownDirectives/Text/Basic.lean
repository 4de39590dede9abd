/-!
# Texts, blanks and lines

A text is the list of its characters. Blank characters are those of the Unicode property
`White_Space`; trimming removes them at both ends. Cutting a text at a separator and joining the
pieces again gives the text back; the lines of a text are its pieces between line feeds.
-/

namespace MarkdownDirectives

abbrev Text := List Char

namespace Text

/-! ### Blanks -/

/-- The characters with the Unicode property `White_Space`. -/
def isBlank (c : Char) : Bool :=
  let n := c.toNat
  (9 ≤ n && n ≤ 13) || n == 0x20 || n == 0x85 || n == 0xA0 || n == 0x1680 ||
    (0x2000 ≤ n && n ≤ 0x200A) || n == 0x2028 || n == 0x2029 || n == 0x202F || n == 0x205F ||
    n == 0x3000

/-- A space or a tab: the blanks that may stand inside a tag line. -/
def isSpace (c : Char) : Bool := c == ' ' || c == '\t'

def dropEndWhile (p : Char → Bool) : Text → Text
  | [] => []
  | c :: rest =>
    match dropEndWhile p rest with
    | [] => if p c then [] else [c]
    | kept => c :: kept

def trimWhile (p : Char → Bool) (t : Text) : Text := dropEndWhile p (t.dropWhile p)

def trim (t : Text) : Text := trimWhile isBlank t

/-! ### Cutting and joining -/

/-- The pieces of a text before, between and after the occurrences of a separator. -/
def splitOn (separator : Char) : Text → List Text
  | [] => [[]]
  | c :: rest =>
    if c = separator then [] :: splitOn separator rest
    else
      match splitOn separator rest with
      | [] => [[c]]
      | piece :: more => (c :: piece) :: more

/-- The text with the given pieces, one separator between each two of them. -/
def joinWith (separator : Char) : List Text → Text
  | [] => []
  | [piece] => piece
  | piece :: more => piece ++ separator :: joinWith separator more

theorem splitOn_ne_nil (separator : Char) (t : Text) : splitOn separator t ≠ [] := by
  cases t with
  | nil => simp [splitOn]
  | cons c rest =>
    simp only [splitOn]
    split
    · simp
    · split <;> simp

theorem joinWith_splitOn (separator : Char) (t : Text) :
    joinWith separator (splitOn separator t) = t := by
  induction t with
  | nil => rfl
  | cons c rest ih =>
    have hne := splitOn_ne_nil separator rest
    simp only [splitOn]
    split
    · next hc =>
      subst hc
      match h : splitOn c rest with
      | [] => exact absurd h hne
      | piece :: more => rw [h] at ih; simp [joinWith, ih]
    · match h : splitOn separator rest with
      | [] => exact absurd h hne
      | [piece] => rw [h] at ih; simpa [joinWith] using ih
      | piece :: next :: more => rw [h] at ih; simpa [joinWith] using ih

/-- The lines of a text: what stands before, between and after its line feeds. -/
def lines (t : Text) : List Text := splitOn '\n' t

def ofLines (lines : List Text) : Text := joinWith '\n' lines

theorem ofLines_lines (t : Text) : ofLines (lines t) = t := joinWith_splitOn '\n' t

/-! ### Searching -/

def contains (part : Text) : Text → Bool
  | [] => part.isEmpty
  | c :: rest => part.isPrefixOf (c :: rest) || contains part rest

def ofNat (n : Nat) : Text := Nat.toDigits 10 n

theorem ofNat_ne_nil (n : Nat) : ofNat n ≠ [] := Nat.toDigits_ne_nil

theorem isDigit_of_mem_ofNat {n : Nat} {c : Char} (h : c ∈ ofNat n) : c.isDigit = true :=
  Nat.isDigit_of_mem_toDigits (by decide) (by decide) h

def ofInt : Int → Text
  | .ofNat n => ofNat n
  | .negSucc n => '-' :: ofNat (n + 1)

/-- The number that a text of ASCII digits writes in base ten. -/
def digitsValue (t : Text) : Nat := t.foldl (fun n c => 10 * n + (c.toNat - '0'.toNat)) 0

theorem digitsValue_ofNat (n : Nat) : digitsValue (ofNat n) = n := Nat.ofDigitChars_ten_toDigits

theorem ofNat_inj {m n : Nat} (h : ofNat m = ofNat n) : m = n := by
  rw [← digitsValue_ofNat m, h, digitsValue_ofNat]

def byteLength (t : Text) : Nat := t.foldr (fun c n => c.utf8Size + n) 0

end Text

end MarkdownDirectives
