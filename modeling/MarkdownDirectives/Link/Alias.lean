import MarkdownDirectives.Text.Basic

/-!
# Aliases

An alias consists of words of lower-case ASCII letters and digits, joined by single hyphens. A text
names an alias up to blanks around it and up to letter case.
-/

namespace MarkdownDirectives.Alias

/-- Lower case as far as an alias can hold it: besides the ASCII capitals only the Kelvin sign
`U+212A` has an ASCII lower case, and no alias holds another character. -/
def lowerCase (c : Char) : Char := if c = '\u212A' then 'k' else c.toLower

def isWordCharacter (c : Char) : Bool := ('a' ≤ c && c ≤ 'z') || c.isDigit

/-- Whether a text is an alias: words joined by single hyphens. -/
def isAlias (t : Text) : Bool :=
  (t.splitOn '-').all fun word => !word.isEmpty && word.all isWordCharacter

def normalize? (t : Text) : Option Text :=
  let candidate := t.trim.map lowerCase
  if isAlias candidate then some candidate else none

theorem normalize?_eq_some_iff {name word : Text} :
    normalize? name = some word ↔ name.trim.map lowerCase = word ∧ isAlias word = true := by
  simp only [normalize?, Option.ite_none_right_eq_some, Option.some.injEq]
  constructor
  · rintro ⟨h, rfl⟩
    exact ⟨rfl, h⟩
  · rintro ⟨rfl, h⟩
    exact ⟨h, rfl⟩

def defaultStem : Text := "link".toList

def numbered (stem : Text) (number : Nat) : Text := stem ++ '-' :: Text.ofNat number

theorem hyphen_not_mem_ofNat (number : Nat) : '-' ∉ Text.ofNat number := by
  intro h
  have hd := Text.isDigit_of_mem_ofNat h
  exact absurd hd (by decide)

/-- The last hyphen stands in front of the number, so the number can be told from the alias. -/
theorem numbered_inj {stem stem' : Text} {number number' : Nat}
    (h : numbered stem number = numbered stem' number') : number = number' := by
  have key : ∀ {front d d' : Text}, '-' ∉ d → '-' :: d = front ++ '-' :: d' → d = d' := by
    intro front d d' hd he
    cases front with
    | nil => exact (List.cons.inj he).2
    | cons c front =>
      have hm : '-' ∈ d := by
        rw [(List.cons.inj he).2]
        simp
      exact absurd hm hd
  rw [numbered, numbered, List.append_eq_append_iff] at h
  rcases h with ⟨front, -, hd⟩ | ⟨front, -, hd⟩
  · exact Text.ofNat_inj (key (hyphen_not_mem_ofNat number) hd)
  · exact (Text.ofNat_inj (key (hyphen_not_mem_ofNat number') hd)).symm

end MarkdownDirectives.Alias
