import MarkdownDirectives.Link.Alias
import MarkdownDirectives.Error

/-!
# The link table

A link table gives each reference one alias. Its entries stay in the order of their creation, and
the number of an alias is its position, so no two aliases agree. Two indexes lead from a reference
and from a name to the position of the entry. They grow with the entries and never disagree with
them, so a look-up in an index finds what a search through the entries would find.
-/

namespace MarkdownDirectives

/-- A name, which is an alias, and the reference it stands for. -/
structure Link where
  name : Text
  reference : Text
  deriving DecidableEq, Repr

/-- Positions by key; what was inserted last counts. -/
abbrev Index := List (Text × Nat)

namespace LinkTable

/-- The indexes find the first entry with a key, and the names are stems with the numbers of the
positions. -/
structure Coherent (links : List Link) (byReference byName : Index) : Prop where
  references : ∀ key, byReference.lookup key = links.findIdx? (·.reference == key)
  names : ∀ key, byName.lookup key = links.findIdx? (·.name == key)
  numbered : ∀ position link, links[position]? = some link →
    ∃ stem, Alias.isAlias stem = true ∧ link.name = Alias.numbered stem (position + 1)

theorem Coherent.empty : Coherent [] [] [] := by
  refine ⟨fun _ => rfl, fun _ => rfl, fun position link h => ?_⟩
  simp at h

/-- An index with the key of a new entry finds what is found in the entries with the new one. -/
theorem lookup_insert {key : Link → Text} {links : List Link} {index : Index} (link : Link)
    (h : ∀ k, index.lookup k = links.findIdx? (key · == k)) (hn : ∀ l ∈ links, key l ≠ key link)
    (k : Text) :
    List.lookup k ((key link, links.length) :: index) =
      (links ++ [link]).findIdx? (key · == k) := by
  rw [List.findIdx?_append, ← h]
  by_cases hk : key link = k
  · subst hk
    have hnone : index.lookup (key link) = none := by
      rw [h, List.findIdx?_eq_none_iff]
      intro l hl
      simpa using hn l hl
    simp [hnone]
  · have hk' : (k == key link) = false := beq_eq_false_iff_ne.mpr (Ne.symm hk)
    simp [List.lookup_cons, hk, hk']

theorem Coherent.name_ne {links : List Link} {byReference byName : Index}
    (h : Coherent links byReference byName) (stem : Text) :
    ∀ link ∈ links, link.name ≠ Alias.numbered stem (links.length + 1) := by
  intro link hl hn
  obtain ⟨position, hlt, rfl⟩ := List.mem_iff_getElem.mp hl
  obtain ⟨stem', -, hs⟩ := h.numbered position _ (List.getElem?_eq_getElem hlt)
  have hnumber := Alias.numbered_inj (hs.symm.trans hn)
  omega

theorem Coherent.record {links : List Link} {byReference byName : Index}
    (h : Coherent links byReference byName) {reference : Text}
    (hr : ∀ link ∈ links, link.reference ≠ reference) {stem : Text}
    (hs : Alias.isAlias stem = true) :
    Coherent (links ++ [⟨Alias.numbered stem (links.length + 1), reference⟩])
      ((reference, links.length) :: byReference)
      ((Alias.numbered stem (links.length + 1), links.length) :: byName) where
  references := lookup_insert ⟨_, reference⟩ h.references hr
  names := lookup_insert ⟨_, reference⟩ h.names (h.name_ne stem)
  numbered := by
    intro position link hl
    rcases Nat.lt_trichotomy position links.length with hlt | rfl | hgt
    · rw [List.getElem?_append_left hlt] at hl
      exact h.numbered position link hl
    · rw [List.getElem?_concat_length] at hl
      cases hl
      exact ⟨stem, hs, rfl⟩
    · rw [List.getElem?_eq_none (by simp; omega)] at hl
      cases hl

end LinkTable

structure LinkTable where
  links : List Link
  byReference : Index
  byName : Index
  coherent : LinkTable.Coherent links byReference byName
  deriving DecidableEq, Repr

namespace LinkTable

def empty : LinkTable := ⟨[], [], [], .empty⟩

def size (table : LinkTable) : Nat := table.links.length

def aliasOf? (table : LinkTable) (reference : Text) : Option Text :=
  (table.byReference.lookup reference).bind fun position => table.links[position]?.map (·.name)

def referenceOf? (table : LinkTable) (name : Text) : Option Text :=
  (table.byName.lookup name).bind fun position => table.links[position]?.map (·.reference)

theorem aliasOf?_eq (table : LinkTable) (reference : Text) :
    table.aliasOf? reference = (table.links.find? (·.reference == reference)).map (·.name) := by
  rw [aliasOf?, table.coherent.references, List.find?_eq_bind_findIdx?_getElem?, Option.map_bind]
  rfl

theorem referenceOf?_eq (table : LinkTable) (name : Text) :
    table.referenceOf? name = (table.links.find? (·.name == name)).map (·.reference) := by
  rw [referenceOf?, table.coherent.names, List.find?_eq_bind_findIdx?_getElem?, Option.map_bind]
  rfl

theorem aliasOf?_eq_none_iff {table : LinkTable} {reference : Text} :
    table.aliasOf? reference = none ↔ ∀ link ∈ table.links, link.reference ≠ reference := by
  rw [aliasOf?_eq, Option.map_eq_none_iff, List.find?_eq_none]
  simp

def nextAlias (table : LinkTable) (stem : Text) : Text := Alias.numbered stem (table.size + 1)

/-- The table with an entry for a reference that has none. -/
def record (table : LinkTable) (stem reference : Text) (valid : Alias.isAlias stem = true)
    (new : table.aliasOf? reference = none) : LinkTable where
  links := table.links ++ [⟨table.nextAlias stem, reference⟩]
  byReference := (reference, table.size) :: table.byReference
  byName := (table.nextAlias stem, table.size) :: table.byName
  coherent := table.coherent.record (aliasOf?_eq_none_iff.mp new) valid

theorem aliasOf?_record {table : LinkTable} {stem reference : Text}
    (valid : Alias.isAlias stem = true) (new : table.aliasOf? reference = none) :
    (table.record stem reference valid new).aliasOf? reference = some (table.nextAlias stem) := by
  simp [aliasOf?, record, size]

/-- The alias of a reference, recorded on the first request for it. Blanks around the reference do
not count, and a known reference keeps its alias whatever stem is asked for. The table outlives a
refused request. -/
def giveAlias (table : LinkTable) (reference stem : Text) : Except Error Text × LinkTable :=
  if reference.trim = [] then (.error (.blankReference reference), table)
  else
    match named : Alias.normalize? stem with
    | none => (.error (.invalidStem reference stem), table)
    | some word =>
      match new : table.aliasOf? reference.trim with
      | some known => (.ok known, table)
      | none =>
        (.ok (table.nextAlias word),
          table.record word reference.trim (Alias.normalize?_eq_some_iff.mp named).2 new)

section

variable {table : LinkTable} {reference stem word name : Text}

theorem giveAlias_blank (h : reference.trim = []) (table : LinkTable) (stem : Text) :
    table.giveAlias reference stem = (.error (.blankReference reference), table) := by
  rw [giveAlias, if_pos h]

theorem giveAlias_invalid (hr : reference.trim ≠ []) (hs : Alias.normalize? stem = none)
    (table : LinkTable) :
    table.giveAlias reference stem = (.error (.invalidStem reference stem), table) := by
  rw [giveAlias, if_neg hr]
  split
  · rfl
  · next word hw => simp [hs] at hw

theorem giveAlias_known (hr : reference.trim ≠ []) (hs : Alias.normalize? stem = some word)
    (hk : table.aliasOf? reference.trim = some name) :
    table.giveAlias reference stem = (.ok name, table) := by
  rw [giveAlias, if_neg hr]
  split
  · next hw => simp [hs] at hw
  · split
    · next known hk' =>
      rw [hk, Option.some.injEq] at hk'
      rw [hk']
    · next hk' => simp [hk] at hk'

theorem giveAlias_new (hr : reference.trim ≠ []) (hs : Alias.normalize? stem = some word)
    (new : table.aliasOf? reference.trim = none) :
    table.giveAlias reference stem =
      (.ok (table.nextAlias word),
        table.record word reference.trim (Alias.normalize?_eq_some_iff.mp hs).2 new) := by
  rw [giveAlias, if_neg hr]
  split
  · next hw => simp [hs] at hw
  · next word' hw =>
    cases hs.symm.trans hw
    split
    · next known hk => simp [new] at hk
    · rfl

end

def aliasFor (table : LinkTable) (reference stem : Text) : Except Error (Text × LinkTable) :=
  let (result, table) := table.giveAlias reference stem
  result.map (·, table)

def reference (table : LinkTable) (name : Text) : Except Error Text :=
  match Alias.normalize? name with
  | none => .error (.invalidAlias name)
  | some word =>
    match table.referenceOf? word with
    | some reference => .ok reference
    | none => .error (.unknownAlias name)

def definition (link : Link) : Text :=
  '[' :: link.name ++ "]: ".toList ++ link.reference ++ ['\n']

def render (table : LinkTable) : Text := table.links.flatMap definition

end LinkTable

end MarkdownDirectives
