import Mathlib.Data.List.Induction
import Mathlib.Data.List.Nodup
import MarkdownDirectives.Proofs.LineBreaks
import MarkdownDirectives.Link.Table

/-!
# Runs of a link table

A run hands request after request to a table that is empty at first. One request leaves the table or
records one entry for a reference that has none, and it records nothing when it is refused; what
holds after every run follows from this by induction over the requests.
-/

namespace MarkdownDirectives

namespace Alias

/-- A hyphen and a number after an alias make an alias. -/
theorem isAlias_numbered {stem : Text} (h : isAlias stem = true) (number : Nat) :
    isAlias (numbered stem number) = true := by
  have hd : (Text.ofNat number).all isWordCharacter = true := by
    rw [List.all_eq_true]
    intro c hc
    simp [isWordCharacter, Text.isDigit_of_mem_ofNat hc]
  have hs : (numbered stem number).splitOn '-' = stem.splitOn '-' ++ [Text.ofNat number] := by
    rw [numbered, Text.splitOn_append, Text.splitOn_of_not_mem (hyphen_not_mem_ofNat number)]
  rw [isAlias, hs, List.all_append, Bool.and_eq_true]
  refine ⟨h, ?_⟩
  simp [hd, Text.ofNat_ne_nil]

end Alias

/-- What is asked of a link table: the alias of a reference or the reference of an alias. -/
inductive LinkRequest where
  | aliasOf (reference stem : Text)
  | referenceOf (name : Text)

namespace LinkTable

variable {table : LinkTable} {request : LinkRequest} {requests : List LinkRequest} {link : Link}

def serve (table : LinkTable) : LinkRequest → Except Error Text × LinkTable
  | .aliasOf reference stem => table.giveAlias reference stem
  | .referenceOf name => (table.reference name, table)

/-- The table after a sequence of requests, refused ones included. -/
def serveAll (table : LinkTable) (requests : List LinkRequest) : LinkTable :=
  requests.foldl (fun table request => (table.serve request).2) table

theorem serveAll_append (table : LinkTable) (requests more : List LinkRequest) :
    table.serveAll (requests ++ more) = (table.serveAll requests).serveAll more :=
  List.foldl_append

/-! ### One request -/

/-- A request leaves the table, or it asks for the alias of a reference without one and is answered
with the alias of the entry that it records. -/
theorem serve_cases (table : LinkTable) (request : LinkRequest) :
    (table.serve request).2 = table ∨
      ∃ reference stem word valid new, request = .aliasOf reference stem ∧ reference.trim ≠ [] ∧
        Alias.normalize? stem = some word ∧
        table.serve request =
          (.ok (table.nextAlias word), table.record word reference.trim valid new) := by
  cases request with
  | referenceOf name => exact .inl rfl
  | aliasOf reference stem =>
    by_cases hr : reference.trim = []
    · left
      rw [serve, giveAlias_blank hr]
    cases hs : Alias.normalize? stem with
    | none =>
      left
      rw [serve, giveAlias_invalid hr hs]
    | some word =>
      cases hk : table.aliasOf? reference.trim with
      | some name =>
        left
        rw [serve, giveAlias_known hr hs hk]
      | none => exact .inr ⟨reference, stem, word, _, hk, rfl, hr, hs, giveAlias_new hr hs hk⟩

theorem serve_of_error {e : Error} (h : (table.serve request).1 = .error e) :
    (table.serve request).2 = table := by
  obtain hs | ⟨reference, stem, word, valid, new, -, -, -, hs⟩ := serve_cases table request
  · exact hs
  · rw [hs] at h
    cases h

theorem prefix_serve (table : LinkTable) (request : LinkRequest) :
    table.links <+: (table.serve request).2.links := by
  obtain hs | ⟨reference, stem, word, valid, new, -, -, -, hs⟩ := serve_cases table request
  · simp only [hs, List.prefix_rfl]
  · rw [hs]
    exact List.prefix_append _ _

/-- No two entries have one reference. -/
def Distinct (table : LinkTable) : Prop := (table.links.map (·.reference)).Nodup

theorem distinct_empty : empty.Distinct := List.nodup_nil

theorem Distinct.serve (h : table.Distinct) (request : LinkRequest) :
    (table.serve request).2.Distinct := by
  obtain hs | ⟨reference, stem, word, valid, new, -, -, -, hs⟩ := serve_cases table request
  · rw [hs]
    exact h
  · have hnew := aliasOf?_eq_none_iff.mp new
    rw [hs, Distinct, record, List.map_append, List.nodup_append]
    refine ⟨h, by simp, ?_⟩
    intro a ha b hb
    obtain ⟨link, hl, rfl⟩ := List.mem_map.mp ha
    rw [List.map_singleton, List.mem_singleton] at hb
    rw [hb]
    exact hnew link hl

/-! ### Runs -/

theorem prefix_serveAll (table : LinkTable) (requests : List LinkRequest) :
    table.links <+: (table.serveAll requests).links := by
  induction requests generalizing table with
  | nil => exact List.prefix_rfl
  | cons request more ih => exact (prefix_serve table request).trans (ih (table.serve request).2)

theorem Distinct.serveAll (h : table.Distinct) (requests : List LinkRequest) :
    (table.serveAll requests).Distinct := by
  induction requests generalizing table with
  | nil => exact h
  | cons request more ih => exact ih (h.serve request)

/-- The request that records an entry stands in the run where the table has as many entries as
stand before that entry. -/
def RecordedBy (requests : List LinkRequest) (position : Nat) (link : Link) : Prop :=
  ∃ before reference stem word more, requests = before ++ .aliasOf reference stem :: more ∧
    (empty.serveAll before).size = position ∧
    ((empty.serveAll before).serve (.aliasOf reference stem)).1 = .ok link.name ∧
    reference.trim ≠ [] ∧ Alias.normalize? stem = some word ∧
    link = ⟨Alias.numbered word (position + 1), reference.trim⟩

theorem RecordedBy.concat {position : Nat} (h : RecordedBy requests position link)
    (request : LinkRequest) : RecordedBy (requests ++ [request]) position link := by
  obtain ⟨before, reference, stem, word, more, rfl, hrest⟩ := h
  exact ⟨before, reference, stem, word, more ++ [request],
    List.append_assoc before (.aliasOf reference stem :: more) [request], hrest⟩

theorem recordedBy_serveAll {position : Nat}
    (h : (empty.serveAll requests).links[position]? = some link) :
    RecordedBy requests position link := by
  induction requests using List.reverseRecOn with
  | nil => simp [serveAll, empty] at h
  | append_singleton requests request ih =>
    have hrun : empty.serveAll (requests ++ [request]) =
        ((empty.serveAll requests).serve request).2 := serveAll_append _ _ _
    rw [hrun] at h
    obtain hs | ⟨reference, stem, word, valid, new, rfl, hr, hw, hs⟩ :=
      serve_cases (empty.serveAll requests) request
    · rw [hs] at h
      exact (ih h).concat request
    · rw [hs, record] at h
      rcases Nat.lt_trichotomy position (empty.serveAll requests).links.length with hlt | he | hgt
      · rw [List.getElem?_append_left hlt] at h
        exact (ih h).concat _
      · rw [he, List.getElem?_concat_length, Option.some.injEq] at h
        refine ⟨requests, reference, stem, word, [], rfl, he.symm, ?_, hr, hw, ?_⟩
        · rw [hs, ← h]
        · rw [← h, nextAlias, he, size]
      · rw [List.getElem?_eq_none (by simp; omega)] at h
        cases h

/-! ### Looking up -/

/-- Names are numbered, so no two entries have one name. -/
theorem nodup_names (table : LinkTable) : (table.links.map (·.name)).Nodup := by
  rw [List.nodup_iff_getElem?_ne_getElem?]
  intro i j hij hj he
  rw [List.length_map] at hj
  have hi : i < table.links.length := Nat.lt_trans hij hj
  obtain ⟨stem, -, hs⟩ := table.coherent.numbered i _ (List.getElem?_eq_getElem hi)
  obtain ⟨stem', -, hs'⟩ := table.coherent.numbered j _ (List.getElem?_eq_getElem hj)
  rw [List.getElem?_map, List.getElem?_map, List.getElem?_eq_getElem hi,
    List.getElem?_eq_getElem hj, Option.map_some, Option.map_some, hs, hs', Option.some.injEq] at he
  have hnumber := Alias.numbered_inj he
  omega

theorem isAlias_name (table : LinkTable) (hl : link ∈ table.links) :
    Alias.isAlias link.name = true := by
  obtain ⟨position, hp⟩ := List.mem_iff_getElem?.mp hl
  obtain ⟨stem, hs, hn⟩ := table.coherent.numbered position link hp
  rw [hn]
  exact Alias.isAlias_numbered hs _

/-- Where no two entries share a key, an index that finds the first entry with a key leads from the
key of each entry to its position and from nothing else. -/
theorem lookup_eq_some_iff {key : Link → Text} {links : List Link} {index : Index}
    (h : ∀ k, index.lookup k = links.findIdx? (key · == k)) (hd : (links.map key).Nodup)
    {k : Text} {position : Nat} :
    index.lookup k = some position ↔ links[position]?.map key = some k := by
  rw [h, List.findIdx?_eq_some_iff_getElem]
  constructor
  · rintro ⟨hlt, hk, -⟩
    rw [List.getElem?_eq_getElem hlt, Option.map_some, beq_iff_eq.mp hk]
  · intro hk
    obtain ⟨link, hl, hlk⟩ := Option.map_eq_some_iff.mp hk
    obtain ⟨hlt, rfl⟩ := List.getElem?_eq_some_iff.mp hl
    refine ⟨hlt, beq_iff_eq.mpr hlk, fun j hj hjk => ?_⟩
    have hne := List.nodup_iff_getElem?_ne_getElem?.mp hd j position hj (by simpa using hlt)
    apply hne
    rw [List.getElem?_map, List.getElem?_map, List.getElem?_eq_getElem (Nat.lt_trans hj hlt),
      List.getElem?_eq_getElem hlt, Option.map_some, Option.map_some, hlk, beq_iff_eq.mp hjk]

theorem byReference_eq_some_iff (h : table.Distinct) {reference : Text} {position : Nat} :
    table.byReference.lookup reference = some position ↔
      table.links[position]?.map (·.reference) = some reference :=
  lookup_eq_some_iff table.coherent.references h

theorem byName_eq_some_iff {name : Text} {position : Nat} :
    table.byName.lookup name = some position ↔
      table.links[position]?.map (·.name) = some name :=
  lookup_eq_some_iff table.coherent.names table.nodup_names

theorem aliasOf?_of_mem (h : table.Distinct) (hl : link ∈ table.links) :
    table.aliasOf? link.reference = some link.name := by
  obtain ⟨position, hp⟩ := List.mem_iff_getElem?.mp hl
  have hk : table.byReference.lookup link.reference = some position := by
    rw [byReference_eq_some_iff h, hp, Option.map_some]
  rw [aliasOf?, hk, Option.bind_some, hp, Option.map_some]

theorem referenceOf?_of_mem (hl : link ∈ table.links) :
    table.referenceOf? link.name = some link.reference := by
  obtain ⟨position, hp⟩ := List.mem_iff_getElem?.mp hl
  have hk : table.byName.lookup link.name = some position := by
    rw [byName_eq_some_iff, hp, Option.map_some]
  rw [referenceOf?, hk, Option.bind_some, hp, Option.map_some]

theorem referenceOf?_eq_none {name : Text} (h : ∀ link ∈ table.links, link.name ≠ name) :
    table.referenceOf? name = none := by
  rw [referenceOf?_eq, Option.map_eq_none_iff, List.find?_eq_none]
  intro link hl
  simpa using h link hl

/-! ### What holds after every run -/

/-- Entries and indexes of the table after a run: references and aliases answer to each other one
to one, and this lasts. -/
structure Bijective (requests : List LinkRequest) (table : LinkTable) : Prop where
  /-- Each entry was recorded when as many entries stood in the table as stand before it, by a
  request that got its name; stem and reference are those of the request. -/
  recorded : ∀ position link, table.links[position]? = some link →
    ∃ before reference stem more, requests = before ++ .aliasOf reference stem :: more ∧
      (empty.serveAll before).size = position ∧
      ((empty.serveAll before).serve (.aliasOf reference stem)).1 = .ok link.name ∧
      link.name = stem.trim.map Alias.lowerCase ++ '-' :: Text.ofNat (position + 1) ∧
      link.reference = reference.trim
  /-- A valid request for a reference without an entry gets the next number after its stem, and
  appends just this entry. -/
  created : ∀ reference stem, reference.trim ≠ [] →
    Alias.isAlias (stem.trim.map Alias.lowerCase) = true →
    (∀ link ∈ table.links, link.reference ≠ reference.trim) →
    ∃ name, name = stem.trim.map Alias.lowerCase ++ '-' :: Text.ofNat (table.size + 1) ∧
      (table.serve (.aliasOf reference stem)).1 = .ok name ∧
      (table.serve (.aliasOf reference stem)).2.links = table.links ++ [⟨name, reference.trim⟩]
  names : (table.links.map (·.name)).Nodup ∧ ∀ link ∈ table.links, Alias.isAlias link.name = true
  references : (table.links.map (·.reference)).Nodup
  /-- A recorded reference keeps its alias, whatever valid stem is asked for. -/
  known : ∀ link ∈ table.links, ∀ reference stem, reference.trim = link.reference →
    Alias.isAlias (stem.trim.map Alias.lowerCase) = true →
    table.serve (.aliasOf reference stem) = (.ok link.name, table)
  /-- A recorded alias leads back to its reference, in whatever case it is written. -/
  found : ∀ link ∈ table.links, ∀ name, name.trim.map Alias.lowerCase = link.name →
    table.serve (.referenceOf name) = (.ok link.reference, table)
  unknown : ∀ name, (∀ link ∈ table.links, name.trim.map Alias.lowerCase ≠ link.name) →
    ∃ e, table.serve (.referenceOf name) = (.error e, table)
  indexed : ∀ key position,
    (table.byReference.lookup key = some position ↔
      table.links[position]?.map (·.reference) = some key) ∧
    (table.byName.lookup key = some position ↔
      table.links[position]?.map (·.name) = some key)
  lasting : ∀ more, table.links <+: (table.serveAll more).links
  refused : ∀ request e, (table.serve request).1 = .error e → (table.serve request).2 = table

/-- After every run of requests on an empty table the entries are a lasting bijection between
references and numbered aliases, and both indexes agree with them. -/
theorem serveAll_bijective (requests : List LinkRequest) :
    Bijective requests (empty.serveAll requests) := by
  have hd : (empty.serveAll requests).Distinct := distinct_empty.serveAll requests
  have hvisible : ∀ link ∈ (empty.serveAll requests).links, link.reference ≠ [] := by
    intro link hl
    obtain ⟨position, hp⟩ := List.mem_iff_getElem?.mp hl
    obtain ⟨-, reference, stem, word, -, -, -, -, hr, -, rfl⟩ := recordedBy_serveAll hp
    exact hr
  constructor
  case recorded =>
    intro position link hl
    obtain ⟨before, reference, stem, word, more, hreq, hsize, hok, -, hw, rfl⟩ :=
      recordedBy_serveAll hl
    obtain ⟨rfl, -⟩ := Alias.normalize?_eq_some_iff.mp hw
    exact ⟨before, reference, stem, more, hreq, hsize, hok, rfl, rfl⟩
  case created =>
    intro reference stem hr hs hnew
    have hw : Alias.normalize? stem = some _ := Alias.normalize?_eq_some_iff.mpr ⟨rfl, hs⟩
    have hgiven := giveAlias_new hr hw (aliasOf?_eq_none_iff.mpr hnew)
    exact ⟨_, rfl, congrArg Prod.fst hgiven, congrArg (fun r => r.2.links) hgiven⟩
  case names => exact ⟨nodup_names _, fun link hl => isAlias_name _ hl⟩
  case references => exact hd
  case known =>
    intro link hl reference stem hr hs
    have hne : reference.trim ≠ [] := by
      rw [hr]
      exact hvisible link hl
    have hk := aliasOf?_of_mem hd hl
    rw [← hr] at hk
    exact giveAlias_known hne (Alias.normalize?_eq_some_iff.mpr ⟨rfl, hs⟩) hk
  case found =>
    intro link hl name hn
    have hw : Alias.normalize? name = some link.name :=
      Alias.normalize?_eq_some_iff.mpr ⟨hn, isAlias_name _ hl⟩
    simp only [serve, reference, hw, referenceOf?_of_mem hl]
  case unknown =>
    intro name hn
    cases hw : Alias.normalize? name with
    | none => exact ⟨.invalidAlias name, by simp only [serve, reference, hw]⟩
    | some word =>
      obtain ⟨rfl, -⟩ := Alias.normalize?_eq_some_iff.mp hw
      have hnone := referenceOf?_eq_none fun link hl => (hn link hl).symm
      exact ⟨.unknownAlias name, by simp only [serve, reference, hw, hnone]⟩
  case indexed => exact fun key position => ⟨byReference_eq_some_iff hd, byName_eq_some_iff⟩
  case lasting => exact prefix_serveAll _
  case refused => exact fun request e => serve_of_error

end LinkTable

end MarkdownDirectives
