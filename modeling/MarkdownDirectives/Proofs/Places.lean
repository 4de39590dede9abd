import MarkdownDirectives.Files.Disk
import MarkdownDirectives.Proofs.LineBreaks

/-!
# Where paths lead

Where a path leads can be read off the path and the working folder alone. The disk only decides
whether one gets there: every location passed on the way must be a folder. So the operations on a
path are described by its location, the route to it and the entries there, and nothing that follows
has to walk again.
-/

namespace MarkdownDirectives

/-! ### Steps -/

namespace Disk

/-- Where a step leads from a folder. -/
def advance (location : Location) (step : Text) : Location :=
  if step = ['.'] then location
  else if step = ['.', '.'] then location.dropLast
  else location ++ [step]

def follow (start : Location) (steps : List Text) : Location := steps.foldl advance start

/-- The locations that steps are taken from. -/
def passed : Location → List Text → List Location
  | _, [] => []
  | location, step :: more => location :: passed (advance location step) more

/-- A step that goes down to an entry of its name. -/
def IsName (step : Text) : Prop := step ≠ ['.'] ∧ step ≠ ['.', '.']

instance (step : Text) : Decidable (IsName step) := inferInstanceAs (Decidable (_ ∧ _))

theorem advance_name {step : Text} (h : IsName step) (location : Location) :
    advance location step = location ++ [step] := by
  simp only [advance, h.1, h.2, ite_false]

theorem follow_append (start : Location) (steps more : List Text) :
    follow start (steps ++ more) = follow (follow start steps) more :=
  List.foldl_append

theorem passed_append (start : Location) (steps more : List Text) :
    passed start (steps ++ more) = passed start steps ++ passed (follow start steps) more := by
  induction steps generalizing start with
  | nil => rfl
  | cons step steps ih =>
    simp only [List.cons_append, passed, ih]
    rfl

variable {disk : Disk}

def placeAt (disk : Disk) (location : Location) : Place :=
  match disk.entry? location with
  | some entry => .found location entry
  | none => .free location

theorem walk_cons (start : Location) (step : Text) (more : List Text) :
    disk.walk start (step :: more) =
      match disk.entry? start with
      | none => .error .notFound
      | some (.file _) => .error .notFolder
      | some .folder => disk.walk (advance start step) more := by
  simp only [walk, advance]
  cases disk.entry? start with
  | none => rfl
  | some entry =>
    cases entry with
    | file content => rfl
    | folder =>
      by_cases hd : step = ['.']
      · simp [hd]
      · by_cases hp : step = ['.', '.'] <;> simp [hd, hp]

theorem walk_eq_ok_iff {start : Location} {steps : List Text} {place : Place} :
    disk.walk start steps = .ok place ↔
      (∀ location ∈ passed start steps, disk.entry? location = some .folder) ∧
        place = disk.placeAt (follow start steps) := by
  induction steps generalizing start with
  | nil =>
    have hwalk : disk.walk start [] = .ok (disk.placeAt start) := by
      unfold walk placeAt
      cases disk.entry? start <;> rfl
    rw [hwalk]
    simp only [passed, follow, List.foldl_nil, List.not_mem_nil, false_implies, implies_true,
      true_and, Except.ok.injEq]
    exact eq_comm
  | cons step more ih =>
    have hfollow : follow start (step :: more) = follow (advance start step) more := rfl
    rw [walk_cons, hfollow]
    simp only [passed, List.forall_mem_cons]
    cases he : disk.entry? start with
    | none => simp
    | some entry =>
      cases entry with
      | file content => simp
      | folder => simp [ih]

end Disk

/-! ### Paths -/

namespace Path

/-- Where the steps of a path begin. -/
def start (folder : Location) (p : Path) : Location := if isAbsolute p then [] else folder

/-- Where a path leads from a working folder. -/
def location (folder : Location) (p : Path) : Location :=
  Disk.follow (start folder p) (Disk.steps p)

/-- The locations passed on the way. -/
def route (folder : Location) (p : Path) : List Location :=
  Disk.passed (start folder p) (Disk.steps p)

end Path

namespace Disk

variable {disk : Disk} {folder : Location} {p : Path} {t : Text}

/-- The path can be walked to its end. -/
structure Reaches (disk : Disk) (folder : Location) (p : Path) : Prop where
  nonempty : p ≠ []
  clean : '\x00' ∉ p
  folders : ∀ location ∈ p.route folder, disk.entry? location = some .folder

instance : Decidable (disk.Reaches folder p) :=
  decidable_of_iff
    (p ≠ [] ∧ '\x00' ∉ p ∧ ∀ location ∈ p.route folder, disk.entry? location = some .folder)
    ⟨fun ⟨h, h', h''⟩ => ⟨h, h', h''⟩, fun h => ⟨h.nonempty, h.clean, h.folders⟩⟩

theorem locate_eq_ok_iff {place : Place} :
    disk.locate folder p = .ok place ↔
      disk.Reaches folder p ∧ place = disk.placeAt (p.location folder) := by
  have hwalk := @walk_eq_ok_iff disk (Path.start folder p) (steps p) place
  by_cases hn : '\x00' ∈ p
  · have hany : p.any (· == '\x00') = true := by
      simpa using hn
    simp only [locate, hany, if_true]
    exact ⟨fun h => (nomatch h), fun h => absurd hn h.1.clean⟩
  · have hany : ¬ p.any (· == '\x00') = true := by
      simpa using hn
    by_cases he : p = []
    · subst he
      exact ⟨fun h => (nomatch h), fun h => absurd rfl h.1.nonempty⟩
    · have hempty : ¬ p.isEmpty = true := by
        simpa using he
      simp only [locate, hany, hempty]
      exact hwalk.trans ⟨fun h => ⟨⟨he, hn, h.1⟩, h.2⟩, fun h => ⟨h.1.folders, h.2⟩⟩

theorem entry?_of_locate {other : Location} {entry : Entry}
    (h : disk.locate folder p = .ok (.found other entry)) : disk.entry? other = some entry := by
  have hplace := (locate_eq_ok_iff.mp h).2
  unfold placeAt at hplace
  split at hplace
  · next he =>
    cases hplace
    exact he
  · cases hplace

/-! ### Looking up -/

/-- The entry at a place, if a final slash of the path allows it. -/
def Place.reached (p : Path) : Place → Except FileError (Location × Entry)
  | .free _ => .error .notFound
  | .found location .folder => .ok (location, .folder)
  | .found location (.file content) =>
    if endsWithSlash p then .error .notFolder else .ok (location, .file content)

theorem find_eq : disk.find folder p = (disk.locate folder p).bind (Place.reached p) := by
  unfold find
  cases disk.locate folder p with
  | error e => rfl
  | ok place =>
    cases place with
    | free other => rfl
    | found other entry => cases entry <;> rfl

/-- What stands where the path leads; a final slash asks for a folder. -/
structure Finds (disk : Disk) (folder : Location) (p : Path) (entry : Entry) : Prop where
  reaches : disk.Reaches folder p
  stands : disk.entry? (p.location folder) = some entry
  slash : endsWithSlash p = true → entry = .folder

theorem find_eq_ok_iff {location : Location} {entry : Entry} :
    disk.find folder p = .ok (location, entry) ↔
      location = p.location folder ∧ disk.Finds folder p entry := by
  rw [find_eq]
  constructor
  · intro h
    cases hl : disk.locate folder p with
    | error e =>
      rw [hl] at h
      cases h
    | ok place =>
      obtain ⟨hr, rfl⟩ := locate_eq_ok_iff.mp hl
      rw [hl] at h
      unfold placeAt at h
      cases he : disk.entry? (p.location folder) with
      | none =>
        rw [he] at h
        cases h
      | some found =>
        rw [he] at h
        cases found with
        | folder =>
          cases h
          exact ⟨rfl, hr, he, fun _ => rfl⟩
        | file content =>
          by_cases hs : endsWithSlash p = true
          · simp [Except.bind, Place.reached, hs] at h
          · simp only [Except.bind, Place.reached, hs] at h
            cases h
            exact ⟨rfl, hr, he, fun hslash => absurd hslash hs⟩
  · rintro ⟨rfl, hr, he, hs⟩
    rw [locate_eq_ok_iff.mpr ⟨hr, rfl⟩]
    simp only [Except.bind, placeAt, he]
    cases entry with
    | folder => rfl
    | file content =>
      have hslash : ¬ endsWithSlash p = true := fun h => by cases hs h
      simp only [Place.reached, hslash]
      rfl

theorem entry?_of_find {other : Location} {entry : Entry}
    (h : disk.find folder p = .ok (other, entry)) : disk.entry? other = some entry := by
  obtain ⟨rfl, hfinds⟩ := find_eq_ok_iff.mp h
  exact hfinds.stands

theorem Finds.find {entry : Entry} (h : disk.Finds folder p entry) :
    disk.find folder p = .ok (p.location folder, entry) :=
  find_eq_ok_iff.mpr ⟨rfl, h⟩

theorem Finds.unique {entry other : Entry} (h : disk.Finds folder p entry)
    (h' : disk.Finds folder p other) : entry = other := by
  have hsame := h.stands.symm.trans h'.stands
  exact Option.some.inj hsame

theorem exists?_eq_true_iff :
    disk.exists? folder p = true ↔ ∃ entry, disk.Finds folder p entry := by
  unfold exists?
  cases hf : disk.find folder p with
  | error e =>
    refine ⟨fun h => (nomatch h), fun ⟨entry, h⟩ => ?_⟩
    rw [h.find] at hf
    cases hf
  | ok found => exact ⟨fun _ => ⟨found.2, (find_eq_ok_iff.mp hf).2⟩, fun _ => rfl⟩

theorem isFile_eq_true_iff :
    disk.isFile folder p = true ↔ ∃ content, disk.Finds folder p (.file content) := by
  unfold isFile
  cases hf : disk.find folder p with
  | error e =>
    refine ⟨fun h => (nomatch h), fun ⟨content, h⟩ => ?_⟩
    rw [h.find] at hf
    cases hf
  | ok found =>
    obtain ⟨location, entry⟩ := found
    have hfinds := (find_eq_ok_iff.mp hf).2
    cases entry with
    | file content => exact ⟨fun _ => ⟨content, hfinds⟩, fun _ => rfl⟩
    | folder =>
      refine ⟨fun h => (nomatch h), fun ⟨content, h⟩ => ?_⟩
      cases h.unique hfinds

/-- What the file at a path holds. -/
def content? (disk : Disk) (folder : Location) (p : Path) : Option Content :=
  match disk.find folder p with
  | .ok (_, .file content) => some content
  | _ => none

theorem content?_eq_some_iff {content : Content} :
    disk.content? folder p = some content ↔ disk.Finds folder p (.file content) := by
  unfold content?
  cases hf : disk.find folder p with
  | error e =>
    refine ⟨fun h => (nomatch h), fun h => ?_⟩
    rw [h.find] at hf
    cases hf
  | ok found =>
    obtain ⟨location, entry⟩ := found
    have hfinds := (find_eq_ok_iff.mp hf).2
    cases entry with
    | file other =>
      refine ⟨fun h => ?_, fun h => ?_⟩
      · cases h
        exact hfinds
      · cases h.unique hfinds
        rfl
    | folder =>
      refine ⟨fun h => (nomatch h), fun h => ?_⟩
      cases h.unique hfinds

theorem read_eq_ok_iff :
    disk.read folder p = .ok t ↔ disk.content? folder p = some (.text t) := by
  unfold read content?
  cases disk.find folder p with
  | error e => exact ⟨fun h => (nomatch h), fun h => (nomatch h)⟩
  | ok found =>
    obtain ⟨location, entry⟩ := found
    cases entry with
    | folder => exact ⟨fun h => (nomatch h), fun h => (nomatch h)⟩
    | file content =>
      cases content with
      | bytes bytes => exact ⟨fun h => (nomatch h), fun h => (nomatch h)⟩
      | text s =>
        constructor
        · intro h
          cases h
          rfl
        · intro h
          cases h
          rfl

/-! ### Writing and moving -/

theorem entry?_put {location : Location} {entry : Entry} (h : location ≠ []) (other : Location) :
    Disk.entry? (disk.put location entry) other =
      if other = location then some entry else disk.entry? other := by
  by_cases hn : other = []
  · subst hn
    rw [if_neg (Ne.symm h)]
    rfl
  · have hne : other.isEmpty = false := List.isEmpty_eq_false_iff.mpr hn
    simp only [ Disk.entry?, put, erase, hne, List.find?_append]
    by_cases ho : other = location
    · subst ho
      have hnone : (disk.entries.filter (·.1 != other)).find? (·.1 == other) = none := by
        simp
      rw [hnone, if_pos rfl]
      simp
    · have hsame : (disk.entries.filter (·.1 != location)).find? (·.1 == other) =
          disk.entries.find? (·.1 == other) := by
        rw [List.find?_filter]
        congr 1
        funext a
        by_cases ha : a.1 = other <;> simp [ha, ho]
      have hlast : [(location, entry)].find? (·.1 == other) = none := by
        simp [Ne.symm ho]
      rw [hsame, hlast, if_neg ho, Option.or_none]

/-- A file can be written where the path leads. -/
structure Takes (disk : Disk) (folder : Location) (p : Path) : Prop where
  reaches : disk.Reaches folder p
  vacant : disk.entry? (p.location folder) ≠ some .folder
  slash : endsWithSlash p = false

instance : Decidable (disk.Takes folder p) :=
  decidable_of_iff
    (disk.Reaches folder p ∧ disk.entry? (p.location folder) ≠ some .folder ∧
      endsWithSlash p = false)
    ⟨fun ⟨h, h', h''⟩ => ⟨h, h', h''⟩, fun h => ⟨h.reaches, h.vacant, h.slash⟩⟩

/-- The disk after a file was written to a place. -/
def Place.written (disk : Disk) (p : Path) (t : Text) : Place → Except FileError Disk
  | .found _ .folder => .error .isFolder
  | .found location (.file _) | .free location =>
    if endsWithSlash p then .error .isFolder else .ok (disk.put location (.file (.text t)))

theorem write_eq :
    disk.write folder p t = (disk.locate folder p).bind (Place.written disk p t) := by
  unfold write
  cases disk.locate folder p with
  | error e => rfl
  | ok place =>
    cases place with
    | free other => rfl
    | found other entry => cases entry <;> rfl

theorem Place.written_placeAt {location : Location} {after : Disk} :
    Place.written disk p t (disk.placeAt location) = .ok after ↔
      (disk.entry? location ≠ some .folder ∧ endsWithSlash p = false) ∧
        after = disk.put location (.file (.text t)) := by
  have hput : (if endsWithSlash p then .error .isFolder
        else .ok (disk.put location (.file (.text t))) : Except FileError Disk) = .ok after ↔
      endsWithSlash p = false ∧ after = disk.put location (.file (.text t)) := by
    cases endsWithSlash p <;> simp [eq_comm]
  unfold placeAt
  cases he : disk.entry? location with
  | none => simpa [Place.written] using hput
  | some entry =>
    cases entry with
    | folder => simp [Place.written]
    | file content => simpa [Place.written] using hput

theorem write_eq_ok_iff {after : Disk} :
    disk.write folder p t = .ok after ↔
      disk.Takes folder p ∧ after = disk.put (p.location folder) (.file (.text t)) := by
  rw [write_eq]
  constructor
  · intro h
    cases hl : disk.locate folder p with
    | error e =>
      rw [hl] at h
      cases h
    | ok place =>
      obtain ⟨hr, rfl⟩ := locate_eq_ok_iff.mp hl
      rw [hl] at h
      obtain ⟨⟨hv, hs⟩, ha⟩ := Place.written_placeAt.mp h
      exact ⟨⟨hr, hv, hs⟩, ha⟩
  · rintro ⟨⟨hr, hv, hs⟩, ha⟩
    rw [locate_eq_ok_iff.mpr ⟨hr, rfl⟩]
    exact Place.written_placeAt.mpr ⟨⟨hv, hs⟩, ha⟩

/-- A move between two paths can be made. -/
structure Moves (disk : Disk) (folder : Location) (source target : Path) : Prop where
  finds : ∃ entry, disk.Finds folder source entry
  reaches : disk.Reaches folder target
  vacant : disk.entry? (target.location folder) = none
  named : endsInName source = true ∧ endsInName target = true
  apart : ¬ source.location folder <+: target.location folder

theorem moveEnds_eq_ok_iff {source target : Path} {old new : Location} :
    disk.moveEnds folder source target = .ok (old, new) ↔
      (old = source.location folder ∧ new = target.location folder) ∧
        disk.Moves folder source target := by
  unfold moveEnds
  cases hf : disk.find folder source with
  | error e =>
    refine ⟨fun h => (nomatch h), fun ⟨_, h⟩ => ?_⟩
    obtain ⟨entry, hfinds⟩ := h.finds
    rw [hfinds.find] at hf
    cases hf
  | ok found =>
    obtain ⟨location, entry⟩ := found
    obtain ⟨rfl, hfinds⟩ := find_eq_ok_iff.mp hf
    change (disk.locate folder target).bind _ = _ ↔ _
    cases hl : disk.locate folder target with
    | error e =>
      refine ⟨fun h => (nomatch h), fun ⟨_, h⟩ => ?_⟩
      rw [locate_eq_ok_iff.mpr ⟨h.reaches, rfl⟩] at hl
      cases hl
    | ok place =>
      obtain ⟨hr, rfl⟩ := locate_eq_ok_iff.mp hl
      simp only [Except.bind, placeAt]
      cases he : disk.entry? (target.location folder) with
      | some other =>
        refine ⟨fun h => (nomatch h), fun ⟨_, h⟩ => ?_⟩
        rw [h.vacant] at he
        cases he
      | none =>
        by_cases hn : (endsInName source && endsInName target) = true
        · by_cases hp : source.location folder <+: target.location folder
          · have hprefix := List.isPrefixOf_iff_prefix.mpr hp
            simp only [hn, hprefix]
            exact ⟨fun h => (nomatch h), fun ⟨_, h⟩ => absurd hp h.apart⟩
          · have hprefix : ¬ (source.location folder).isPrefixOf (target.location folder) = true :=
              fun h => hp (List.isPrefixOf_iff_prefix.mp h)
            simp only [hn, hprefix]
            constructor
            · intro h
              cases h
              exact ⟨⟨rfl, rfl⟩, ⟨entry, hfinds⟩, hr, he, (Bool.and_eq_true _ _).mp hn, hp⟩
            · rintro ⟨⟨rfl, rfl⟩, -⟩
              rfl
        · simp only [Bool.eq_false_iff.mpr hn]
          refine ⟨fun h => (nomatch h), fun ⟨_, h⟩ => ?_⟩
          exact absurd ((Bool.and_eq_true _ _).mpr h.named) hn

end Disk

end MarkdownDirectives
