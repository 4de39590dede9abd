import Mathlib.Data.List.Induction
import Mathlib.Tactic.ByContra
import MarkdownDirectives.Proofs.Places

/-!
# Disks as trees

On a disk that is a tree every entry lies in a folder, so nothing lies below a file or a free
location. Writing a file and moving an entry keep the tree. As long as the folders stay, paths lead
where they led before; a moved folder takes everything below it along.
-/

namespace MarkdownDirectives

namespace Disk

def IsTree (disk : Disk) : Prop :=
  ∀ location name, disk.entry? (location ++ [name]) ≠ none → disk.entry? location = some .folder

variable {disk after : Disk} {location old new folder : Location} {p : Path}

theorem entry?_nil : disk.entry? [] = some .folder := rfl

theorem entry?_eq_find? (h : location ≠ []) :
    disk.entry? location = (disk.entries.find? (·.1 == location)).map (·.2) := by
  rw [Disk.entry?, if_neg (by simpa using h)]

theorem entry?_eq_none_iff (h : location ≠ []) :
    disk.entry? location = none ↔ ∀ entry ∈ disk.entries, entry.1 ≠ location := by
  rw [entry?_eq_find? h, Option.map_eq_none_iff, List.find?_eq_none]
  simp

/-- It suffices to look at the entries of the list. -/
theorem isTree_iff :
    disk.IsTree ↔
      ∀ entry ∈ disk.entries, entry.1 = [] ∨ disk.entry? entry.1.dropLast = some .folder := by
  constructor
  · intro h entry hmem
    rcases List.eq_nil_or_concat entry.1 with hl | ⟨above, name, hl⟩
    · exact .inl hl
    · right
      rw [List.concat_eq_append] at hl
      rw [hl, List.dropLast_concat]
      apply h above name
      rw [Ne, entry?_eq_none_iff (by simp)]
      exact fun hnone => hnone entry hmem hl
  · intro h above name he
    rw [Ne, entry?_eq_none_iff (by simp)] at he
    push Not at he
    obtain ⟨entry, hmem, hl⟩ := he
    rcases h entry hmem with hnil | hup
    · rw [hl] at hnil
      simp at hnil
    · rwa [hl, List.dropLast_concat] at hup

instance : Decidable disk.IsTree := decidable_of_iff _ isTree_iff.symm

theorem IsTree.folder_above (h : disk.IsTree) {above rest : Location} (hr : rest ≠ [])
    (he : disk.entry? (above ++ rest) ≠ none) : disk.entry? above = some .folder := by
  induction rest using List.reverseRecOn with
  | nil => exact absurd rfl hr
  | append_singleton rest name ih =>
    rw [← List.append_assoc] at he
    have hf := h _ _ he
    by_cases hn : rest = []
    · rwa [hn, List.append_nil] at hf
    · apply ih hn
      rw [hf]
      simp

theorem IsTree.free_below (h : disk.IsTree) (he : disk.entry? location = none) {below : Location}
    (hb : location <+: below) : disk.entry? below = none := by
  obtain ⟨rest, rfl⟩ := hb
  by_cases hr : rest = []
  · rwa [hr, List.append_nil]
  · by_contra hne
    have hf := h.folder_above hr hne
    rw [he] at hf
    cases hf

theorem IsTree.not_below_file (h : disk.IsTree) {content : Content}
    (he : disk.entry? location = some (.file content)) {below : Location}
    (hb : disk.entry? below ≠ none) (hl : location <+: below) : below = location := by
  obtain ⟨rest, rfl⟩ := hl
  by_contra hne
  have hr : rest ≠ [] := fun hr => hne (by rw [hr, List.append_nil])
  have hf := h.folder_above hr hb
  rw [he] at hf
  cases hf

theorem IsTree.folder_up (h : disk.IsTree) (he : disk.entry? location = some .folder) :
    disk.entry? location.dropLast = some .folder := by
  rcases List.eq_nil_or_concat location with rfl | ⟨above, name, rfl⟩
  · exact he
  · rw [List.concat_eq_append, List.dropLast_concat]
    apply h above name
    rw [← List.concat_eq_append, he]
    simp

/-- A path that leads to no folder ends in a name, and a folder stands above. -/
theorem Reaches.exists_name (h : disk.Reaches folder p) (ht : disk.IsTree)
    (hf : disk.entry? folder = some .folder) (hn : disk.entry? (p.location folder) ≠ some .folder) :
    ∃ front name, steps p = front ++ [name] ∧ IsName name ∧
      p.location folder = follow (p.start folder) front ++ [name] ∧
      disk.entry? (follow (p.start folder) front) = some .folder := by
  have hstart : disk.entry? (p.start folder) = some .folder := by
    unfold Path.start
    split
    · exact entry?_nil
    · exact hf
  rcases List.eq_nil_or_concat (steps p) with hs | ⟨front, step, hs⟩
  · rw [Path.location, hs] at hn
    exact absurd hstart hn
  · rw [List.concat_eq_append] at hs
    have hlast : p.location folder = advance (follow (p.start folder) front) step := by
      rw [Path.location, hs, follow_append]
      rfl
    have habove : disk.entry? (follow (p.start folder) front) = some .folder := by
      apply h.folders
      rw [Path.route, hs, passed_append]
      exact List.mem_append_right _ (List.mem_singleton.mpr rfl)
    have hname : IsName step := by
      constructor
      · rintro rfl
        exact hn (hlast ▸ habove)
      · rintro rfl
        exact hn (hlast ▸ ht.folder_up habove)
    exact ⟨front, step, hs, hname, hlast.trans (advance_name hname _), habove⟩

/-! ### The same folders -/

def SameFolders (disk after : Disk) : Prop :=
  ∀ location, after.entry? location = some .folder ↔ disk.entry? location = some .folder

theorem SameFolders.refl (disk : Disk) : disk.SameFolders disk := fun _ => Iff.rfl

theorem SameFolders.trans {third : Disk} (h : disk.SameFolders after)
    (h' : after.SameFolders third) : disk.SameFolders third :=
  fun location => (h' location).trans (h location)

theorem SameFolders.reaches (h : disk.SameFolders after) (hr : disk.Reaches folder p) :
    after.Reaches folder p :=
  ⟨hr.nonempty, hr.clean, fun location hl => (h location).mpr (hr.folders location hl)⟩

theorem SameFolders.finds (h : disk.SameFolders after) {entry : Entry}
    (hf : disk.Finds folder p entry)
    (he : after.entry? (p.location folder) = disk.entry? (p.location folder)) :
    after.Finds folder p entry :=
  ⟨h.reaches hf.reaches, he.trans hf.stands, hf.slash⟩

theorem SameFolders.finds_folder (h : disk.SameFolders after) (hf : disk.Finds folder p .folder) :
    after.Finds folder p .folder :=
  ⟨h.reaches hf.reaches, (h _).mpr hf.stands, hf.slash⟩

theorem SameFolders.symm (h : disk.SameFolders after) : after.SameFolders disk :=
  fun location => (h location).symm

/-- What a path leads to changes only if the entry at its location does. -/
theorem SameFolders.content? (h : disk.SameFolders after)
    (he : after.entry? (p.location folder) = disk.entry? (p.location folder)) :
    after.content? folder p = disk.content? folder p := by
  apply Option.ext
  intro content
  simp only [content?_eq_some_iff]
  exact ⟨fun hf => h.symm.finds hf he.symm, fun hf => h.finds hf he⟩

/-! ### Writing -/

section

variable {t : Text}

theorem sameFolders_put (hn : disk.entry? location ≠ some .folder) :
    disk.SameFolders (disk.put location (.file (.text t))) := by
  have hne : location ≠ [] := by
    rintro rfl
    exact hn entry?_nil
  intro other
  rw [entry?_put hne]
  split
  · next ho =>
    rw [ho]
    exact ⟨fun h => (nomatch h), fun h => absurd h hn⟩
  · exact Iff.rfl

theorem IsTree.put (h : disk.IsTree) (hn : disk.entry? location ≠ some .folder)
    (hup : disk.entry? location.dropLast = some .folder) :
    (disk.put location (.file (.text t))).IsTree := by
  have hne : location ≠ [] := by
    rintro rfl
    exact hn entry?_nil
  have hsame := sameFolders_put (t := t) hn
  intro above name he
  rw [entry?_put hne] at he
  rw [hsame]
  split at he
  · next hl =>
    rw [← hl, List.dropLast_concat] at hup
    exact hup
  · exact h above name he

end

/-! ### Moving -/

theorem moveLocation_of_isPrefix (h : old <+: location) :
    moveLocation old new location = new ++ location.drop old.length := by
  rw [moveLocation, if_pos (List.isPrefixOf_iff_prefix.mpr h)]

theorem moveLocation_of_not_isPrefix (h : ¬ old <+: location) :
    moveLocation old new location = location := by
  rw [moveLocation, if_neg (fun hp => h (List.isPrefixOf_iff_prefix.mp hp))]

theorem find?_congr_entries {l : List (Location × Entry)} {f g : Location × Entry → Bool}
    (h : ∀ entry ∈ l, f entry = g entry) : l.find? f = l.find? g := by
  rw [← List.head?_filter, ← List.head?_filter, List.filter_congr h]

/-- No entry comes to lie at the place of another one, so the entries are read off the old disk. -/
theorem entry?_move (hfree : ∀ below, new <+: below → disk.entry? below = none)
    (hapart : ¬ old <+: new) (location : Location) :
    Disk.entry? (disk.move old new) location =
      if new <+: location then disk.entry? (old ++ location.drop new.length)
      else if old <+: location then none
      else disk.entry? location := by
  have hnew : new ≠ [] := by
    rintro rfl
    have hroot := hfree [] List.prefix_rfl
    cases hroot
  have hold : old ≠ [] := by
    rintro rfl
    exact hapart (List.nil_prefix ..)
  by_cases hl : location = []
  · subst hl
    rw [if_neg (fun h => hnew (List.prefix_nil.mp h)),
      if_neg (fun h => hold (List.prefix_nil.mp h))]
    rfl
  · have hmove : Disk.entry? (disk.move old new) location =
        (disk.entries.find? fun entry => moveLocation old new entry.1 == location).map (·.2) := by
      rw [entry?_eq_find? hl, move, List.find?_map, Option.map_map]
      rfl
    rw [hmove]
    split
    · next hn =>
      obtain ⟨rest, rfl⟩ := hn
      have hne : old ++ rest ≠ [] := fun h => hold (List.append_eq_nil_iff.mp h).1
      rw [List.drop_left, entry?_eq_find? hne]
      congr 1
      apply find?_congr_entries
      intro entry hmem
      by_cases hp : old <+: entry.1
      · rw [moveLocation_of_isPrefix hp]
        obtain ⟨below, hb⟩ := hp
        rw [← hb, List.drop_left]
        simp
      · rw [moveLocation_of_not_isPrefix hp]
        have hne' : entry.1 ≠ new ++ rest := by
          intro he
          have hnone := hfree (new ++ rest) (List.prefix_append ..)
          exact (entry?_eq_none_iff hl).mp hnone entry hmem he
        have hne'' : entry.1 ≠ old ++ rest := fun he => hp (he ▸ List.prefix_append ..)
        simp [hne', hne'']
    · next hn =>
      have hstay : ∀ entry : Location × Entry, moveLocation old new entry.1 = location →
          ¬ old <+: entry.1 ∧ entry.1 = location := by
        intro entry he
        by_cases hp : old <+: entry.1
        · rw [moveLocation_of_isPrefix hp] at he
          exact absurd (he ▸ List.prefix_append ..) hn
        · rw [moveLocation_of_not_isPrefix hp] at he
          exact ⟨hp, he⟩
      split
      · next ho =>
        rw [Option.map_eq_none_iff, List.find?_eq_none]
        intro entry _ he
        obtain ⟨hp, rfl⟩ := hstay entry (by simpa using he)
        exact hp ho
      · next ho =>
        rw [entry?_eq_find? hl]
        congr 1
        apply find?_congr_entries
        intro entry _
        by_cases he : entry.1 = location
        · rw [moveLocation_of_not_isPrefix (he ▸ ho)]
        · have hne : moveLocation old new entry.1 ≠ location := fun h => he (hstay entry h).2
          simp [he, hne]

theorem IsTree.move (h : disk.IsTree) (hn : disk.entry? new = none)
    (hup : disk.entry? new.dropLast = some .folder) (hapart : ¬ old <+: new) :
    (disk.move old new).IsTree := by
  have hmove := entry?_move (fun below hb => h.free_below hn hb) hapart
  intro above name he
  rw [hmove] at he ⊢
  by_cases hin : new <+: above
  · obtain ⟨rest, rfl⟩ := hin
    have hin' : new <+: new ++ rest ++ [name] := ⟨rest ++ [name], by simp⟩
    rw [if_pos hin', List.append_assoc, List.drop_left, ← List.append_assoc] at he
    rw [if_pos (List.prefix_append ..), List.drop_left]
    exact h _ _ he
  · rw [if_neg hin]
    by_cases hat : new <+: above ++ [name]
    · -- only the new location itself can be reached from above
      have hnew : new = above ++ [name] := by
        rcases List.prefix_concat_iff.mp hat with hnew | hnew
        · exact hnew
        · exact absurd hnew hin
      have habove : ¬ old <+: above := fun ho => hapart (hnew ▸ ho.trans (List.prefix_append ..))
      rw [if_neg habove]
      rw [hnew, List.dropLast_concat] at hup
      exact hup
    · rw [if_neg hat] at he
      split at he
      · exact absurd rfl he
      · next hout =>
        have habove : ¬ old <+: above := fun ho => hout (ho.trans (List.prefix_append ..))
        rw [if_neg habove]
        exact h _ _ he

/-- A file that is moved leaves all other entries as they are. -/
theorem entry?_move_file (h : disk.IsTree) {content : Content}
    (ho : disk.entry? old = some (.file content)) (hn : disk.entry? new = none)
    (hapart : ¬ old <+: new) (location : Location) :
    Disk.entry? (disk.move old new) location =
      if location = new then some (.file content)
      else if location = old then none
      else disk.entry? location := by
  rw [entry?_move (fun below hb => h.free_below hn hb) hapart]
  by_cases hin : new <+: location
  · rw [if_pos hin]
    by_cases hl : location = new
    · rw [if_pos hl, hl, List.drop_length, List.append_nil]
      exact ho
    · obtain ⟨rest, rfl⟩ := hin
      have hr : rest ≠ [] := fun hr => hl (by rw [hr, List.append_nil])
      have hnew : disk.entry? (new ++ rest) = none := h.free_below hn (List.prefix_append ..)
      have hne : new ++ rest ≠ old := by
        intro he
        rw [he, ho] at hnew
        cases hnew
      have hold : disk.entry? (old ++ rest) = none := by
        by_contra hb
        have hsame := h.not_below_file ho hb (List.prefix_append ..)
        exact hr (by simpa using hsame)
      rw [if_neg hl, if_neg hne, List.drop_left, hold, hnew]
  · have hl : location ≠ new := fun he => hin (he ▸ List.prefix_rfl)
    rw [if_neg hin, if_neg hl]
    by_cases hout : old <+: location
    · rw [if_pos hout]
      split
      · rfl
      · next hne =>
        by_contra hb
        exact hne (h.not_below_file ho (Ne.symm hb) hout)
    · have hne : location ≠ old := fun he => hout (he ▸ List.prefix_rfl)
      rw [if_neg hout, if_neg hne]

theorem sameFolders_move_file (h : disk.IsTree) {content : Content}
    (ho : disk.entry? old = some (.file content)) (hn : disk.entry? new = none)
    (hapart : ¬ old <+: new) : disk.SameFolders (disk.move old new) := by
  intro location
  rw [entry?_move_file h ho hn hapart]
  split
  · next hl => simp [hl, hn]
  · split
    · next hl => simp [hl, ho]
    · exact Iff.rfl

end Disk

/-! ### Worlds -/

namespace World

/-- The disk is a tree, and the working folder is in it. -/
structure Sound (world : World) : Prop where
  tree : world.disk.IsTree
  folder : world.disk.entry? world.folder = some .folder

instance (world : World) : Decidable world.Sound :=
  decidable_of_iff (world.disk.IsTree ∧ world.disk.entry? world.folder = some .folder)
    ⟨fun ⟨h, h'⟩ => ⟨h, h'⟩, fun h => ⟨h.tree, h.folder⟩⟩

def place (world : World) (p : Path) : Location := p.location world.folder

def content? (world : World) (p : Path) : Option Content := world.disk.content? world.folder p

def Takes (world : World) (p : Path) : Prop := world.disk.Takes world.folder p

instance (world : World) (p : Path) : Decidable (world.Takes p) :=
  inferInstanceAs (Decidable (world.disk.Takes world.folder p))

/-- What stands at one location was moved to another one. -/
def moved (world : World) (old new : Location) : World :=
  { world with
    disk := world.disk.move old new
    folder := Disk.moveLocation old new world.folder }

variable {world after : World} {p source target : Path}

theorem rename_eq_ok_iff :
    world.rename source target = .ok after ↔
      world.disk.Moves world.folder source target ∧
        after = world.moved (world.place source) (world.place target) := by
  unfold rename
  cases hm : world.disk.moveEnds world.folder source target with
  | error e =>
    refine ⟨fun h => (nomatch h), fun ⟨h, _⟩ => ?_⟩
    rw [Disk.moveEnds_eq_ok_iff.mpr ⟨⟨rfl, rfl⟩, h⟩] at hm
    cases hm
  | ok ends =>
    obtain ⟨old, new⟩ := ends
    obtain ⟨⟨rfl, rfl⟩, h⟩ := Disk.moveEnds_eq_ok_iff.mp hm
    constructor
    · intro ha
      cases ha
      exact ⟨h, rfl⟩
    · rintro ⟨-, rfl⟩
      rfl

theorem Sound.moved (h : world.Sound) (hm : world.disk.Moves world.folder source target) :
    (world.moved (world.place source) (world.place target)).Sound := by
  have hn : world.disk.entry? (world.place target) ≠ some .folder := by
    rw [place, hm.vacant]
    simp
  obtain ⟨front, name, -, -, hlast, habove⟩ := hm.reaches.exists_name h.tree h.folder hn
  have hup : world.disk.entry? (world.place target).dropLast = some .folder := by
    rw [place, hlast, List.dropLast_concat]
    exact habove
  have hfree : ∀ below, world.place target <+: below → world.disk.entry? below = none :=
    fun below hb => h.tree.free_below hm.vacant hb
  have hapart : ¬ world.place source <+: world.place target := hm.apart
  refine ⟨h.tree.move hm.vacant hup hapart, ?_⟩
  change Disk.entry? (world.disk.move _ _) (Disk.moveLocation _ _ _) = _
  rw [Disk.entry?_move hfree hapart]
  by_cases hin : world.place source <+: world.folder
  · rw [Disk.moveLocation_of_isPrefix hin, if_pos (List.prefix_append ..), List.drop_left]
    obtain ⟨rest, hr⟩ := hin
    rw [← hr, List.drop_left, hr]
    exact h.folder
  · have hout : ¬ world.place target <+: world.folder := by
      intro hb
      have hnone := hfree _ hb
      rw [h.folder] at hnone
      cases hnone
    rw [Disk.moveLocation_of_not_isPrefix hin, if_neg hout, if_neg hin]
    exact h.folder

theorem Sound.put (h : world.Sound) (ht : world.Takes p) (t : Text) :
    ({ world with disk := world.disk.put (world.place p) (.file (.text t)) } : World).Sound := by
  obtain ⟨front, name, -, -, hlast, habove⟩ := ht.reaches.exists_name h.tree h.folder ht.vacant
  have hup : world.disk.entry? (world.place p).dropLast = some .folder := by
    rw [place, hlast, List.dropLast_concat]
    exact habove
  exact ⟨h.tree.put ht.vacant hup, (Disk.sameFolders_put ht.vacant _).mpr h.folder⟩

end World

end MarkdownDirectives
