import Mathlib.Data.List.Nodup
import Mathlib.Data.List.Range
import Mathlib.Data.List.Perm.Subperm
import Mathlib.Tactic.ByContra
import MarkdownDirectives.Project.Output
import MarkdownDirectives.Proofs.FileTrees
import MarkdownDirectives.Proofs.Frame

/-!
# Backups

The numbered names of a path all lie beside each other, so finitely many entries cannot take them
all and the search for the lowest free one ends. Moving a file there and writing the path again
leaves everything else as it was; a later backup takes another name, so over any number of writes
each earlier content of the path stays where it was moved.
-/

namespace MarkdownDirectives

/-! ### Numbered names -/

/-- What is added to a text without a separator belongs to its last piece. -/
theorem Text.exists_splitOn_back (separator : Char) (p : Text) :
    ∃ front last, separator ∉ last ∧ splitOn separator p = front ++ [last] ∧
      ∀ t, separator ∉ t → splitOn separator (p ++ t) = front ++ [last ++ t] := by
  induction p with
  | nil => exact ⟨[], [], List.not_mem_nil, rfl, fun t ht => splitOn_of_not_mem ht⟩
  | cons c p ih =>
    obtain ⟨front, last, hl, hp, ht⟩ := ih
    by_cases hc : c = separator
    · refine ⟨[] :: front, last, hl, ?_, fun t hs => ?_⟩
      · rw [splitOn, if_pos hc, hp]
        rfl
      · rw [List.cons_append, splitOn, if_pos hc, ht t hs]
        rfl
    · cases front with
      | nil =>
        refine ⟨[], c :: last, ?_, ?_, fun t hs => ?_⟩
        · simp [hl, Ne.symm hc]
        · rw [splitOn, if_neg hc, hp]
          rfl
        · rw [List.cons_append, splitOn, if_neg hc, ht t hs]
          rfl
      | cons piece front =>
        refine ⟨(c :: piece) :: front, last, hl, ?_, fun t hs => ?_⟩
        · rw [splitOn, if_neg hc, hp]
          rfl
        · rw [List.cons_append, splitOn, if_neg hc, ht t hs]
          rfl

theorem not_mem_number {c : Char} (h : c.isDigit = false) (hp : c ≠ '.') (n : Nat) :
    c ∉ '.' :: Text.ofNat n := by
  intro hc
  rcases List.mem_cons.mp hc with hc | hc
  · exact hp hc
  · have hd := Text.isDigit_of_mem_ofNat hc
    rw [h] at hd
    cases hd

theorem isName_backupName (last : Text) (n : Nat) : Disk.IsName (backupName last n) := by
  have hlast : (backupName last n).getLast? ≠ some '.' := by
    intro hl
    obtain ⟨digits, c, hd⟩ :=
      (List.eq_nil_or_concat (Text.ofNat n)).resolve_left (Text.ofNat_ne_nil n)
    rw [List.concat_eq_append] at hd
    have hc : c.isDigit = true := Text.isDigit_of_mem_ofNat (n := n) (by simp [hd])
    have he : backupName last n = (last ++ '.' :: digits) ++ [c] := by
      simp [backupName, hd]
    rw [he, List.getLast?_concat] at hl
    cases hl
    revert hc
    decide
  constructor
  · intro he
    exact hlast (by rw [he]; rfl)
  · intro he
    exact hlast (by rw [he]; rfl)

theorem backupName_inj {p : Path} {m n : Nat} (h : backupName p m = backupName p n) : m = n := by
  have hd := List.append_cancel_left h
  exact Text.ofNat_inj (List.cons.inj hd).2

theorem backupName_ne (p : Path) (n : Nat) : backupName p n ≠ p := by
  intro h
  have hlength := congrArg List.length h
  simp [backupName] at hlength

theorem filter_concat {last : Text} (h : last ≠ []) (pieces : List Text) :
    (pieces ++ [last]).filter (!·.isEmpty) = pieces.filter (!·.isEmpty) ++ [last] := by
  have hlast : [last].filter (!·.isEmpty) = [last] :=
    List.filter_cons_of_pos (by simpa using h)
  rw [List.filter_append, hlast]

/-- A path ends as its last piece does. -/
theorem endsWithSlash_iff {p : Path} {pieces : List Text} {last : Text} (hl : '/' ∉ last)
    (hp : Text.splitOn '/' p = pieces ++ [last]) (hne : p ≠ []) :
    Disk.endsWithSlash p = true ↔ last = [] := by
  have hj := Text.joinWith_splitOn '/' p
  rw [hp, Text.joinWith_concat] at hj
  rw [Disk.endsWithSlash, beq_iff_eq, ← hj]
  constructor
  · intro hs
    by_contra hlast
    obtain ⟨front, c, rfl⟩ := (List.eq_nil_or_concat last).resolve_left hlast
    rw [List.concat_eq_append, ← List.append_assoc, List.getLast?_concat] at hs
    cases hs
    exact hl (by simp)
  · rintro rfl
    rw [List.append_nil] at hj ⊢
    rcases List.eq_nil_or_concat pieces with rfl | ⟨front, piece, rfl⟩
    · exact absurd hj.symm hne
    · rw [List.concat_eq_append, List.flatMap_append, List.flatMap_singleton, ← List.append_assoc,
        List.getLast?_concat]

theorem exists_backupName_steps (p : Path) :
    ∃ front last, (∀ n, Disk.steps (backupName p n) = front ++ [backupName last n]) ∧
      (p ≠ [] → Disk.steps p =
        if Disk.endsWithSlash p = true then front else front ++ [last]) := by
  obtain ⟨pieces, last, hl, hp, ht⟩ := Text.exists_splitOn_back '/' p
  refine ⟨pieces.filter (!·.isEmpty), last, fun n => ?_, fun hne => ?_⟩
  · have hname : last ++ '.' :: Text.ofNat n ≠ [] := by
      simp
    rw [Disk.steps, backupName, ht _ (not_mem_number (by decide) (by decide) n),
      filter_concat hname]
    rfl
  · have hslash := endsWithSlash_iff hl hp hne
    rw [Disk.steps, hp]
    split
    · next hs =>
      rw [hslash.mp hs]
      simp
    · next hs => exact filter_concat (fun h => hs (hslash.mpr h)) pieces

theorem start_backupName (folder : Location) (p : Path) (n : Nat) :
    (backupName p n).start folder = p.start folder := by
  cases p <;> rfl

theorem location_backupName {folder : Location} {p : Path} {front : List Text} {last : Text}
    {n : Nat} (h : Disk.steps (backupName p n) = front ++ [backupName last n]) :
    (backupName p n).location folder =
      Disk.follow (p.start folder) front ++ [backupName last n] := by
  rw [Path.location, h, start_backupName, Disk.follow_append]
  exact Disk.advance_name (isName_backupName last n) _

theorem endsInName_backupName (p : Path) (n : Nat) : Disk.endsInName (backupName p n) = true := by
  obtain ⟨front, last, hsteps, -⟩ := exists_backupName_steps p
  have hname := isName_backupName last n
  rw [Disk.endsInName, hsteps, List.getLast?_concat]
  simp [hname.1, hname.2]

theorem endsWithSlash_backupName (p : Path) (n : Nat) :
    Disk.endsWithSlash (backupName p n) = false := by
  have hne : (backupName p n).getLast? ≠ some '/' := by
    rw [backupName, List.getLast?_append, List.getLast?_cons]
    intro hl
    have hmem : '/' ∈ '.' :: Text.ofNat n := by
      simp only [Option.some_or, Option.some.injEq] at hl
      rcases List.eq_nil_or_concat (Text.ofNat n) with hd | ⟨digits, c, hd⟩
      · exact absurd hd (Text.ofNat_ne_nil n)
      · simp [hd] at hl
        simp [hd, hl]
    exact not_mem_number (by decide) (by decide) n hmem
  simpa [Disk.endsWithSlash] using hne

/-! ### The lowest free name -/

namespace World

variable {world : World} {p : Path}

/-- The number of the lowest free name. -/
def LeastFree (world : World) (p : Path) (n : Nat) : Prop :=
  world.exists? (backupName p n) = false ∧ ∀ m < n, world.exists? (backupName p m) = true

theorem exists_free (world : World) (p : Path) :
    ∃ n ≤ world.disk.entries.length, world.exists? (backupName p n) = false := by
  by_contra hall
  simp only [not_exists, not_and, Bool.not_eq_false] at hall
  obtain ⟨front, last, hsteps, -⟩ := exists_backupName_steps p
  -- the names would be as many different locations with entries
  let above := Disk.follow (p.start world.folder) front
  have hmem : ∀ n ≤ world.disk.entries.length,
      above ++ [backupName last n] ∈ world.disk.entries.map (·.1) := by
    intro n hn
    obtain ⟨entry, hfinds⟩ := Disk.exists?_eq_true_iff.mp (hall n hn)
    have hstands := hfinds.stands
    rw [location_backupName (hsteps n), Disk.entry?_eq_find? (by simp), Option.map_eq_some_iff]
      at hstands
    obtain ⟨found, hfound, -⟩ := hstands
    have hl : found.1 = above ++ [backupName last n] := by
      simpa using List.find?_some hfound
    exact hl ▸ List.mem_map_of_mem (List.mem_of_find?_eq_some hfound)
  have hnodup : ((List.range (world.disk.entries.length + 1)).map
      fun n => above ++ [backupName last n]).Nodup := by
    refine List.Nodup.map (fun m n h => ?_) List.nodup_range
    have hlast := List.append_cancel_left h
    exact backupName_inj (List.cons.inj hlast).1
  have hsub : (List.range (world.disk.entries.length + 1)).map
      (fun n => above ++ [backupName last n]) ⊆ world.disk.entries.map (·.1) := by
    intro location hl
    obtain ⟨n, hn, rfl⟩ := List.mem_map.mp hl
    exact hmem n (Nat.le_of_lt_succ (List.mem_range.mp hn))
  have hlength := (List.subperm_of_subset hnodup hsub).length_le
  simp only [List.length_map, List.length_range] at hlength
  omega

theorem exists_leastFree (world : World) (p : Path) :
    ∃ n, backupPath world p = backupName p n ∧ world.LeastFree p n := by
  obtain ⟨n, hn, hfree⟩ := world.exists_free p
  have hsome : ((List.range (world.disk.entries.length + 1)).find?
      fun n => !world.exists? (backupName p n)).isSome := by
    rw [List.find?_isSome]
    exact ⟨n, List.mem_range.mpr (Nat.lt_succ_of_le hn), by simp [hfree]⟩
  obtain ⟨least, hleast⟩ := Option.isSome_iff_exists.mp hsome
  refine ⟨least, by simp only [backupPath, hleast, Option.getD_some], ?_⟩
  obtain ⟨hf, -, hbelow⟩ := List.find?_range_eq_some.mp hleast
  exact ⟨by simpa using hf, fun m hm => by simpa using hbelow m hm⟩

/-! ### Moving a file aside -/

theorem Takes.names (ht : world.Takes p) (hs : world.Sound) :
    ∃ above last, Disk.endsInName p = true ∧ world.place p = above ++ [last] ∧
      ∀ n, world.place (backupName p n) = above ++ [backupName last n] ∧
        world.disk.Reaches world.folder (backupName p n) := by
  obtain ⟨front, last, hsteps, hname, hplace, -⟩ :=
    ht.reaches.exists_name hs.tree hs.folder ht.vacant
  obtain ⟨front', last', hnumbered, hown⟩ := exists_backupName_steps p
  have hsame := hsteps.symm.trans (hown ht.reaches.nonempty)
  rw [ht.slash, if_neg (by decide)] at hsame
  obtain ⟨rfl, hlast⟩ := List.append_inj' hsame rfl
  obtain rfl : last = last' := by
    simpa using hlast
  refine ⟨_, last, ?_, hplace, fun n => ⟨location_backupName (hnumbered n), ?_, ?_, ?_⟩⟩
  · rw [Disk.endsInName, hsteps, List.getLast?_concat]
    simp [hname.1, hname.2]
  · simp [backupName]
  · intro hnul
    rcases List.mem_append.mp hnul with hnul | hnul
    · exact ht.reaches.clean hnul
    · exact not_mem_number (by decide) (by decide) n hnul
  · have hroute : (backupName p n).route world.folder = p.route world.folder := by
      rw [Path.route, Path.route, hnumbered n, hsteps, start_backupName, Disk.passed_append,
        Disk.passed_append]
      rfl
    rw [hroute]
    exact ht.reaches.folders

theorem Takes.place_backupName_ne (ht : world.Takes p) (hs : world.Sound) (n : Nat) :
    world.place (backupName p n) ≠ world.place p := by
  obtain ⟨above, last, -, hplace, hnames⟩ := ht.names hs
  rw [(hnames n).1, hplace]
  intro h
  exact backupName_ne last n (List.cons.inj (List.append_cancel_left h)).1

/-- A numbered name that no path leads to is free on the disk, for its folder is there. -/
theorem Takes.entry?_backupName (ht : world.Takes p) (hs : world.Sound) {n : Nat}
    (hn : world.exists? (backupName p n) = false) :
    world.disk.entry? (world.place (backupName p n)) = none := by
  obtain ⟨above, last, -, -, hnames⟩ := ht.names hs
  by_contra hsome
  obtain ⟨entry, he⟩ := Option.ne_none_iff_exists'.mp hsome
  have hfinds : world.disk.Finds world.folder (backupName p n) entry :=
    ⟨(hnames n).2, he, fun h => by rw [endsWithSlash_backupName] at h; cases h⟩
  have hx : world.exists? (backupName p n) = true := Disk.exists?_eq_true_iff.mpr ⟨_, hfinds⟩
  rw [hn] at hx
  cases hx

theorem Takes.entry_or (ht : world.Takes p) :
    (world.exists? p = false ∧ world.content? p = none ∧
        world.disk.entry? (world.place p) = none) ∨
      ∃ content, world.exists? p = true ∧ world.content? p = some content ∧
        world.disk.entry? (world.place p) = some (.file content) := by
  have hslash : ¬ Disk.endsWithSlash p = true := by
    rw [ht.slash]
    decide
  cases he : world.disk.entry? (world.place p) with
  | none =>
    left
    have hmissing : ∀ entry, ¬ world.disk.Finds world.folder p entry := by
      intro entry hf
      have hstands := hf.stands
      rw [← place, he] at hstands
      cases hstands
    refine ⟨Bool.eq_false_iff.mpr fun hx => ?_, Option.eq_none_iff_forall_ne_some.mpr ?_, rfl⟩
    · obtain ⟨entry, hf⟩ := Disk.exists?_eq_true_iff.mp hx
      exact hmissing entry hf
    · intro content hc
      exact hmissing _ (Disk.content?_eq_some_iff.mp hc)
  | some entry =>
    right
    cases entry with
    | folder => exact absurd he ht.vacant
    | file content =>
      have hf : world.disk.Finds world.folder p (.file content) :=
        ⟨ht.reaches, he, fun h => absurd h hslash⟩
      exact ⟨content, Disk.exists?_eq_true_iff.mpr ⟨_, hf⟩, Disk.content?_eq_some_iff.mpr hf, rfl⟩

/-- A file was moved aside: the path is free, and all else but the new name is as before. -/
structure MovedAside (world : World) (p q : Path) (content : Content) (after : World) : Prop where
  folder : after.folder = world.folder
  now : after.now = world.now
  folders : world.disk.SameFolders after.disk
  entry? : ∀ location, after.disk.entry? location =
    if location = world.place q then some (.file content)
    else if location = world.place p then none
    else world.disk.entry? location

theorem Takes.rename (ht : world.Takes p) (hs : world.Sound) {content : Content}
    (hc : world.content? p = some content) {n : Nat}
    (hn : world.exists? (backupName p n) = false) :
    ∃ after, world.rename p (backupName p n) = .ok after ∧ after.Sound ∧
      world.MovedAside p (backupName p n) content after := by
  obtain ⟨above, last, hends, hplace, hnames⟩ := ht.names hs
  obtain ⟨hbackup, hreaches⟩ := hnames n
  have hf := Disk.content?_eq_some_iff.mp hc
  have hvacant := ht.entry?_backupName hs hn
  have hapart : ¬ world.place p <+: world.place (backupName p n) := by
    intro hpre
    have hlength : (world.place p).length = (world.place (backupName p n)).length := by
      rw [hplace, hbackup, List.length_append, List.length_append]
      rfl
    exact ht.place_backupName_ne hs n (hpre.eq_of_length hlength).symm
  have hmoves : world.disk.Moves world.folder p (backupName p n) :=
    ⟨⟨_, hf⟩, hreaches, hvacant, ⟨hends, endsInName_backupName p n⟩, hapart⟩
  refine ⟨_, rename_eq_ok_iff.mpr ⟨hmoves, rfl⟩, hs.moved hmoves, ?_, rfl, ?_, ?_⟩
  · -- the working folder is no file, so it does not move
    apply Disk.moveLocation_of_not_isPrefix
    intro hin
    have hsame := hs.tree.not_below_file hf.stands (by rw [hs.folder]; simp) hin
    have hstands := hf.stands
    rw [← hsame, hs.folder] at hstands
    cases hstands
  · exact Disk.sameFolders_move_file hs.tree hf.stands hvacant hapart
  · exact Disk.entry?_move_file hs.tree hf.stands hvacant hapart

/-! ### Writing a path -/

/-- A file was written to a path, and what the path held before it was moved to `moved`. -/
structure Rewritten (world : World) (p : Path) (t : Text) (moved : Option Path) (after : World) :
    Prop where
  folder : after.folder = world.folder
  now : after.now = world.now
  folders : world.disk.SameFolders after.disk
  written : after.content? p = some (.text t)
  kept : ∀ q ∈ moved, ∃ n content, q = backupName p n ∧ world.LeastFree p n ∧
    world.content? p = some content ∧ after.content? q = some content
  free : ∀ q ∈ moved, world.disk.entry? (world.place q) = none
  others : ∀ location, location ≠ world.place p → (∀ q ∈ moved, location ≠ world.place q) →
    after.disk.entry? location = world.disk.entry? location

theorem Takes.place_ne_nil (ht : world.Takes p) : world.place p ≠ [] := by
  intro hp
  have hv := ht.vacant
  rw [← place, hp] at hv
  exact hv Disk.entry?_nil

theorem writeOutput_of_moveAside {middle : World} {t : Text} {backup : Bool} {moved : Option Path}
    (hm : moveAside world p backup = .ok (moved, middle)) (ht : middle.Takes p) :
    writeOutput p t backup world =
      (.ok moved, { middle with disk := middle.disk.put (middle.place p) (.file (.text t)) }) := by
  have hw := (Disk.write_eq_ok_iff (t := t)).mpr ⟨ht, rfl⟩
  unfold writeOutput
  simp only [hm, hw]
  rfl

theorem writeOutput_of_not_takes {middle : World} {backup : Bool} {moved : Option Path}
    (hm : moveAside world p backup = .ok (moved, middle)) (ht : ¬ middle.Takes p) (t : Text) :
    ∃ e, writeOutput p t backup world = (.error e, middle) := by
  unfold writeOutput
  simp only [hm]
  cases hw : middle.disk.write middle.folder p t with
  | error e => exact ⟨_, rfl⟩
  | ok disk => exact absurd (Disk.write_eq_ok_iff.mp hw).1 ht

theorem moveAside_of_absent {backup : Bool} (hb : (backup && world.exists? p) = false) :
    moveAside world p backup = .ok (none, world) := by
  simp [moveAside, hb]

theorem moveAside_eq_ok {backup : Bool} {moved : Option Path} {middle : World}
    (h : moveAside world p backup = .ok (moved, middle)) :
    (moved = none ∧ middle = world) ∨
      (backup = true ∧ moved = some (backupPath world p) ∧
        world.rename p (backupPath world p) = .ok middle) := by
  by_cases hb : (backup && world.exists? p) = true
  · simp only [moveAside, hb, if_true] at h
    right
    cases hr : world.rename p (backupPath world p) with
    | error e =>
      rw [hr] at h
      cases h
    | ok renamed =>
      rw [hr] at h
      cases h
      rw [Bool.and_eq_true] at hb
      exact ⟨hb.1, rfl, rfl⟩
  · rw [moveAside_of_absent (Bool.eq_false_iff.mpr hb)] at h
    cases h
    exact .inl ⟨rfl, rfl⟩

/-- Nothing happens, or what is there is moved aside and then the path is written if it takes a
file. -/
theorem writeOutput_cases {t : Text} {backup : Bool} {r : Except Error (Option Path)}
    {after : World} (h : writeOutput p t backup world = (r, after)) :
    ((∃ e, r = .error (.file e)) ∧ after = world ∧ ∃ e, moveAside world p backup = .error e) ∨
      ∃ moved middle, moveAside world p backup = .ok (moved, middle) ∧
        ((∃ e, r = .error e) ∧ after = middle ∧ ¬ middle.Takes p ∨
          r = .ok moved ∧ middle.Takes p ∧
            after = { middle with
              disk := middle.disk.put (middle.place p) (.file (.text t)) }) := by
  cases hm : moveAside world p backup with
  | error e =>
    unfold writeOutput at h
    simp only [hm] at h
    cases h
    exact .inl ⟨⟨e, rfl⟩, rfl, ⟨e, rfl⟩⟩
  | ok aside =>
    obtain ⟨moved, middle⟩ := aside
    refine .inr ⟨moved, middle, rfl, ?_⟩
    by_cases ht : middle.Takes p
    · rw [writeOutput_of_moveAside hm ht] at h
      cases h
      exact .inr ⟨rfl, ht, rfl⟩
    · obtain ⟨e, he⟩ := writeOutput_of_not_takes hm ht t
      rw [he] at h
      cases h
      exact .inl ⟨⟨e, rfl⟩, rfl, ht⟩

theorem content?_put (ht : world.Takes p) (t : Text) :
    ({ world with disk := world.disk.put (world.place p) (.file (.text t)) } : World).content? p =
      some (.text t) := by
  apply Disk.content?_eq_some_iff.mpr
  refine ⟨(Disk.sameFolders_put ht.vacant).reaches ht.reaches, ?_, ?_⟩
  · exact (Disk.entry?_put ht.place_ne_nil _).trans (if_pos rfl)
  · intro h
    rw [ht.slash] at h
    cases h

theorem read_of_writeOutput {t : Text} {backup : Bool} {moved : Option Path} {after : World}
    (h : writeOutput p t backup world = (.ok moved, after)) : after.read p = .ok t := by
  rcases writeOutput_cases h with
    ⟨⟨e, he⟩, -, -⟩ | ⟨moved, middle, -, ⟨⟨e, he⟩, -, -⟩ | ⟨-, ht, rfl⟩⟩
  · cases he
  · cases he
  · exact Disk.read_eq_ok_iff.mpr (content?_put ht t)

theorem writeOutput_fresh (ht : world.Takes p) (hs : world.Sound) (t : Text) {backup : Bool}
    (hb : (backup && world.exists? p) = false) :
    ∃ after, writeOutput p t backup world = (.ok none, after) ∧ after.Sound ∧
      world.Rewritten p t none after := by
  have hm := moveAside_of_absent hb
  refine ⟨_, writeOutput_of_moveAside hm ht, hs.put ht t, rfl, rfl, ?_, content?_put ht t, ?_, ?_,
    ?_⟩
  · exact Disk.sameFolders_put ht.vacant
  · exact fun q hq => nomatch hq
  · exact fun q hq => nomatch hq
  · intro location hl _
    exact (Disk.entry?_put ht.place_ne_nil _).trans (if_neg hl)

theorem writeOutput_kept (ht : world.Takes p) (hs : world.Sound) (t : Text) {content : Content}
    (hc : world.content? p = some content) (hx : world.exists? p = true) :
    ∃ n after, writeOutput p t true world = (.ok (some (backupName p n)), after) ∧ after.Sound ∧
      world.Rewritten p t (some (backupName p n)) after := by
  obtain ⟨n, hpath, hfree⟩ := world.exists_leastFree p
  obtain ⟨middle, hrename, hsound, hmoved⟩ := ht.rename hs hc hfree.1
  obtain ⟨above, last, -, -, hnames⟩ := ht.names hs
  have hm : moveAside world p true = .ok (some (backupName p n), middle) := by
    simp [moveAside, hx, hpath, hrename, Except.map]
  have hsame : ∀ q, middle.place q = world.place q := fun q => by
    rw [place, hmoved.folder, place]
  have happ := ht.place_backupName_ne hs n
  have hgone : middle.disk.entry? (middle.place p) = none := by
    rw [hsame, hmoved.entry?, if_neg (Ne.symm happ), if_pos rfl]
  have hreach : ∀ q, world.disk.Reaches world.folder q → middle.disk.Reaches middle.folder q := by
    intro q hq
    rw [hmoved.folder]
    exact hmoved.folders.reaches hq
  have htakes : middle.Takes p := ⟨hreach p ht.reaches, by rw [← place, hgone]; simp, ht.slash⟩
  have hput := Disk.sameFolders_put (t := t) htakes.vacant
  have hentry : ∀ location, location ≠ world.place p →
      Disk.entry? (middle.disk.put (middle.place p) (.file (.text t))) location =
        middle.disk.entry? location := by
    intro location hl
    rw [← hsame] at hl
    exact (Disk.entry?_put htakes.place_ne_nil _).trans (if_neg hl)
  refine ⟨n, _, writeOutput_of_moveAside hm htakes, hsound.put htakes t, hmoved.folder,
    hmoved.now, hmoved.folders.trans hput, content?_put htakes t, ?_, ?_, ?_⟩
  · rintro q ⟨⟩
    refine ⟨n, content, rfl, hfree, hc, Disk.content?_eq_some_iff.mpr ⟨?_, ?_, ?_⟩⟩
    · exact hput.reaches (hreach _ (hnames n).2)
    · have hq := hentry _ happ
      rw [hmoved.entry?, if_pos rfl, ← hsame] at hq
      exact hq
    · intro h
      rw [endsWithSlash_backupName] at h
      cases h
  · rintro q ⟨⟩
    exact ht.entry?_backupName hs hfree.1
  · intro location hl hq
    have hne : location ≠ world.place (backupName p n) := hq _ rfl
    exact (hentry location hl).trans (by rw [hmoved.entry?, if_neg hne, if_neg hl])

/-- A file can be written wherever a path takes one; only an existing one is moved aside. -/
theorem Takes.writeOutput (ht : world.Takes p) (hs : world.Sound) (t : Text) (backup : Bool) :
    ∃ moved after, writeOutput p t backup world = (.ok moved, after) ∧ after.Sound ∧
      world.Rewritten p t moved after ∧
      (moved = none ↔ backup = false ∨ world.exists? p = false) := by
  by_cases hb : (backup && world.exists? p) = true
  · rw [Bool.and_eq_true] at hb
    obtain ⟨rfl, hx⟩ := hb
    rcases ht.entry_or with ⟨hnone, -, -⟩ | ⟨content, -, hc, -⟩
    · rw [hnone] at hx
      cases hx
    · obtain ⟨n, after, hw, hsound, hr⟩ := writeOutput_kept ht hs t hc hx
      exact ⟨_, after, hw, hsound, hr, by simp [hx]⟩
  · have hb' := Bool.eq_false_iff.mpr hb
    obtain ⟨after, hw, hsound, hr⟩ := writeOutput_fresh ht hs t hb'
    refine ⟨none, after, hw, hsound, hr, ?_⟩
    rw [Bool.and_eq_false_iff] at hb'
    simp [hb']

theorem takes_of_isFile (h : world.isFile p = true) : world.Takes p := by
  obtain ⟨content, hf⟩ := Disk.isFile_eq_true_iff.mp h
  refine ⟨hf.reaches, ?_, Bool.eq_false_iff.mpr fun hs => ?_⟩
  · rw [hf.stands]
    simp
  · cases hf.slash hs

theorem rewritten_of_writeOutput (hs : world.Sound) {t : Text} {backup : Bool}
    {moved : Option Path} {after : World} (h : writeOutput p t backup world = (.ok moved, after))
    (hf : backup = false ∨ ¬ world.disk.Finds world.folder p .folder) :
    world.Takes p ∧ world.Rewritten p t moved after := by
  have ht : world.Takes p := by
    rcases writeOutput_cases h with ⟨⟨e, he⟩, -⟩ | ⟨aside, middle, hm, ⟨⟨e, he⟩, -⟩ | ⟨-, ht, -⟩⟩
    · cases he
    · cases he
    · rcases moveAside_eq_ok hm with ⟨-, rfl⟩ | ⟨hb, -, hr⟩
      · exact ht
      · obtain ⟨entry, hfinds⟩ := (rename_eq_ok_iff.mp hr).1.finds
        cases entry with
        | file content => exact takes_of_isFile (Disk.isFile_eq_true_iff.mpr ⟨content, hfinds⟩)
        | folder =>
          rw [hb] at hf
          exact absurd hfinds (hf.resolve_left (by decide))
  obtain ⟨aside, written, hw, -, hr, -⟩ := ht.writeOutput hs t backup
  rw [hw] at h
  cases h
  exact ⟨ht, hr⟩

theorem Rewritten.place_eq {t : Text} {moved : Option Path} {after : World}
    (hr : world.Rewritten p t moved after) (q : Path) : after.place q = world.place q := by
  rw [place, hr.folder, place]

theorem Rewritten.takes {t : Text} {moved : Option Path} {after : World}
    (hr : world.Rewritten p t moved after) (ht : world.Takes p) : after.Takes p := by
  have hf := Disk.content?_eq_some_iff.mp hr.written
  refine ⟨hf.reaches, ?_, ht.slash⟩
  rw [hf.stands]
  simp

theorem place_ne_of_free {q : Path} {content : Content}
    (hq : world.disk.entry? (world.place q) = none) (hp : world.content? p = some content) :
    world.place q ≠ world.place p := by
  intro he
  have hstands := (Disk.content?_eq_some_iff.mp hp).stands
  rw [← place, ← he, hq] at hstands
  cases hstands

/-- A file at a path that is not written stays as it is. -/
theorem Rewritten.content?_of_ne {t : Text} {moved : Option Path} {after : World}
    (hr : world.Rewritten p t moved after) {q : Path} {content : Content}
    (hq : world.content? q = some content) (hp : world.place q ≠ world.place p) :
    after.content? q = some content := by
  have hsame : after.disk.entry? (world.place q) = world.disk.entry? (world.place q) :=
    hr.others _ hp fun q' hmem => (place_ne_of_free (hr.free q' hmem) hq).symm
  rw [← hq, content?, content?, hr.folder]
  exact hr.folders.content? hsame

end World

/-! ### Writing a path again and again -/

/-- The contents are written one after the other; each call says where the content before went. -/
inductive BackupRun (p : Path) : World → List Text → List (Option Path) → World → Prop
  | nil {world} : BackupRun p world [] [] world
  | cons {world middle after t contents moved others} : world.Rewritten p t moved middle →
    (moved = none ↔ world.exists? p = false) → BackupRun p middle contents others after →
    BackupRun p world (t :: contents) (moved :: others) after

section

variable {world after : World} {p : Path} {contents : List Text} {moved : List (Option Path)}

theorem exists_backupRun (ht : world.Takes p) (hs : world.Sound) (contents : List Text) :
    ∃ moved after, (contents.mapM fun t => writeOutput p t true) world = (.ok moved, after) ∧
      BackupRun p world contents moved after := by
  induction contents generalizing world with
  | nil => exact ⟨[], world, rfl, .nil⟩
  | cons t contents ih =>
    obtain ⟨first, middle, hw, hsound, hr, hfirst⟩ := ht.writeOutput hs t true
    obtain ⟨others, after, hrun, hothers⟩ := ih (hr.takes ht) hsound
    refine ⟨first :: others, after, ?_, .cons hr (hfirst.trans (by simp)) hothers⟩
    rw [List.mapM_cons, run_bind_of_ok hw, run_bind_of_ok hrun]
    rfl

namespace BackupRun

/-- Only the path itself and the names that are given out get another entry. -/
theorem others (h : BackupRun p world contents moved after) {location : Location}
    (hl : location ≠ world.place p) (hq : ∀ q ∈ moved.filterMap id, location ≠ world.place q) :
    after.disk.entry? location = world.disk.entry? location := by
  induction h with
  | nil => rfl
  | @cons world middle after t contents first others hr _ _ ih =>
    have hfirst : ∀ q ∈ first, location ≠ world.place q := by
      intro q hmem
      apply hq
      simp [Option.mem_def.mp hmem]
    have hothers : ∀ q ∈ others.filterMap id, location ≠ middle.place q := by
      intro q hmem
      rw [hr.place_eq]
      apply hq
      cases first <;> simp_all
    rw [ih (by rwa [hr.place_eq]) hothers]
    exact hr.others location hl hfirst

/-- All names that are given out are free at first. -/
theorem free (h : BackupRun p world contents moved after) :
    ∀ q ∈ moved.filterMap id, world.disk.entry? (world.place q) = none := by
  induction h with
  | nil => simp
  | @cons world middle after t contents first others hr _ _ ih =>
    intro q hq
    have hcases : q ∈ first ∨ q ∈ others.filterMap id := by
      cases first with
      | none => exact .inr hq
      | some q' => simpa [eq_comm] using hq
    rcases hcases with hq | hq
    · exact hr.free q hq
    · have hnone := ih q hq
      have hp := World.place_ne_of_free hnone hr.written
      have hfirst : ∀ q' ∈ first, middle.place q ≠ middle.place q' := by
        intro q' hq'
        obtain ⟨-, content, -, -, -, hkept⟩ := hr.kept q' hq'
        exact World.place_ne_of_free hnone hkept
      simp only [hr.place_eq] at hnone hp hfirst
      rw [← hr.others _ hp hfirst]
      exact hnone

theorem content? (h : BackupRun p world contents moved after) {q : Path} {content : Content}
    (hq : world.content? q = some content) (hp : world.place q ≠ world.place p) :
    after.content? q = some content := by
  induction h with
  | nil => exact hq
  | cons hr _ _ ih =>
    refine ih (hr.content?_of_ne hq hp) ?_
    rwa [hr.place_eq, hr.place_eq]

/-- What the path held before each write is in the file given out by that write. -/
theorem held (h : BackupRun p world contents moved after) :
    moved.map (·.bind after.content?) ++ [after.content? p] =
      world.content? p :: contents.map fun t => some (.text t) := by
  induction h with
  | nil => rfl
  | @cons world middle after t contents first others hr hfirst hrun ih =>
    have hbefore : first.bind after.content? = world.content? p := by
      cases first with
      | none =>
        have hx := hfirst.mp rfl
        symm
        apply Option.eq_none_iff_forall_ne_some.mpr
        intro content hc
        have hf := Disk.content?_eq_some_iff.mp hc
        rw [World.exists?, Disk.exists?_eq_true_iff.mpr ⟨_, hf⟩] at hx
        cases hx
      | some q =>
        obtain ⟨-, content, -, -, hc, hkept⟩ := hr.kept q rfl
        have hp := World.place_ne_of_free (hr.free q rfl) hc
        rw [hc]
        exact hrun.content? hkept (by rwa [hr.place_eq, hr.place_eq])
    rw [hr.written] at ih
    rw [List.map_cons, List.cons_append, ih, hbefore]
    rfl

/-- No name is given out twice. -/
theorem nodup (h : BackupRun p world contents moved after) :
    ((moved.filterMap id).map world.place).Nodup := by
  induction h with
  | nil => exact List.nodup_nil
  | @cons world middle after t contents first others hr _ hrun ih =>
    have hsame : middle.place = world.place := funext hr.place_eq
    rw [hsame] at ih
    cases first with
    | none => exact ih
    | some q =>
      refine List.nodup_cons.mpr ⟨fun hmem => ?_, ih⟩
      obtain ⟨q', hq', he⟩ := List.mem_map.mp hmem
      -- a later name is free when the earlier one is taken
      obtain ⟨-, content, -, -, -, hkept⟩ := hr.kept q rfl
      apply World.place_ne_of_free (hrun.free q' hq') hkept
      rw [hr.place_eq, hr.place_eq, he]

end BackupRun

/-- Nothing that a path held is lost by writing it any number of times with backups: the file given
out for a write holds it to the end. A path that takes no file is never written. -/
theorem writeOutput_loses_nothing (hs : world.Sound)
    (hp : world.exists? p = true → world.isFile p = true) (contents : List Text) :
    (world.Takes p → ∃ moved after,
      (contents.mapM fun t => writeOutput p t true) world = (.ok moved, after) ∧
        BackupRun p world contents moved after ∧
        moved.map (·.bind after.content?) ++ [after.content? p] =
          world.content? p :: contents.map (fun t => some (.text t)) ∧
        ((moved.filterMap id).map world.place).Nodup ∧
        ∀ location, location ≠ world.place p →
          location ∉ (moved.filterMap id).map world.place →
          after.disk.entry? location = world.disk.entry? location) ∧
      (¬ world.Takes p →
        world.exists? p = false ∧
          ∀ t, ∃ e, writeOutput p t true world = (.error e, world)) := by
  constructor
  · intro ht
    obtain ⟨moved, after, hrun, h⟩ := exists_backupRun ht hs contents
    refine ⟨moved, after, hrun, h, h.held, h.nodup, fun location hl hq => ?_⟩
    exact h.others hl fun q hmem he => hq (he ▸ List.mem_map_of_mem hmem)
  · intro ht
    have hx : world.exists? p = false :=
      Bool.eq_false_iff.mpr fun hx => ht (World.takes_of_isFile (hp hx))
    exact ⟨hx, World.writeOutput_of_not_takes (World.moveAside_of_absent (by rw [hx]; rfl)) ht⟩

/-- A file with a backup that leaves a gap below it. -/
def gappedWorld : World where
  disk := ⟨[([['d']], .file (.text ['a'])), ([['d', '.', '1']], .file (.bytes [255]))]⟩
  folder := []
  now := 0

theorem writeOutput_loses_nothing_gappedWorld :
    gappedWorld.Sound ∧ (gappedWorld.exists? ['d'] = true → gappedWorld.isFile ['d'] = true) ∧
      gappedWorld.Takes ['d'] ∧
      ∃ moved after,
        ([['b'], ['c']].mapM fun t => writeOutput ['d'] t true) gappedWorld = (.ok moved, after) ∧
          moved = [some "d.0".toList, some "d.2".toList] ∧
          after.content? "d.0".toList = some (.text ['a']) ∧
          after.content? "d.2".toList = some (.text ['b']) ∧
          after.content? ['d'] = some (.text ['c']) := by
  have hs : gappedWorld.Sound := by decide
  have hp : gappedWorld.exists? ['d'] = true → gappedWorld.isFile ['d'] = true := by decide
  have ht : gappedWorld.Takes ['d'] := by decide
  obtain ⟨moved, after, hrun, -, hheld, -⟩ :=
    (writeOutput_loses_nothing hs hp [['b'], ['c']]).1 ht
  have hmoved : moved = [some "d.0".toList, some "d.2".toList] := by
    have hfirst := congrArg Prod.fst hrun
    exact (Except.ok.inj hfirst).symm
  have hold : gappedWorld.content? ['d'] = some (.text ['a']) := by decide
  rw [hmoved, hold] at hheld
  obtain ⟨h0, h2, hd⟩ : after.content? "d.0".toList = some (.text ['a']) ∧
      after.content? "d.2".toList = some (.text ['b']) ∧
      after.content? ['d'] = some (.text ['c']) := by
    simpa using hheld
  exact ⟨hs, hp, ht, moved, after, hrun, hmoved, h0, h2, hd⟩

def bareWorld : World where
  disk := ⟨[]⟩
  folder := []
  now := 0

/-- A path can be free and take no file, for the folder above it can be missing. -/
theorem writeOutput_missing_folder :
    bareWorld.Sound ∧ bareWorld.exists? "missing/x".toList = false ∧
      writeOutput "missing/x".toList ['c'] true bareWorld =
        (.error (.file .notFound), bareWorld) := by
  refine ⟨by decide, by decide, rfl⟩

end

end MarkdownDirectives
