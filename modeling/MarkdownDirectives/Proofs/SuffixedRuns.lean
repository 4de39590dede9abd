import MarkdownDirectives.Proofs.Processing
import MarkdownDirectives.Proofs.SuffixedNames

/-!
# Runs with a suffix

Every document that a run accepts has a file name that does not show the suffix, and every file that
the run writes or moves a backup to has one that does. So a run with a suffix leaves the documents
as they are, and two outputs only meet where their documents meet.
-/

namespace MarkdownDirectives

/-! ### Names of accepted documents -/

theorem Path.eq_nil_of_steps {p : Path} (ha : Path.isAbsolute p = false)
    (h : Disk.steps p = []) : p = [] := by
  obtain ⟨piece, more, hs⟩ := List.exists_cons_of_ne_nil (Text.splitOn_ne_nil '/' p)
  have hj := Text.joinWith_splitOn '/' p
  rw [Disk.steps, hs, List.filter_eq_nil_iff] at h
  have hpiece : piece = [] := by
    simpa using h piece (List.mem_cons_self ..)
  rw [hs, hpiece] at hj
  cases more with
  | nil => exact hj.symm
  | cons next more =>
    rw [← hj] at ha
    cases ha

/-- Behind a folder an empty path asks for the folder. -/
theorem Path.endsWithSlash_join_nil {p : Path} (h : p ≠ []) :
    Disk.endsWithSlash (Path.join p []) = true := by
  by_cases hl : p.getLast? = some '/'
  · simp [Path.join, Path.isAbsolute, Disk.endsWithSlash, hl]
  · simp [Path.join, Path.isAbsolute, Disk.endsWithSlash, hl, h]

theorem Path.fileName?_of_steps {p : Path} {front : List Text} {n : Text}
    (h : Disk.steps p = front ++ [n]) (hn : Disk.IsName n) : Path.fileName? p = some n := by
  rw [Path.fileName?_eq_some_iff, Path.names_eq_filter_steps, h, List.filter_append,
    List.filter_cons_of_pos (by simpa using hn.1), List.filter_nil, List.getLast?_concat]
  exact ⟨rfl, hn.2⟩

section

variable {project : Project} {metadata : Fields} {world after : World} {document p : Path}

theorem World.Sound.exists_name (hs : world.Sound) {t : Text} (h : world.read p = .ok t) :
    ∃ front n, Disk.steps p = front ++ [n] ∧ Disk.IsName n ∧ Disk.endsWithSlash p = false := by
  have hf := Disk.content?_eq_some_iff.mp (Disk.read_eq_ok_iff.mp h)
  have hvacant : world.disk.entry? (p.location world.folder) ≠ some .folder := by
    rw [hf.stands]
    simp
  obtain ⟨front, n, hsteps, hn, -⟩ := hf.reaches.exists_name hs.tree hs.folder hvacant
  exact ⟨front, n, hsteps, hn, Bool.eq_false_iff.mpr fun hslash => by cases hf.slash hslash⟩

/-- A raw document has the name of the document that it is for. -/
theorem fileName?_of_read (hs : world.Sound) {t : Text}
    (h : world.read (project.sourcePath world document) = .ok t) :
    ∃ n, Path.fileName? (project.documentPath document) = some n ∧
      Path.fileName? (project.sourcePath world document) = some n := by
  obtain ⟨front, n, hsteps, hn, hslash⟩ := hs.exists_name h
  refine ⟨n, ?_, Path.fileName?_of_steps hsteps hn⟩
  unfold Project.sourcePath at hsteps hslash
  split at hsteps
  · rw [if_pos ‹_›] at hslash
    cases ha : Path.isAbsolute document with
    | true =>
      have hsame : project.documentPath document = project.rawPath document := by
        simp [Project.documentPath, Project.rawPath, Path.join, ha]
      rw [hsame]
      exact Path.fileName?_of_steps hsteps hn
    | false =>
      unfold Project.rawPath at hsteps hslash
      rcases List.eq_nil_or_concat (Disk.steps document) with hnil | ⟨before, last, hlast⟩
      · -- the raw document would be the folder of raw documents
        rw [Path.eq_nil_of_steps ha hnil] at hsteps hslash
        by_cases hfolder : Path.join project.root project.docsFolder = []
        · rw [hfolder] at hsteps
          exact absurd hsteps.symm (by simp [Path.join, Path.isAbsolute, Disk.steps, Text.splitOn])
        · rw [Path.endsWithSlash_join_nil hfolder] at hslash
          cases hslash
      · rw [List.concat_eq_append] at hlast
        rw [Path.steps_join ha, hlast, ← List.append_assoc] at hsteps
        obtain ⟨-, hsame⟩ := List.append_inj' hsteps rfl
        cases hsame
        have hdocument : Disk.steps (project.documentPath document) =
            Disk.steps project.root ++ before ++ [n] := by
          rw [Project.documentPath, Path.steps_join ha, hlast, List.append_assoc]
        exact Path.fileName?_of_steps hdocument hn
  · exact Path.fileName?_of_steps hsteps hn

end

/-! ### Places of outputs -/

section

variable {s : Text} {document other p q : Path} {n m : Text}

/-- Outputs meet only where their documents meet. -/
theorem suffixedPath_location_inj (h : Path.fileName? document = some n)
    (ho : Path.fileName? other = some m) (hp : suffixedPath document s = .ok p)
    (hq : suffixedPath other s = .ok q) (folder : Location)
    (hpq : p.location folder = q.location folder) :
    document.location folder = other.location folder := by
  obtain ⟨hs, hn, -, -, hplace⟩ := suffixedPath_spec h hp
  obtain ⟨-, hm, -, -, hplace'⟩ := suffixedPath_spec ho hq
  rw [hplace, hplace'] at hpq
  obtain ⟨habove, hlast⟩ := List.append_inj' hpq rfl
  have hname := suffixedName_inj hs hn hm (List.cons.inj hlast).1
  rw [Path.location_of_fileName folder h, Path.location_of_fileName folder ho, habove, hname]

/-- An output is at no place of a name that does not show the suffix. -/
theorem suffixedPath_location_ne (h : Path.fileName? document = some n)
    (hp : suffixedPath document s = .ok p) (ho : Path.fileName? other = some m)
    (hm : ¬ Marked s m) (folder : Location) : p.location folder ≠ other.location folder := by
  obtain ⟨-, -, -, -, hplace⟩ := suffixedPath_spec h hp
  rw [hplace, Path.location_of_fileName folder ho]
  intro he
  obtain ⟨-, hlast⟩ := List.append_inj' he rfl
  exact hm ((List.cons.inj hlast).1 ▸ marked_suffixedName n s)

end

/-! ### Runs -/

namespace Project

/-- The documents are processed one after the other, each with a report. -/
inductive Run (project : Project) (metadata : Fields) :
    World → List Path → List Report → World → Prop
  | nil {world} : Run project metadata world [] [] world
  | cons {world middle after document documents report reports} :
    project.processDocument metadata document world = (.ok report, middle) →
    Run project metadata middle documents reports after →
    Run project metadata world (document :: documents) (report :: reports) after

variable {project : Project} {metadata : Fields} {world middle after : World} {document : Path}
  {documents : List Path} {report : Report} {reports : List Report} {s : Text}

theorem run_of_processDocuments
    (h : project.processDocuments metadata documents world = (.ok reports, after)) :
    project.Run metadata world documents reports after := by
  induction documents generalizing world reports with
  | nil =>
    cases h
    exact .nil
  | cons document documents ih =>
    rcases hd : project.processDocument metadata document world with ⟨e | report, middle⟩
    · rw [processDocuments_cons_of_error hd] at h
      cases h
    · rw [processDocuments_cons_of_ok hd] at h
      rcases hmore : project.processDocuments metadata documents middle with ⟨e | others, last⟩
      · rw [hmore] at h
        cases h
      · rw [hmore] at h
        cases h
        exact .cons hd (ih hmore)

/-- A document was read and its output was written beside it. -/
structure Accepts (project : Project) (s : Text) (document : Path) (report : Report) (n : Text)
    (target : Path) : Prop where
  name : Path.fileName? (project.documentPath document) = some n
  source : Path.fileName? report.source = some n
  suffixed : suffixedPath (project.documentPath document) s = .ok target
  target : report.target = some target

theorem accepts_of_ok (hs : world.Sound) (ho : project.output = .suffix s)
    (h : project.processDocument metadata document world = (.ok report, after)) :
    ∃ n target, project.Accepts s document report n target ∧
      writeOutput target report.output project.backup world = (.ok report.backup, after) := by
  obtain ⟨draft, hd, hsource, htarget, houtput, hw⟩ := processDocument_eq_ok h
  obtain ⟨found, t, output, hpath, hread, -, rfl⟩ := draft_eq_ok_iff.mp hd
  obtain ⟨n, hname, hname'⟩ := fileName?_of_read hs hread
  rw [ho] at hpath
  cases hp : suffixedPath (project.documentPath document) s with
  | error e =>
    rw [outputPath, hp] at hpath
    cases hpath
  | ok target =>
    rw [outputPath, hp] at hpath
    cases hpath
    refine ⟨n, target, ⟨hname, ?_, hp, htarget⟩, ?_⟩
    · rw [hsource]
      exact hname'
    · rw [houtput]
      exact hw

theorem Run.accepts (h : project.Run metadata world documents reports after) (hs : world.Sound)
    (ho : project.output = .suffix s) {i : Nat} (hd : documents[i]? = some document)
    (hr : reports[i]? = some report) :
    ∃ n target, project.Accepts s document report n target := by
  induction h generalizing i with
  | nil => simp at hd
  | cons hdocument _ ih =>
    cases i with
    | zero =>
      cases hd
      cases hr
      obtain ⟨n, target, ha, -⟩ := accepts_of_ok hs ho hdocument
      exact ⟨n, target, ha⟩
    | succ i => exact ih (processDocument_sound hs hdocument) hd hr

/-- No folder is moved aside. -/
def MovesFiles (project : Project) (world : World) (reports : List Report) : Prop :=
  project.backup = false ∨
    ∀ report ∈ reports, ∀ target ∈ report.target,
      ¬ world.disk.Finds world.folder target .folder

theorem rewritten_of_ok (hs : world.Sound) (ho : project.output = .suffix s)
    (hf : project.MovesFiles world (report :: reports))
    (h : project.processDocument metadata document world = (.ok report, middle)) :
    project.MovesFiles middle reports ∧ ∃ n target, project.Accepts s document report n target ∧
      world.Takes target ∧ world.Rewritten target report.output report.backup middle := by
  obtain ⟨n, target, ha, hw⟩ := accepts_of_ok hs ho h
  have hfolder : project.backup = false ∨ ¬ world.disk.Finds world.folder target .folder :=
    hf.imp id fun hall => hall report (List.mem_cons_self ..) target ha.target
  obtain ⟨ht, hr⟩ := World.rewritten_of_writeOutput hs hw hfolder
  refine ⟨hf.imp id fun hall other hmem q hq hfinds => ?_, n, target, ha, ht, hr⟩
  apply hall other (List.mem_cons_of_mem _ hmem) q hq
  rw [hr.folder] at hfinds
  exact hr.folders.symm.finds_folder hfinds

/-- A step only changes entries whose names show the suffix. -/
theorem Accepts.entry?_eq {n : Text} {target : Path}
    (ha : project.Accepts s document report n target) (hs : world.Sound) (ht : world.Takes target)
    (hr : world.Rewritten target report.output report.backup middle) {location : Location}
    (hl : ∀ m ∈ location.getLast?, ¬ Marked s m) :
    middle.disk.entry? location = world.disk.entry? location := by
  obtain ⟨above, last, -, hplace, hnames⟩ := ht.names hs
  obtain ⟨-, -, -, -, hlocation⟩ := suffixedPath_spec ha.name ha.suffixed
  have hlast : last = suffixedName n s := by
    have hsame := hplace.symm.trans (hlocation world.folder)
    exact (List.cons.inj (List.append_inj' hsame rfl).2).1
  refine hr.others location (fun he => ?_) fun q hq he => ?_
  · rw [he, hplace, hlast] at hl
    exact hl _ (List.getLast?_concat ..) (marked_suffixedName n s)
  · obtain ⟨k, content, rfl, -⟩ := hr.kept q hq
    rw [he, (hnames k).1, hlast] at hl
    exact hl _ (List.getLast?_concat ..) (marked_backupName n s k)

/-- A run only changes entries whose names show the suffix. -/
theorem Run.keeps (h : project.Run metadata world documents reports after) (hs : world.Sound)
    (ho : project.output = .suffix s) (hf : project.MovesFiles world reports) :
    after.folder = world.folder ∧ world.disk.SameFolders after.disk ∧
      ∀ location, (∀ m ∈ location.getLast?, ¬ Marked s m) →
        after.disk.entry? location = world.disk.entry? location := by
  induction h with
  | nil => exact ⟨rfl, .refl _, fun _ _ => rfl⟩
  | cons hdocument _ ih =>
    obtain ⟨hfiles, n, target, ha, ht, hr⟩ := rewritten_of_ok hs ho hf hdocument
    obtain ⟨hfolder, hfolders, hentries⟩ := ih (processDocument_sound hs hdocument) hfiles
    refine ⟨hfolder.trans hr.folder, hr.folders.trans hfolders, fun location hl => ?_⟩
    exact (hentries location hl).trans (ha.entry?_eq hs ht hr hl)

theorem Run.content?_of_name (h : project.Run metadata world documents reports after)
    (hs : world.Sound) (ho : project.output = .suffix s) (hf : project.MovesFiles world reports)
    {q : Path} {n : Text} (hq : Path.fileName? q = some n) (hn : ¬ Marked s n) :
    after.content? q = world.content? q := by
  obtain ⟨hfolder, hfolders, hentries⟩ := h.keeps hs ho hf
  rw [World.content?, World.content?, hfolder]
  apply hfolders.content?
  apply hentries
  rw [Path.location_of_fileName world.folder hq, List.getLast?_concat]
  rintro m ⟨⟩
  exact hn

theorem Run.content?_of_apart (h : project.Run metadata world documents reports after)
    (hs : world.Sound) (ho : project.output = .suffix s) (hf : project.MovesFiles world reports)
    {q : Path} {content : Content} (hq : world.content? q = some content)
    (hne : ∀ report ∈ reports, ∀ target ∈ report.target, world.place target ≠ world.place q) :
    after.content? q = some content := by
  induction h with
  | nil => exact hq
  | cons hdocument _ ih =>
    obtain ⟨hfiles, n, target, ha, ht, hr⟩ := rewritten_of_ok hs ho hf hdocument
    have hplace := hne _ (List.mem_cons_self ..) target ha.target
    refine ih (processDocument_sound hs hdocument) hfiles
      (hr.content?_of_ne hq (Ne.symm hplace)) fun other hmem q' hq' => ?_
    rw [hr.place_eq, hr.place_eq]
    exact hne other (List.mem_cons_of_mem _ hmem) q' hq'

theorem Run.exists_document (h : project.Run metadata world documents reports after) {i : Nat}
    (hr : reports[i]? = some report) : ∃ document, documents[i]? = some document := by
  induction h generalizing i with
  | nil => simp at hr
  | cons _ _ ih =>
    cases i with
    | zero => exact ⟨_, rfl⟩
    | succ i => exact ih hr

/-- An output stays unless the same document is processed again. -/
theorem Run.content?_target (h : project.Run metadata world documents reports after)
    (hs : world.Sound) (ho : project.output = .suffix s) (hf : project.MovesFiles world reports)
    {i : Nat} (hd : documents[i]? = some document) (hr : reports[i]? = some report)
    (hlast : ∀ j other, i < j → documents[j]? = some other →
      world.place (project.documentPath other) ≠ world.place (project.documentPath document)) :
    ∃ target, report.target = some target ∧
      after.content? target = some (.text report.output) := by
  induction h generalizing i with
  | nil => simp at hd
  | @cons world middle after first documents report' reports hdocument hrun ih =>
    obtain ⟨hfiles, n, target, ha, ht, hw⟩ := rewritten_of_ok hs ho hf hdocument
    have hmiddle := processDocument_sound hs hdocument
    cases i with
    | zero =>
      cases hd
      cases hr
      refine ⟨target, ha.target, ?_⟩
      apply hrun.content?_of_apart hmiddle ho hfiles hw.written
      intro other hmem q hq he
      obtain ⟨j, hj⟩ := List.getElem?_of_mem hmem
      obtain ⟨later, hlater⟩ := hrun.exists_document hj
      obtain ⟨m, target', ha'⟩ := hrun.accepts hmiddle ho hlater hj
      cases ha'.target.symm.trans hq
      have hsame := suffixedPath_location_inj ha'.name ha.name ha'.suffixed ha.suffixed
        middle.folder he
      rw [hw.folder] at hsame
      exact hlast (j + 1) later (Nat.succ_pos j) hlater hsame
    | succ i =>
      apply ih hmiddle hfiles hd hr
      intro j other hj hother
      rw [hw.place_eq, hw.place_eq]
      exact hlast (j + 1) other (Nat.succ_lt_succ hj) hother

/-- What a run with a suffix leaves: outputs are at other places than documents and than outputs of
other documents, wherever relative paths begin; and as long as no folder is moved aside, the
documents hold what they held and the outputs what was written last. -/
structure KeepsApart (project : Project) (world : World) (documents : List Path)
    (reports : List Report) (after : World) : Prop where
  places : ∀ (i j : Nat) (document other : Path) (report report' : Report),
    documents[i]? = some document →
    documents[j]? = some other → reports[i]? = some report → reports[j]? = some report' →
    ∀ folder, ∃ target target' : Path,
      report.target = some target ∧ report'.target = some target' ∧
      (target.location folder = target'.location folder →
        (project.documentPath document).location folder =
          (project.documentPath other).location folder) ∧
      target.location folder ≠ (project.documentPath other).location folder ∧
      target.location folder ≠ report'.source.location folder
  inputs : project.MovesFiles world reports → ∀ report ∈ reports,
    after.content? report.source = world.content? report.source
  outputs : project.MovesFiles world reports → ∀ (i : Nat) (document : Path) (report : Report),
    documents[i]? = some document → reports[i]? = some report →
    (∀ j other, i < j → documents[j]? = some other →
      world.place (project.documentPath other) ≠ world.place (project.documentPath document)) →
    ∃ target, report.target = some target ∧ after.content? target = some (.text report.output)

theorem Run.keepsApart (h : project.Run metadata world documents reports after)
    (hs : world.Sound) (ho : project.output = .suffix s) :
    project.KeepsApart world documents reports after where
  places := by
    intro i j document other report report' hd hd' hr hr' folder
    obtain ⟨n, target, ha⟩ := h.accepts hs ho hd hr
    obtain ⟨m, target', ha'⟩ := h.accepts hs ho hd' hr'
    have hm := (suffixedPath_spec ha'.name ha'.suffixed).2.1
    exact ⟨target, target', ha.target, ha'.target,
      suffixedPath_location_inj ha.name ha'.name ha.suffixed ha'.suffixed folder,
      suffixedPath_location_ne ha.name ha.suffixed ha'.name hm folder,
      suffixedPath_location_ne ha.name ha.suffixed ha'.source hm folder⟩
  inputs := by
    intro hf report hmem
    obtain ⟨i, hi⟩ := List.getElem?_of_mem hmem
    obtain ⟨document, hd⟩ := h.exists_document hi
    obtain ⟨n, target, ha⟩ := h.accepts hs ho hd hi
    have hn := (suffixedPath_spec ha.name ha.suffixed).2.1
    exact h.content?_of_name hs ho hf ha.source hn
  outputs := fun hf _ _ _ hd hr hlast => h.content?_target hs ho hf hd hr hlast

end Project

/-- Outputs with a suffix never collide: names are kept apart, a suffixed path is not suffixed
again, with backups nothing is overwritten at all, and in every run outputs and documents are kept
apart. -/
theorem suffixed_outputs_apart (s : Text) :
    (∀ document other n m p q, Path.fileName? document = some n → Path.fileName? other = some m →
      suffixedPath document s = .ok p → suffixedPath other s = .ok q →
        Path.components p = Path.components q → n = m) ∧
      (∀ document n p, Path.fileName? document = some n → suffixedPath document s = .ok p →
        Path.parent p = Path.parent document ∧
          ∃ m, Path.fileName? p = some m ∧ m ≠ n ∧
            suffixedPath p s = .error (.alreadySuffixed m s)) ∧
      ∀ (project : Project) metadata world, project.output = .suffix s → world.Sound →
        (∀ document report after, project.backup = true →
          project.processDocument metadata document world = (.ok report, after) →
            ∃ target middle, report.target = some target ∧
              moveAside world target true = .ok (report.backup, middle) ∧
              middle.disk.entry? (middle.place target) = none ∧
              after = { middle with
                disk := middle.disk.put (middle.place target) (.file (.text report.output)) }) ∧
          ∀ documents reports after,
            project.processDocuments metadata documents world = (.ok reports, after) →
              project.KeepsApart world documents reports after := by
  refine ⟨fun document other n m p q h ho hp hq hpq => suffixedPath_inj h ho hp hq hpq,
    fun document n p h hp => suffixedPath_again h hp,
    fun project metadata world ho hs => ⟨fun document report after hb h => ?_,
      fun documents reports after h => (Project.run_of_processDocuments h).keepsApart hs ho⟩⟩
  obtain ⟨n, target, ha, hw⟩ := Project.accepts_of_ok hs ho h
  rw [hb] at hw
  obtain ⟨middle, hm, hfree, hafter⟩ := World.writeOutput_backup hs hw
  exact ⟨target, middle, ha.target, hm, hfree, hafter⟩

/-- Two documents of one stem, with the outputs of an earlier run beside them. -/
def stemWorld : World where
  disk := ⟨[(["a".toList], .file (.text "one\n".toList)),
    (["a.md".toList], .file (.text "two\n".toList)),
    (["a.o".toList], .file (.text "old\n".toList))]⟩
  folder := []
  now := 0

def stemProject : Project where
  root := ['/']
  manifest := none
  documents := ["a".toList, "a.md".toList]
  output := .suffix ".o".toList
  backup := false
  roundtrips := 0
  docsFolder := "docs".toList
  parse := {}

theorem suffixed_outputs_apart_stemWorld :
    stemWorld.Sound ∧
      ∃ reports after,
        stemProject.processDocuments [] stemProject.documents stemWorld = (.ok reports, after) ∧
          reports.map (·.target) = [some "/a.o".toList, some "/a.o.md".toList] ∧
          stemProject.KeepsApart stemWorld stemProject.documents reports after := by
  have hs : stemWorld.Sound := by decide
  have htargets : (stemProject.processDocuments [] stemProject.documents stemWorld).1.map
      (·.map (·.target)) = .ok [some "/a.o".toList, some "/a.o.md".toList] := by
    decide +kernel
  rcases hrun : stemProject.processDocuments [] stemProject.documents stemWorld with
    ⟨e | reports, after⟩
  · rw [hrun] at htargets
    cases htargets
  · rw [hrun] at htargets
    have hapart := ((suffixed_outputs_apart ".o".toList).2.2 stemProject [] stemWorld rfl hs).2
      stemProject.documents reports after hrun
    exact ⟨hs, reports, after, rfl, Except.ok.inj htargets, hapart⟩

end MarkdownDirectives
