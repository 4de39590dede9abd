import MarkdownDirectives.Project.Process
import MarkdownDirectives.Proofs.Frame
import MarkdownDirectives.Proofs.StrandedFolders

/-!
# Processing documents

A document that is processed has a draft, and the draft is written. What can fail for the document
fails before its target is moved aside, but for the writing itself, so it leaves the files as they
were unless a folder is stranded.
-/

namespace MarkdownDirectives

/-! ### Drafts -/

theorem draft_eq_ok_iff {project : Project} {world : World} {metadata : Fields} {document : Path}
    {draft : Draft} :
    project.draft world metadata document = .ok draft ↔
      ∃ target t output,
        outputPath (project.documentPath document) project.output = .ok target ∧
        world.read (project.sourcePath world document) = .ok t ∧
        project.parsed world metadata t = .ok output ∧
        draft = ⟨project.sourcePath world document, target,
          if project.isRaw world document then commentTags output else output⟩ := by
  constructor
  · intro h
    obtain ⟨target, htarget, h⟩ := exists_of_bind_eq_ok h
    obtain ⟨t, hread, h⟩ := exists_of_bind_eq_ok h
    obtain ⟨output, houtput, h⟩ := exists_of_bind_eq_ok h
    cases h
    exact ⟨target, t, output, htarget, eq_ok_of_mapError_eq_ok hread, houtput, rfl⟩
  · rintro ⟨target, t, output, htarget, hread, houtput, rfl⟩
    simp only [Project.draft, htarget, hread]
    change (project.parsed world metadata t).bind _ = _
    rw [houtput]
    rfl

theorem draft_target {project : Project} {world : World} {metadata : Fields} {document : Path}
    {draft : Draft} (h : project.draft world metadata document = .ok draft) :
    outputPath (project.documentPath document) project.output = .ok draft.target := by
  obtain ⟨target, t, output, htarget, -, -, rfl⟩ := draft_eq_ok_iff.mp h
  exact htarget

theorem writeDraft_eq (project : Project) (draft : Draft) (world : World) :
    project.writeDraft draft world =
      match draft.target with
      | some target =>
        let written := writeOutput target draft.output project.backup world
        (written.1.map fun backup => ⟨draft.source, target, backup, draft.output⟩, written.2)
      | none => (.ok ⟨draft.source, none, none, draft.output⟩, world) := by
  obtain ⟨source, target, output⟩ := draft
  cases target with
  | none => rfl
  | some target =>
    simp only
    rcases hw : writeOutput target output project.backup world with ⟨e | backup, after⟩
    · exact run_bind_of_error hw
    · exact run_bind_of_ok hw

/-- A document that is processed has a draft, which is written to its target if it has one. -/
theorem processDocument_eq_ok {project : Project} {metadata : Fields} {document : Path}
    {world after : World} {report : Report}
    (h : project.processDocument metadata document world = (.ok report, after)) :
    ∃ draft, project.draft world metadata document = .ok draft ∧
      report.source = draft.source ∧ report.target = draft.target ∧
      report.output = draft.output ∧
      match draft.target with
      | some target =>
        writeOutput target draft.output project.backup world = (.ok report.backup, after)
      | none => report.backup = none ∧ after = world := by
  rw [processDocument_eq] at h
  cases hd : project.draft world metadata document with
  | error e =>
    rw [hd] at h
    cases h
  | ok draft =>
    simp only [hd, writeDraft_eq] at h
    refine ⟨draft, rfl, ?_⟩
    cases ht : draft.target with
    | none =>
      simp only [ht] at h
      cases h
      exact ⟨rfl, rfl, rfl, rfl, rfl⟩
    | some target =>
      simp only [ht] at h
      rcases hw : writeOutput target draft.output project.backup world with ⟨e | moved, written⟩
      · rw [hw] at h
        cases h
      · rw [hw] at h
        cases h
        exact ⟨rfl, rfl, rfl, hw⟩

/-- A document that fails has no draft, or its draft cannot be written. -/
theorem processDocument_eq_error {project : Project} {metadata : Fields} {document : Path}
    {world after : World} {e : Error}
    (h : project.processDocument metadata document world = (.error e, after)) :
    (project.draft world metadata document = .error e ∧ after = world) ∨
      ∃ draft target, project.draft world metadata document = .ok draft ∧
        draft.target = some target ∧
        writeOutput target draft.output project.backup world = (.error e, after) := by
  rw [processDocument_eq] at h
  cases hd : project.draft world metadata document with
  | error e =>
    rw [hd] at h
    cases h
    exact .inl ⟨rfl, rfl⟩
  | ok draft =>
    simp only [hd, writeDraft_eq] at h
    right
    cases ht : draft.target with
    | none =>
      simp only [ht] at h
      cases h
    | some target =>
      simp only [ht] at h
      rcases hw : writeOutput target draft.output project.backup world with ⟨e | moved, written⟩
      · rw [hw] at h
        cases h
        exact ⟨draft, target, rfl, ht, hw⟩
      · rw [hw] at h
        cases h

/-! ### Runs -/

namespace Project

variable {project : Project} {world after : World} {metadata : Fields} {document : Path}
  {documents : List Path} {e : Error}

theorem processDocument_sound (hs : world.Sound) {r : Except Error Report}
    (h : project.processDocument metadata document world = (r, after)) : after.Sound := by
  cases r with
  | error e =>
    rcases processDocument_eq_error h with ⟨-, rfl⟩ | ⟨draft, target, -, -, hw⟩
    · exact hs
    · exact hs.writeOutput hw
  | ok report =>
    obtain ⟨draft, -, -, -, -, hw⟩ := processDocument_eq_ok h
    cases ht : draft.target with
    | none =>
      rw [ht] at hw
      exact hw.2 ▸ hs
    | some target =>
      rw [ht] at hw
      exact hs.writeOutput hw

theorem processDocuments_cons_of_ok {middle : World} {report : Report}
    (h : project.processDocument metadata document world = (.ok report, middle)) :
    project.processDocuments metadata (document :: documents) world =
      ((project.processDocuments metadata documents middle).1.map (report :: ·),
        (project.processDocuments metadata documents middle).2) := by
  refine (run_bind_of_ok h).trans ?_
  rcases hmore : project.processDocuments metadata documents middle with ⟨e | reports, after⟩
  · exact run_bind_of_error hmore
  · exact run_bind_of_ok hmore

theorem processDocuments_cons_of_error
    (h : project.processDocument metadata document world = (.error e, after)) :
    project.processDocuments metadata (document :: documents) world = (.error e, after) :=
  run_bind_of_error h

theorem processDocuments_sound (hs : world.Sound) {r : Except Error (List Report)}
    (h : project.processDocuments metadata documents world = (r, after)) : after.Sound := by
  induction documents generalizing world r with
  | nil =>
    cases h
    exact hs
  | cons document documents ih =>
    rcases hd : project.processDocument metadata document world with ⟨e | report, middle⟩
    · rw [processDocuments_cons_of_error hd] at h
      cases h
      exact processDocument_sound hs hd
    · rw [processDocuments_cons_of_ok hd] at h
      cases h
      exact ih (processDocument_sound hs hd) rfl

/-- A run fails at its first document that fails. -/
theorem processDocuments_eq_error
    (h : project.processDocuments metadata documents world = (.error e, after)) :
    ∃ front document rest reports middle, documents = front ++ document :: rest ∧
      project.processDocuments metadata front world = (.ok reports, middle) ∧
      project.processDocument metadata document middle = (.error e, after) := by
  induction documents generalizing world with
  | nil => cases h
  | cons document documents ih =>
    rcases hd : project.processDocument metadata document world with ⟨e' | report, middle⟩
    · rw [processDocuments_cons_of_error hd] at h
      cases h
      exact ⟨[], document, documents, [], world, rfl, rfl, hd⟩
    · rw [processDocuments_cons_of_ok hd] at h
      rcases hmore : project.processDocuments metadata documents middle with ⟨e' | reports, last⟩
      · rw [hmore] at h
        cases h
        obtain ⟨front, failed, rest, reports, before, rfl, hfront, hfailed⟩ := ih hmore
        refine ⟨document :: front, failed, rest, report :: reports, before, rfl, ?_, hfailed⟩
        rw [processDocuments_cons_of_ok hd, hfront]
        rfl
      · rw [hmore] at h
        cases h

theorem process_eq_error (h : project.process world = (.error e, after)) :
    (Metadata.load world project.root project.manifest = .error e ∧ after = world) ∨
      ∃ metadata, Metadata.load world project.root project.manifest = .ok metadata ∧
        project.processDocuments metadata project.documents world = (.error e, after) := by
  have hprocess : project.process world =
      ((liftM (Metadata.load world project.root project.manifest) >>= fun metadata =>
        project.processDocuments metadata project.documents :
          ExceptT Error (StateM World) (List Report)) world) := rfl
  rw [hprocess] at h
  cases hm : Metadata.load world project.root project.manifest with
  | error e' =>
    rw [hm] at h
    cases h
    exact .inl ⟨rfl, rfl⟩
  | ok metadata =>
    rw [hm] at h
    exact .inr ⟨metadata, rfl, h⟩

/-! ### Failures -/

/-- What a failed document leaves: the world as it was, or the folder stranded that its target leads
to. -/
def Leaves (project : Project) (document : Path) (world after : World) : Prop :=
  after = world ∨ project.backup = true ∧ ∃ target,
    outputPath (project.documentPath document) project.output = .ok (some target) ∧
      world.Strands target after

theorem leaves_of_error (hs : world.Sound)
    (h : project.processDocument metadata document world = (.error e, after)) :
    project.Leaves document world after := by
  rcases processDocument_eq_error h with ⟨-, ha⟩ | ⟨draft, target, hd, ht, hw⟩
  · exact .inl ha
  · rcases World.writeOutput_error hs hw with ha | ⟨hb, hstrands⟩
    · exact .inl ha
    · have htarget := draft_target hd
      rw [ht] at htarget
      exact .inr ⟨hb, target, htarget, hstrands⟩

/-- A stranded folder is never part of a success. -/
theorem error_of_strands (hs : world.Sound) {draft : Draft} {target : Path}
    (hd : project.draft world metadata document = .ok draft) (ht : draft.target = some target)
    (hb : project.backup = true) (h : world.Strands target after) :
    ∃ e, project.processDocument metadata document world = (.error e, after) := by
  obtain ⟨e, he⟩ := h.writeOutput_error hs draft.output
  refine ⟨e, ?_⟩
  rw [processDocument_eq, hd]
  simp only [writeDraft_eq, ht, hb, he]
  rfl

/-- A document that fails changes nothing, whatever it fails for, unless it strands a folder; a run
that fails leaves what the documents before the failing one have left. -/
theorem failed_leaves (project : Project) (hs : world.Sound) :
    (∀ metadata document e after,
      project.processDocument metadata document world = (.error e, after) →
        project.Leaves document world after) ∧
      (∀ metadata document draft target after,
        project.draft world metadata document = .ok draft → draft.target = some target →
          project.backup = true → world.Strands target after →
            ∃ e, project.processDocument metadata document world = (.error e, after)) ∧
      (∀ metadata documents e after,
        project.processDocuments metadata documents world = (.error e, after) →
          ∃ front document rest reports middle, documents = front ++ document :: rest ∧
            project.processDocuments metadata front world = (.ok reports, middle) ∧
            project.processDocument metadata document middle = (.error e, after) ∧
            project.Leaves document middle after) ∧
      ∀ e after, project.process world = (.error e, after) →
        (Metadata.load world project.root project.manifest = .error e ∧ after = world) ∨
          ∃ metadata, Metadata.load world project.root project.manifest = .ok metadata ∧
            project.processDocuments metadata project.documents world = (.error e, after) := by
  refine ⟨fun metadata document e after h => leaves_of_error hs h,
    fun metadata document draft target after hd ht hb h => error_of_strands hs hd ht hb h,
    fun metadata documents e after h => ?_, fun e after h => process_eq_error h⟩
  obtain ⟨front, document, rest, reports, middle, hsplit, hfront, hdocument⟩ :=
    processDocuments_eq_error h
  have hmiddle := processDocuments_sound hs hfront
  exact ⟨front, document, rest, reports, middle, hsplit, hfront, hdocument,
    leaves_of_error hmiddle hdocument⟩

/-- A folder of the name that the output gets, through which the path of the document leads. -/
def crossedWorld : World where
  disk := ⟨[([['a']], .file (.text "text\n".toList)), ([['a', '.', 'o']], .folder),
    ([['a', '.', 'o'], ['x']], .file (.text "kept\n".toList))]⟩
  folder := []
  now := 0

def crossingProject : Project where
  root := ['/']
  manifest := none
  documents := ["a.o/../a".toList]
  output := .suffix ".o".toList
  backup := true
  roundtrips := 0
  docsFolder := "docs".toList
  parse := {}

theorem failed_leaves_crossedWorld :
    crossedWorld.Sound ∧
      crossingProject.Leaves "a.o/../a".toList crossedWorld
        (crossingProject.processDocument [] "a.o/../a".toList crossedWorld).2 := by
  have hs : crossedWorld.Sound := by decide
  have he : (crossingProject.processDocument [] "a.o/../a".toList crossedWorld).1 =
      .error (.file .notFound) := by
    decide +kernel
  exact ⟨hs, (failed_leaves crossingProject hs).1 [] "a.o/../a".toList _ _ (Prod.ext he rfl)⟩

/-- The failed document has moved a file away. -/
theorem processDocument_crossedWorld :
    (crossingProject.processDocument [] "a.o/../a".toList crossedWorld).1 =
        .error (.file .notFound) ∧
      crossedWorld.content? "/a.o/x".toList = some (.text "kept\n".toList) ∧
      (crossingProject.processDocument [] "a.o/../a".toList crossedWorld).2.content?
        "/a.o/x".toList = none := by
  refine ⟨?_, ?_, ?_⟩ <;> decide +kernel

end Project

end MarkdownDirectives
