import MarkdownDirectives.CommandLine.Run
import MarkdownDirectives.Proofs.Processing

/-!
# Dry runs

A dry run drafts the output of a document as the run that writes it does, for the draft does not
depend on where the output goes. Where the output would go is asked first in both, so they fail
alike until the draft is written.
-/

namespace MarkdownDirectives

/-! ### Drafts without a target -/

theorem draft_withoutOutput {project : Project} {world : World} {metadata : Fields}
    {document : Path} {target : Option Path}
    (h : outputPath (project.documentPath document) project.output = .ok target) :
    (CommandLine.withoutOutput project).draft world metadata document =
      (project.draft world metadata document).map fun draft => { draft with target := none } := by
  simp only [Project.draft, h]
  change ((world.read (project.sourcePath world document)).mapError Error.file).bind _ =
    (((world.read (project.sourcePath world document)).mapError Error.file).bind _).map _
  cases world.read (project.sourcePath world document) with
  | error e => rfl
  | ok t =>
    change (project.parsed world metadata t).bind _ =
      ((project.parsed world metadata t).bind _).map _
    cases project.parsed world metadata t with
    | error e => rfl
    | ok output => rfl

namespace CommandLine

/-! ### One document -/

section

variable {a : Arguments} {project : Project} {metadata : Fields} {document : Path} {world : World}

/-- What a file holds as text, nothing if it cannot be read. -/
def readOrEmpty (world : World) (p : Path) : Text :=
  match world.read p with
  | .ok t => t
  | .error _ => []

theorem processOne_eq (a : Arguments) (project : Project) (metadata : Fields) (document : Path)
    (world : World) :
    processOne a project metadata document world =
      match outputPath (project.documentPath document) project.output with
      | .error e => (.error e, world)
      | .ok target =>
        let destination := target.getD (project.documentPath document)
        let processed :=
          (if a.dryRun then withoutOutput project else project).processDocument metadata document
            world
        (processed.1.map fun report =>
            ⟨report.target.getD destination, readOrEmpty world destination, report⟩,
          processed.2) := by
  have hget : processOne a project metadata document world =
      (liftM (outputPath (project.documentPath document) project.output) >>= fun target => do
        let destination := target.getD (project.documentPath document)
        let report ←
          (if a.dryRun then withoutOutput project else project).processDocument metadata document
        return ⟨report.target.getD destination, readOrEmpty world destination, report⟩ :
          ExceptT Error (StateM World) Processed) world := rfl
  rw [hget]
  cases outputPath (project.documentPath document) project.output with
  | error e => rfl
  | ok target =>
    simp only
    rcases hp : (if a.dryRun then withoutOutput project else project).processDocument metadata
      document world with ⟨e | report, after⟩
    · exact (run_bind_of_ok rfl).trans (run_bind_of_error hp)
    · exact (run_bind_of_ok rfl).trans (run_bind_of_ok hp)

def Arguments.dry (a : Arguments) : Arguments := { a with dryRun := true }

@[simp]
theorem Arguments.dryRun_dry : a.dry.dryRun = true := rfl

/-- A dry run ends at the draft. -/
theorem processOne_dry :
    processOne a.dry project metadata document world =
      (do
        let target ← outputPath (project.documentPath document) project.output
        let draft ← project.draft world metadata document
        let destination := target.getD (project.documentPath document)
        return ⟨destination, readOrEmpty world destination,
          ⟨draft.source, none, none, draft.output⟩⟩,
        world) := by
  rw [processOne_eq]
  cases ht : outputPath (project.documentPath document) project.output with
  | error e => rfl
  | ok target =>
    simp only [Arguments.dryRun_dry, if_true, processDocument_eq, draft_withoutOutput ht]
    cases project.draft world metadata document with
    | error e => rfl
    | ok draft =>
      simp only [Except.map, writeDraft_eq]
      rfl

/-- What a dry run tells of a document that was written. -/
def Processed.unwritten (p : Processed) : Processed :=
  { p with report := { p.report with target := none, backup := none } }

theorem processOne_dry_keeps :
    (processOne a.dry project metadata document world).2 = world := by
  rw [processOne_dry]

theorem processOne_dry_of_ok {p : Processed} {after : World}
    (hd : a.dryRun = false)
    (h : processOne a project metadata document world = (.ok p, after)) :
    processOne a.dry project metadata document world =
        (.ok p.unwritten, world) ∧
      match p.report.target with
      | some target => after.read target = .ok p.report.output
      | none => after = world := by
  rw [processOne_eq] at h
  rw [processOne_dry]
  cases ht : outputPath (project.documentPath document) project.output with
  | error e =>
    rw [ht] at h
    cases h
  | ok target =>
    simp only [ht, hd, if_neg Bool.false_ne_true] at h
    rcases hp : project.processDocument metadata document world with ⟨e | report, written⟩
    · rw [hp] at h
      cases h
    · rw [hp] at h
      cases h
      obtain ⟨draft, hok, hsource, htarget, houtput, hw⟩ := processDocument_eq_ok hp
      have hsame := (draft_target hok).symm.trans ht
      cases hsame
      simp only [hok, htarget, houtput]
      constructor
      · simp only [Processed.unwritten, hsource, houtput]
        cases draft.target <;> rfl
      · cases hdraft : draft.target with
        | none =>
          rw [hdraft] at hw
          exact hw.2
        | some target =>
          rw [hdraft] at hw
          exact World.read_of_writeOutput hw

theorem processOne_of_dry_error {e : Error} {after : World} (hd : a.dryRun = false)
    (h : processOne a.dry project metadata document world = (.error e, after)) :
    processOne a project metadata document world = (.error e, world) := by
  rw [processOne_dry] at h
  rw [processOne_eq]
  cases ht : outputPath (project.documentPath document) project.output with
  | error e =>
    rw [ht] at h
    cases h
    rfl
  | ok target =>
    rw [ht] at h
    simp only [hd, if_neg Bool.false_ne_true, processDocument_eq]
    cases hdraft : project.draft world metadata document with
    | error e =>
      rw [hdraft] at h
      cases h
      rfl
    | ok draft =>
      rw [hdraft] at h
      cases h

/-! ### Runs with one document -/

theorem processEach_of_error {documents : List Path} {e : Error} {after : World}
    (h : processOne a project metadata document world = (.error e, after)) :
    processEach a project metadata (document :: documents) world = (([], some e), after) :=
  bind_of_run h

theorem processEach_of_ok {p : Processed} {after : World}
    (h : processOne a project metadata document world = (.ok p, after)) :
    processEach a project metadata [document] world = (([p], none), after) :=
  bind_of_run h

/-- What a run needs before its first document. -/
def Arguments.start (a : Arguments) (world : World) : Except Error (Project × Fields) := do
  let project ← a.project world
  let metadata ← Metadata.load world project.root project.manifest
  return (project, metadata)

theorem Arguments.run_eq (a : Arguments) (world : World) :
    a.run world =
      match a.start world with
      | .error e => (([], some e), world)
      | .ok (project, metadata) => processEach a project metadata project.documents world := by
  change (match a.start world with
    | .error e => (pure ([], some e) : StateM World (List Processed × Option Error))
    | .ok (project, metadata) => processEach a project metadata project.documents) world = _
  rcases a.start world with e | ⟨project, metadata⟩ <;> rfl

theorem run_dry_predicts (hd : a.dryRun = false)
    (hone : ∀ project, a.project world = .ok project → ∃ document, project.documents = [document]) :
    (a.dry.run world).2 = world ∧
      (∀ processed after, a.run world = ((processed, none), after) →
        (a.dry.run world).1 = (processed.map Processed.unwritten, none) ∧
          ∀ p ∈ processed,
            match p.report.target with
            | some target => after.read target = .ok p.report.output
            | none => after = world) ∧
      ∀ e, (a.dry.run world).1.2 = some e → a.run world = (([], some e), world) := by
  have hstart : a.dry.start world = a.start world := rfl
  rw [Arguments.run_eq a.dry, Arguments.run_eq a, hstart]
  cases hs : a.start world with
  | error e =>
    refine ⟨rfl, fun processed after h => ?_, fun e h => ?_⟩
    · cases h
    · cases h
      rfl
  | ok start =>
    obtain ⟨project, metadata⟩ := start
    obtain ⟨document, hdocument⟩ : ∃ document, project.documents = [document] := by
      apply hone
      obtain ⟨found, hfound, hs⟩ := exists_of_bind_eq_ok hs
      obtain ⟨loaded, -, hs⟩ := exists_of_bind_eq_ok hs
      cases hs
      exact hfound
    simp only [hdocument]
    rcases hdry : processOne a.dry project metadata document world with ⟨r, after⟩
    have hkeeps : after = world := by
      have hsame : (processOne a.dry project metadata document world).2 = world :=
        processOne_dry_keeps
      rwa [hdry] at hsame
    cases r with
    | error e =>
      rw [processEach_of_error hdry, processEach_of_error (processOne_of_dry_error hd hdry)]
      refine ⟨hkeeps, fun processed last h => ?_, fun e' h => ?_⟩
      · cases h
      · cases h
        rfl
    | ok p =>
      rw [processEach_of_ok hdry]
      refine ⟨hkeeps, fun processed last h => ?_, fun e' h => ?_⟩
      · rcases hreal : processOne a project metadata document world with ⟨e | q, written⟩
        · rw [processEach_of_error hreal] at h
          cases h
        · rw [processEach_of_ok hreal] at h
          cases h
          obtain ⟨hsame, htarget⟩ := processOne_dry_of_ok hd hreal
          rw [hdry] at hsame
          cases hsame
          refine ⟨rfl, fun q' hq => ?_⟩
          rw [List.mem_singleton.mp hq]
          exact htarget
      · cases h

end

/-! ### Reading the option -/

/-- A step in the reading of arguments that does not ask for a dry run can be done for one. -/
def Redone (step : Arguments → Option Arguments) : Prop :=
  ∀ a b, step a = some b → b.dryRun = false → a.dryRun = false ∧ step a.dry = some b.dry

theorem raise_redone (f : Flag) : Redone (Arguments.raise · f) := by
  intro a b h hb
  cases f <;> simp only [Arguments.raise, Arguments.dry] at h ⊢
  all_goals
    split at h
    · cases h
    · cases h
      simp_all

theorem assign_redone (value : Text) (s : Setting) : Redone (Arguments.assign · value s) := by
  intro a b h hb
  cases s <;> simp only [Arguments.assign, Arguments.dry] at h ⊢
  · split at h <;> cases h
    simp_all
  · split at h
    · cases h
    · cases hc : count? value <;> rw [hc] at h <;> cases h
      simp_all
  · split at h
    · cases h
    · cases hc : count? value <;> rw [hc] at h <;> cases h
      simp_all

theorem place_redone (path : Path) : Redone (Arguments.place · path) := by
  intro a b h hb
  simp only [Arguments.place, Arguments.dry] at h ⊢
  split at h
  · cases h
  · split at h <;> cases h <;> simp_all

def RunRedone (read : Arguments → Option Request) : Prop :=
  ∀ a b, read a = some (.run b) → b.dryRun = false →
    a.dryRun = false ∧ read a.dry = some (.run b.dry)

theorem Redone.bind {step : Arguments → Option Arguments} {read : Arguments → Option Request}
    (hs : Redone step) (hr : RunRedone read) : RunRedone fun a => (step a).bind read := by
  intro a c h hc
  obtain ⟨b, hstep, hread⟩ := Option.bind_eq_some_iff.mp h
  obtain ⟨hb, hdry⟩ := hr b c hread hc
  obtain ⟨ha, hsdry⟩ := hs a b hstep hb
  exact ⟨ha, Option.bind_eq_some_iff.mpr ⟨_, hsdry, hdry⟩⟩

theorem run_redone : RunRedone fun a => some (.run a) := by
  intro a b h hb
  cases h
  exact ⟨hb, rfl⟩

theorem foldlM_place_redone (paths : List Path) :
    Redone fun a => paths.foldlM Arguments.place a := by
  induction paths with
  | nil =>
    intro a b h hb
    cases h
    exact ⟨hb, rfl⟩
  | cons path paths ih =>
    intro a c h hc
    obtain ⟨b, hplace, hmore⟩ := Option.bind_eq_some_iff.mp h
    obtain ⟨hb, hmoredry⟩ := ih b c hmore hc
    obtain ⟨ha, hplacedry⟩ := place_redone path a b hplace hb
    exact ⟨ha, Option.bind_eq_some_iff.mpr ⟨_, hplacedry, hmoredry⟩⟩

theorem readLetters_redone (letters : Text) : RunRedone (readLetters letters) := by
  induction letters with
  | nil => exact run_redone
  | cons c letters ih =>
    by_cases hv : c = 'v'
    · have hread : readLetters (c :: letters) =
          fun a => (a.raise .verbose).bind (readLetters letters) := by
        funext a
        simp [readLetters, hv]
      rw [hread]
      exact (raise_redone .verbose).bind ih
    · intro a b h hb
      simp only [readLetters, hv, if_false] at h
      split at h
      · cases h
      · split at h <;> cases h

/-- By induction on a bound for the number of arguments, for the value of an option is skipped. -/
theorem readMore_redone (n : Nat) (arguments : List Text) (hn : arguments.length ≤ n) :
    RunRedone (readMore arguments) := by
  induction n generalizing arguments with
  | zero =>
    rw [List.length_eq_zero_iff.mp (Nat.le_zero.mp hn)]
    exact run_redone
  | succ n ih =>
    intro a b h hb
    fun_induction readMore arguments a with
    | case1 a => exact run_redone a b h hb
    | case2 more a =>
      exact (place_redone _).bind (ih more (Nat.le_of_succ_le_succ hn)) a b h hb
    | case3 more a =>
      rw [Option.map_eq_bind] at h
      simp only [readMore, Option.map_eq_bind]
      exact (foldlM_place_redone more).bind run_redone a b h hb
    | case4 more a option _ name f hf hspan =>
      simp only [readMore, hspan, hf]
      exact (raise_redone f).bind (ih more (Nat.le_of_succ_le_succ hn)) a b h hb
    | case5 more a option _ name s c value hs hspan =>
      simp only [readMore, hspan, hs]
      exact (assign_redone value s).bind (ih more (Nat.le_of_succ_le_succ hn)) a b h hb
    | case6 a option _ name s hs value more hv hspan =>
      simp only [readMore, hspan, hs, hv, if_true]
      have hmore : more.length ≤ n := by
        simp only [List.length_cons] at hn
        omega
      exact (assign_redone value s).bind (ih more hmore) a b h hb
    | case12 more a letters _ _ _ middle hm _ =>
      obtain ⟨hmiddle, hmore⟩ := ih more (Nat.le_of_succ_le_succ hn) middle b h hb
      obtain ⟨ha, hletters⟩ := readLetters_redone letters a middle hm hmiddle
      refine ⟨ha, ?_⟩
      simp only [readMore, hletters]
      exact hmore
    | case13 more a letters _ _ _ hm => exact absurd h (hm b)
    | case14 argument more a hdash hdashes hlong hshort =>
      simp only [readMore]
      exact (place_redone argument).bind (ih more (Nat.le_of_succ_le_succ hn)) a b h hb
    | _ => cases h

/-- A run with `--dry-run` predicts the run without it: it changes nothing, reports the output that
is written, and fails only where the run without it fails in the same way before it has changed
anything. -/
theorem dry_run_predicts {arguments : List Text} {a : Arguments}
    (hread : read? arguments = some (.run a)) (hd : a.dryRun = false) (world : World)
    (hone : ∀ project, a.project world = .ok project → ∃ document, project.documents = [document]) :
    read? ("--dry-run".toList :: arguments) = some (.run a.dry) ∧
      (a.dry.run world).2 = world ∧
      (∀ processed after, a.run world = ((processed, none), after) →
        (a.dry.run world).1 = (processed.map Processed.unwritten, none) ∧
          ∀ p ∈ processed,
            match p.report.target with
            | some target => after.read target = .ok p.report.output
            | none => after = world) ∧
      ∀ e, (a.dry.run world).1.2 = some e → a.run world = (([], some e), world) := by
  refine ⟨?_, run_dry_predicts hd hone⟩
  exact (readMore_redone _ arguments le_rfl {} a hread hd).2

/-- One document, and nothing that is configured. -/
def noteWorld : World where
  disk := ⟨[(["README.md".toList], .file (.text "note\n".toList))]⟩
  folder := []
  now := 0

def noteArguments : Arguments := { root := some ['/'] }

theorem dry_run_predicts_noteWorld :
    read? [['/']] = some (.run noteArguments) ∧ noteArguments.dryRun = false ∧
      (∀ project, noteArguments.project noteWorld = .ok project →
        ∃ document, project.documents = [document]) ∧
      ∃ p after, noteArguments.run noteWorld = (([p], none), after) ∧
        noteArguments.dry.run noteWorld = (([p.unwritten], none), noteWorld) ∧
        after.read "/README.md".toList = .ok p.report.output := by
  have hread : read? [['/']] = some (.run noteArguments) := by decide
  have hone : ∀ project, noteArguments.project noteWorld = .ok project →
      ∃ document, project.documents = [document] := by
    intro project h
    cases h
    exact ⟨_, rfl⟩
  obtain ⟨-, hkeeps, hok, -⟩ := dry_run_predicts hread rfl noteWorld hone
  have hshown : (noteArguments.run noteWorld).1.1.map (·.report.target) =
      [some "/README.md".toList] := by
    decide +kernel
  have hnone : (noteArguments.run noteWorld).1.2 = none := by
    decide +kernel
  rcases hrun : noteArguments.run noteWorld with ⟨⟨processed, e⟩, after⟩
  rw [hrun] at hshown hnone
  cases hnone
  obtain ⟨hdry, hread'⟩ := hok processed after hrun
  obtain ⟨p, rfl, htarget⟩ := List.map_eq_singleton_iff.mp hshown
  have hwritten := hread' p (List.mem_singleton.mpr rfl)
  rw [htarget] at hwritten
  exact ⟨hread, rfl, hone, p, after, rfl, Prod.ext hdry hkeeps, hwritten⟩

end CommandLine

end MarkdownDirectives
