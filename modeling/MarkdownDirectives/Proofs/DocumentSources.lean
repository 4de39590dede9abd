import MarkdownDirectives.Proofs.CleanPaths
import MarkdownDirectives.Proofs.SuffixedRuns

/-!
# Sources of documents

A document that does not climb is read from below the folder of raw documents or is read itself, and
only what comes from that folder has its tags commented. What decides is whether the document is
found when it is seen from that folder; so a document that is the same path seen from there, because
it is absolute or climbs to the root, has its tags commented in place.
-/

namespace MarkdownDirectives

namespace Path

/-- After cleaning the path still has a `..`. -/
def Climbs (p : Path) : Prop := .parent ∈ components (clean p)

/-- A relative path that consists of names. -/
def IsDescent (p : Path) : Prop := components p ≠ [] ∧ ∀ c ∈ components p, ∃ n, c = .name n

variable {p q : Path}

theorem ups_eq_zero (h : ¬ Climbs p) : (trail p).ups = 0 := by
  by_contra hups
  apply h
  have hmem : ['.', '.'] ∈ (trail p).pieces :=
    List.mem_append_left _ (List.mem_replicate.mpr ⟨hups, rfl⟩)
  have hnames : ['.', '.'] ∈ names (clean p) := by rwa [names_clean]
  rw [Climbs, components_eq]
  exact List.mem_append_right _ (List.mem_map.mpr ⟨_, hnames, rfl⟩)

theorem IsDescent.isAbsolute (h : IsDescent p) : isAbsolute p = false := by
  by_contra ha
  have hroot : Component.root ∈ components p := by
    rw [components_eq]
    rcases frontAndPieces_cases p with ⟨-, more, -, hf⟩ | ⟨ha', -⟩
    · simp [hf]
    · exact absurd ha' ha
  obtain ⟨n, hn⟩ := h.2 _ hroot
  cases hn

theorem IsDescent.isEntry (h : IsDescent p) : ∀ n ∈ names p, IsEntry n := by
  intro n hn
  refine ⟨isPiece_of_mem_names hn, fun hup => ?_⟩
  have hmem : componentOf n ∈ components p := by
    rw [components_eq]
    exact List.mem_append_right _ (List.mem_map_of_mem hn)
  obtain ⟨m, hm⟩ := h.2 _ hmem
  rw [hup] at hm
  cases hm

theorem IsDescent.names_ne_nil (h : IsDescent p) : names p ≠ [] := by
  intro hnil
  obtain ⟨hne, hall⟩ := h
  rw [components_eq, hnil, List.map_nil, List.append_nil] at hne hall
  rcases frontAndPieces_cases p with
    ⟨-, more, -, hf⟩ | ⟨-, piece, more, -, ⟨-, hf⟩ | ⟨-, hf⟩⟩
  · obtain ⟨n, hn⟩ := hall .root (by simp [hf])
    cases hn
  · obtain ⟨n, hn⟩ := hall .current (by simp [hf])
    cases hn
  · exact hne (by rw [hf])

theorem trail_join_descent (h : IsDescent q) : trail (join p q) = (trail p).extend (names q) := by
  rw [trail_join h.isAbsolute, Trail.foldl_advance_names h.isEntry]

/-- Joined with a relative path, a path climbs and descends again. -/
theorem trail_join_eq (h : isAbsolute q = false) :
    trail (join p q) = ((trail p).climb (trail q).ups).extend (trail q).names := by
  rw [trail_join h, foldl_names h, (proper_trail q).foldl_advance_pieces]

/-- Two trails, one continued further down, become the same where both have climbed to the root. -/
theorem Trail.climb_extend_eq_iff (root : Trail) {more : List Text} (hm : more ≠ []) (n : Nat)
    (names : List Text) :
    ((root.extend more).climb n).extend names = (root.climb n).extend names ↔
      root.isRooted = true ∧ root.names.length + more.length ≤ n := by
  have hmore : 0 < more.length := List.length_pos_iff.mpr hm
  have hlength : (root.extend more).names.length = root.names.length + more.length :=
    List.length_append
  have hdeep := length_climb (root.extend more) n
  have hhigh := length_climb root n
  have hups := ups_climb (root.extend more) n
  have hups' := ups_climb root n
  have hrooted : (root.extend more).isRooted = root.isRooted := rfl
  have hstart : (root.extend more).ups = root.ups := rfl
  rw [hlength] at hdeep hups
  rw [hrooted, hstart] at hups
  have hroot := isRooted_climb (root.extend more) n
  generalize (root.extend more).climb n = deep at hdeep hups hroot ⊢
  -- after the climb two numbers are left: the folders climbed and the names that remain
  constructor
  · intro h
    have hsame := congrArg (fun trail => trail.names.length) h
    have hclimbed := congrArg Trail.ups h
    simp only [extend, List.length_append, hups, hups'] at hsame hclimbed
    cases hr : root.isRooted with
    | true => exact ⟨rfl, by omega⟩
    | false =>
      simp only [hr, Bool.false_eq_true, if_false] at hclimbed
      omega
  · rintro ⟨hr, hn⟩
    have hempty : deep.names = [] := List.length_eq_zero_iff.mp (by omega)
    have hempty' : (root.climb n).names = [] := List.length_eq_zero_iff.mp (by omega)
    rw [if_pos hr] at hups hups'
    rw [extend, extend, hempty, hempty', hroot, isRooted_climb, hups, hups', hrooted]

theorem join_of_isAbsolute (h : isAbsolute q = true) : join p q = q := by
  rw [join, if_pos h]

end Path

/-- A file that is found from a folder is not the folder. -/
theorem Disk.Finds.location_join_ne {disk : Disk} {folder : Location} {p q : Path}
    {content : Content} (h : disk.Finds folder (Path.join p q) (.file content))
    (ha : Path.isAbsolute q = false) :
    (Path.join p q).location folder ≠ p.location folder := by
  intro hplace
  cases hsteps : steps q with
  | nil =>
    rw [Path.eq_nil_of_steps ha hsteps] at h
    by_cases hempty : p = []
    · exact h.reaches.nonempty (by rw [hempty]; rfl)
    · cases h.slash (Path.endsWithSlash_join_nil hempty)
  | cons step more =>
    -- the way leads through the folder
    have hpassed : p.location folder ∈ (Path.join p q).route folder := by
      have hstart : Path.start folder (Path.join p q) = Path.start folder p := by
        rw [Path.start, Path.start, Path.isAbsolute_join ha]
      rw [Path.route, hstart, Path.steps_join ha, hsteps, passed_append]
      exact List.mem_append_right _ (List.mem_cons_self ..)
    have hfolder := h.reaches.folders _ hpassed
    rw [← hplace, h.stands] at hfolder
    cases hfolder

namespace Project

variable {project : Project} {world after : World} {metadata : Fields} {document : Path}
  {report : Report}

/-- Seen from the folder of raw documents and from the root the document is the same path. -/
def Escapes (project : Project) (document : Path) : Prop :=
  Path.isAbsolute document = true ∨
    Path.isAbsolute project.root = true ∧
      (Path.trail project.root).names.length + (Path.names project.docsFolder).length ≤
        (Path.trail document).ups

/-- A raw document that does not climb lies below the folder of raw documents. -/
theorem below_of_isRaw (ha : Path.isAbsolute document = false) (hc : ¬ Path.Climbs document)
    (h : project.isRaw world document = true) :
    ∃ names, Path.Below (Path.join project.root project.docsFolder) (project.rawPath document)
      names := by
  obtain ⟨content, hfinds⟩ := Disk.isFile_eq_true_iff.mp h
  have htrail : Path.trail (project.rawPath document) =
      (Path.trail (Path.join project.root project.docsFolder)).extend
        (Path.trail document).names := by
    rw [rawPath, Path.trail_join_eq ha, Path.ups_eq_zero hc]
    rfl
  refine ⟨(Path.trail document).names, fun hnil => hfinds.location_join_ne ha ?_, htrail⟩
  have hsame : Path.trail (project.rawPath document) =
      Path.trail (Path.join project.root project.docsFolder) := by
    rw [htrail, hnil]
    simp [Path.Trail.extend]
  show (project.rawPath document).location world.folder = _
  rw [← Path.location_clean, Path.clean_eq_clean_iff.mpr hsame, Path.location_clean]

theorem clean_rawPath_eq_iff (hdocs : Path.IsDescent project.docsFolder) (document : Path) :
    Path.clean (project.rawPath document) = Path.clean (project.documentPath document) ↔
      project.Escapes document := by
  rw [Path.clean_eq_clean_iff, Escapes, rawPath, documentPath]
  cases ha : Path.isAbsolute document with
  | true =>
    rw [Path.join_of_isAbsolute ha, Path.join_of_isAbsolute ha]
    simp
  | false =>
    have hfolder := Path.trail_join_descent (p := project.root) hdocs
    have hroot : (Path.trail project.root).isRooted = Path.isAbsolute project.root := by
      rw [Path.trail, Path.Trail.isRooted_foldl]
      rfl
    rw [Path.trail_join_eq ha, Path.trail_join_eq ha, hfolder, ← hroot,
      Path.Trail.climb_extend_eq_iff _ hdocs.names_ne_nil]
    simp

/-! ### Reports -/

/-- What a report says about its document: what was read and parsed, and when the tags of the output
were commented. -/
structure Sourced (project : Project) (metadata : Fields) (world : World) (document : Path)
    (report : Report) (output : Text) : Prop where
  source : report.source = project.sourcePath world document
  parsed : ∃ t, world.read report.source = .ok t ∧ project.parsed world metadata t = .ok output
  converted : report.output = output ∨
    report.source = project.rawPath document ∧ report.output = commentTags output
  inPlace : Path.clean report.source = Path.clean (project.documentPath document) →
    ¬ project.Escapes document → report.output = output
  escaped : project.Escapes document → project.isRaw world document = true →
    Path.clean report.source = Path.clean (project.documentPath document) ∧
      report.output = commentTags output
  absolute : Path.isAbsolute document = true → project.isRaw world document = true

theorem isRaw_of_isAbsolute {t : Text} (ha : Path.isAbsolute document = true)
    (h : world.read (project.sourcePath world document) = .ok t) :
    project.isRaw world document = true := by
  have hsame : project.documentPath document = project.rawPath document := by
    rw [documentPath, rawPath, Path.join_of_isAbsolute ha, Path.join_of_isAbsolute ha]
  have hsource : project.sourcePath world document = project.rawPath document := by
    rw [sourcePath, hsame, ite_self]
  rw [hsource] at h
  exact Disk.isFile_eq_true_iff.mpr
    ⟨_, Disk.content?_eq_some_iff.mp (Disk.read_eq_ok_iff.mp h)⟩

theorem sourcePath_of_isRaw (h : project.isRaw world document = true) :
    project.sourcePath world document = project.rawPath document := if_pos h

theorem exists_sourced (hdocs : Path.IsDescent project.docsFolder)
    (h : project.processDocument metadata document world = (.ok report, after)) :
    ∃ output, project.Sourced metadata world document report output := by
  obtain ⟨draft, hd, hsource, -, houtput, -⟩ := processDocument_eq_ok h
  obtain ⟨target, t, output, -, hread, hparsed, rfl⟩ := draft_eq_ok_iff.mp hd
  refine ⟨output, hsource, ⟨t, hsource ▸ hread, hparsed⟩, ?_, ?_, ?_, fun ha =>
    isRaw_of_isAbsolute ha hread⟩
  · by_cases hr : project.isRaw world document = true
    · right
      rw [hsource, houtput]
      exact ⟨sourcePath_of_isRaw hr, if_pos hr⟩
    · left
      rw [houtput]
      exact if_neg hr
  · intro hclean hstays
    rw [houtput]
    refine if_neg fun hr => hstays ?_
    rw [hsource] at hclean
    rw [← clean_rawPath_eq_iff hdocs, ← sourcePath_of_isRaw hr]
    exact hclean
  · intro hescapes hr
    rw [hsource, houtput]
    refine ⟨?_, if_pos hr⟩
    show Path.clean (project.sourcePath world document) = _
    rw [sourcePath_of_isRaw hr, clean_rawPath_eq_iff hdocs]
    exact hescapes

/-- A document that does not climb is read from a file below the folder of raw documents or is read
itself. A document that is read itself keeps its tags, unless it is the same path when it is seen
from the folder of raw documents; then, found there, it has its tags commented in place. -/
theorem document_sources (hdocs : Path.IsDescent project.docsFolder) :
    (∀ world document, ¬ Path.Climbs document →
      (world.isFile (project.sourcePath world document) = true ∧
        ∃ names, Path.Below (Path.join project.root project.docsFolder)
          (project.sourcePath world document) names) ∨
      project.sourcePath world document = project.documentPath document) ∧
      ∀ metadata document world report after,
        project.processDocument metadata document world = (.ok report, after) →
          ∃ output, project.Sourced metadata world document report output := by
  refine ⟨fun world document hc => ?_, fun metadata document world report after h =>
    exists_sourced hdocs h⟩
  by_cases hr : project.isRaw world document = true
  · rw [sourcePath_of_isRaw hr]
    cases ha : Path.isAbsolute document with
    | true =>
      right
      rw [rawPath, documentPath, Path.join_of_isAbsolute ha, Path.join_of_isAbsolute ha]
    | false => exact .inl ⟨hr, below_of_isRaw ha hc hr⟩
  · exact .inr (if_neg hr)

/-- A project with a raw document and a document beside it. -/
def mixedWorld : World where
  disk := ⟨[(["p".toList], .folder), (["p".toList, "docs".toList], .folder),
    (["p".toList, "docs".toList, "a".toList], .file (.text "raw\n".toList)),
    (["p".toList, "b".toList], .file (.text "text\n".toList))]⟩
  folder := []
  now := 0

def mixedProject : Project where
  root := "/p".toList
  manifest := none
  documents := []
  output := .none
  backup := false
  roundtrips := 0
  docsFolder := "docs".toList
  parse := { timestamp := some "T".toList }

theorem document_sources_mixedWorld :
    Path.IsDescent mixedProject.docsFolder ∧ ¬ Path.Climbs ['a'] ∧
      mixedProject.sourcePath mixedWorld ['a'] = "/p/docs/a".toList ∧
      (∃ names, Path.Below "/p/docs".toList "/p/docs/a".toList names) ∧
      ∃ report after output,
        mixedProject.processDocument [] ['b'] mixedWorld = (.ok report, after) ∧
          mixedProject.Sourced [] mixedWorld ['b'] report output ∧ report.output = output := by
  have hdocs : Path.IsDescent mixedProject.docsFolder := by
    refine ⟨by decide, fun c hc => ⟨"docs".toList, ?_⟩⟩
    exact List.mem_singleton.mp hc
  have hstays : ¬ Path.Climbs ['a'] := by
    unfold Path.Climbs
    decide
  have hsource : mixedProject.sourcePath mixedWorld ['a'] = "/p/docs/a".toList := by
    decide +kernel
  obtain ⟨hread, hreports⟩ := document_sources hdocs
  refine ⟨hdocs, hstays, hsource, ?_, ?_⟩
  · have hcases := hread mixedWorld ['a'] hstays
    rw [hsource] at hcases
    rcases hcases with ⟨-, names, hbelow⟩ | hsame
    · exact ⟨names, hbelow⟩
    · exact absurd hsame (by decide)
  · have hok : (mixedProject.processDocument [] ['b'] mixedWorld).1.map (·.source) =
        .ok "/p/b".toList := by
      decide +kernel
    rcases hrun : mixedProject.processDocument [] ['b'] mixedWorld with ⟨e | report, after⟩
    · rw [hrun] at hok
      cases hok
    · rw [hrun] at hok
      have hb : report.source = "/p/b".toList := Except.ok.inj hok
      obtain ⟨output, hsourced⟩ := hreports [] ['b'] mixedWorld report after hrun
      refine ⟨report, after, output, rfl, hsourced, hsourced.inPlace ?_ ?_⟩
      · rw [hb]
        rfl
      · unfold Escapes
        decide

/-- A document with an absolute path has its tags commented in place, and one that climbs is read
neither from below the folder of raw documents nor itself. -/
theorem processDocument_mixedWorld :
    (∃ report after t output,
      mixedProject.processDocument [] "/p/b".toList mixedWorld = (.ok report, after) ∧
        report.source = mixedProject.documentPath "/p/b".toList ∧
        mixedWorld.read report.source = .ok t ∧
        mixedProject.parsed mixedWorld [] t = .ok output ∧ report.output ≠ output) ∧
      (mixedWorld.isFile (mixedProject.sourcePath mixedWorld "../b".toList) = true ∧
        (¬ ∃ names, Path.Below (Path.join mixedProject.root mixedProject.docsFolder)
          (mixedProject.sourcePath mixedWorld "../b".toList) names) ∧
        Path.clean (mixedProject.sourcePath mixedWorld "../b".toList) ≠
          Path.clean (mixedProject.documentPath "../b".toList)) := by
  constructor
  · have hreport : (mixedProject.processDocument [] "/p/b".toList mixedWorld).1.map
        (fun report => (report.source, report.output)) = .ok ("/p/b".toList,
          "text\n\n<!--? ! ?-->\n\n---\nLast Updated: T\n<!--?!-->\n".toList) := by
      decide +kernel
    have hparsed : mixedProject.parsed mixedWorld [] "text\n".toList =
        .ok "text\n\n<? ! ?>\n\n---\nLast Updated: T\n<?!>\n".toList := by
      decide +kernel
    rcases hrun : mixedProject.processDocument [] "/p/b".toList mixedWorld with
      ⟨e | report, after⟩
    · rw [hrun] at hreport
      cases hreport
    · rw [hrun] at hreport
      obtain ⟨hsource, houtput⟩ := Prod.mk.inj (Except.ok.inj hreport)
      refine ⟨report, after, "text\n".toList, _, rfl, hsource, ?_, hparsed, ?_⟩
      · rw [hsource]
        decide +kernel
      · rw [houtput]
        decide
  · have hsource : mixedProject.sourcePath mixedWorld "../b".toList = "/p/docs/../b".toList := by
      decide +kernel
    rw [hsource]
    refine ⟨by decide +kernel, ?_, by decide +kernel⟩
    rintro ⟨names, -, htrail⟩
    have hraw : Path.trail "/p/docs/../b".toList = ⟨true, 0, [['p'], ['b']]⟩ := by
      decide +kernel
    have hfolder : Path.trail (Path.join mixedProject.root mixedProject.docsFolder) =
        ⟨true, 0, [['p'], "docs".toList]⟩ := by
      decide +kernel
    rw [hraw, hfolder] at htrail
    have hnames : ['b'] = "docs".toList :=
      (List.cons.inj (List.cons.inj (congrArg Path.Trail.names htrail)).2).1
    exact absurd hnames (by decide)

end Project

end MarkdownDirectives
