import MarkdownDirectives.Project.Process
import MarkdownDirectives.Proofs.FixedPoint
import MarkdownDirectives.Proofs.Settled

/-!
# Repeated parses

Parsing the output again in the context that the first parse has left starts from a table that holds
the links of the document already. Where the expressions settle, each envelope of the page generates
its body from that table again, so the page is rendered to itself there too, and the output and the
context stay, however often the document is parsed.
-/

namespace MarkdownDirectives

section

variable {world : World} {nested : Text → Eval Text}

/-- A page whose expressions settle is rendered to the same lines in any later context. -/
theorem Page.Rewrites.again (hn : ∀ t, Eval.Framed (nested t)) {context after later : Context}
    {page : Page} {ls : List Text} (h : page.Rewrites world nested context ls after)
    (hs : ∀ e, .envelope e ∈ page → SettlesText true e.expression) (hl : after.GrowsTo later) :
    page.Rewrites world nested later ls later := by
  induction h with
  | nil => exact .nil
  | @cons context middle after piece more ls ls' hp hm ih =>
    have hmore := ih (fun e he => hs e (List.mem_cons_of_mem _ he)) hl
    refine .cons ?_ hmore
    cases hp with
    | line => exact .line
    | literal he => exact .literal he
    | discard he => exact .discard he
    | evaluated hne hnd hg hr =>
      refine .evaluated hne hnd ?_ hr
      exact generatedBody_again (hs _ (List.mem_cons_self ..)) hg ((hm.growsTo hn).trans hl)

end

/-! ### Documents -/

section

variable {world : World} {source output : Text} {context after : Context}

/-- The expressions of the document's envelopes only call operations that settle. -/
def SettlesDocument (source : Text) (context : Context) : Prop :=
  ∀ fragments, split context.options.unterminated source.normalizeLineBreaks = .ok fragments →
    ∀ d, .directive d ∈ fragments → SettlesText true d.expression

theorem parse_settled (h : Reparsable world source context) (hs : SettlesDocument source context)
    (hx : parse world source context = (.ok output, after)) :
    parse world output after = (.ok output, after) := by
  refine h.parse_output hx fun texts p => ?_
  refine p.rewrites.again (parsePart_framed world) (fun e he => ?_) (.refl after)
  obtain ⟨fragments, d, hf, hd, hexp⟩ := p.expressions e he
  rw [← hexp]
  exact hs fragments hf d hd

/-- What holds of one more parse holds of any number of them. -/
theorem reparse_of_parse (h : parse world output after = (.ok output, after)) (count : Nat) :
    reparse world count output after = (.ok output, after) := by
  induction count with
  | zero => rfl
  | succ count ih => exact (Eval.bind_of_ok h).trans ih

end

/-! ### Projects -/

/-- The project with another number of repeated parses. -/
def Project.withRoundtrips (project : Project) (count : Nat) : Project :=
  { project with roundtrips := count }

section

variable {world : World} {metadata : Fields} {project : Project}

theorem parsed_withRoundtrips {source : Text}
    (h : Reparsable world source (project.context world metadata))
    (hs : SettlesDocument source (project.context world metadata)) (count : Nat) :
    (project.withRoundtrips count).parsed world metadata source =
      project.parsed world metadata source := by
  have key : ∀ n, (reparse world (n + 1) source (project.context world metadata)).1 =
      (parse world source (project.context world metadata)).1 := by
    intro n
    rcases hx : parse world source (project.context world metadata) with ⟨e | output, after⟩
    · exact congrArg Prod.fst (Eval.bind_of_error hx)
    · have hr := reparse_of_parse (parse_settled h hs hx) n
      exact congrArg Prod.fst ((Eval.bind_of_ok hx).trans hr)
  exact (key count).trans (key project.roundtrips).symm

theorem draft_withRoundtrips {document : Path}
    (h : ∀ source, world.read (project.sourcePath world document) = .ok source →
      Reparsable world source (project.context world metadata) ∧
        SettlesDocument source (project.context world metadata)) (count : Nat) :
    (project.withRoundtrips count).draft world metadata document =
      project.draft world metadata document := by
  have hp : (project.withRoundtrips count).sourcePath world document =
      project.sourcePath world document := rfl
  unfold Project.draft
  refine bind_congr fun target => ?_
  simp only [hp]
  cases hr : world.read (project.sourcePath world document) with
  | error e => rfl
  | ok source =>
    obtain ⟨hx, hs⟩ := h source hr
    have hpar := parsed_withRoundtrips hx hs count
    let finish : Text → Except Error Draft := fun output =>
      pure ⟨project.sourcePath world document, target,
        if project.isRaw world document then commentTags output else output⟩
    exact congrArg (· >>= finish) hpar

end

/-- The repeated parses of a document change nothing, if its output can be parsed again and its
expressions settle: the output comes again from the context that the first parse left, which stays,
whatever the time and however often; and processing the document gives the same for any number of
repeated parses. -/
theorem roundtrips_settled (world : World) :
    (∀ source context output after, Reparsable world source context →
      SettlesDocument source context → parse world source context = (.ok output, after) →
      (∀ now, parse (world.at now) output after = (.ok output, after)) ∧
        ∀ count, reparse world count output after = (.ok output, after)) ∧
    ∀ (project : Project) metadata document,
      (∀ source, world.read (project.sourcePath world document) = .ok source →
        Reparsable world source (project.context world metadata) ∧
          SettlesDocument source (project.context world metadata)) →
      ∀ count, (project.withRoundtrips count).processDocument metadata document world =
        project.processDocument metadata document world := by
  refine ⟨fun source context output after h hs hx => ⟨fun now => ?_, ?_⟩,
    fun project metadata document h count => ?_⟩
  · obtain ⟨stamp, ht, -⟩ := h.stamp
    have hg : context.GrowsTo after := (parse_framed world source).growsTo hx
    have hfixed : after.options.timestamp.isSome := by
      rw [hg.options, ht]
      rfl
    rw [← parse_at now output hfixed]
    exact parse_settled h hs hx
  · exact reparse_of_parse (parse_settled h hs hx)
  · rw [processDocument_eq, processDocument_eq, draft_withRoundtrips h count]
    rfl

/-- The project of the document that asks for an alias. -/
def aliasProject : Project :=
  ⟨['/'], none, ["doc.md".toList], .none, false, 0, "docs".toList,
    { timestamp := some "now".toList }⟩

theorem aliasSource_settles : SettlesDocument aliasSource aliasContext := by
  intro fragments hf d hd
  rw [split_aliasSource] at hf
  cases hf
  simp only [aliasFragments, List.mem_cons, Fragment.directive.injEq, reduceCtorEq,
    List.not_mem_nil, or_false, false_or] at hd
  rcases hd with rfl | rfl
  · decide +kernel
  · decide +kernel

theorem roundtrips_aliasSource :
    reparse aliasWorld 3 aliasOutput (parse aliasWorld aliasSource aliasContext).2 =
        (.ok aliasOutput, (parse aliasWorld aliasSource aliasContext).2) ∧
      (aliasProject.withRoundtrips 3).processDocument [] "doc.md".toList aliasWorld =
        aliasProject.processDocument [] "doc.md".toList aliasWorld := by
  refine ⟨((roundtrips_settled aliasWorld).1 aliasSource aliasContext aliasOutput _
    aliasSource_reparsable aliasSource_settles parse_aliasSource).2 3, ?_⟩
  refine (roundtrips_settled aliasWorld).2 aliasProject [] "doc.md".toList (fun source hs => ?_) 3
  have hr : aliasWorld.read (aliasProject.sourcePath aliasWorld "doc.md".toList) =
      .ok aliasSource := by
    decide +kernel
  rw [hr] at hs
  cases hs
  exact ⟨aliasSource_reparsable, aliasSource_settles⟩

end MarkdownDirectives
