import MarkdownDirectives.Proofs.Nesting
import MarkdownDirectives.Proofs.Rendered

/-!
# Parsing a document again

The output of a parse, parsed again in the context that the first parse started from, is the output.
The lines of the output are those of the page that the document was rendered to, an empty line and
the footer, squeezed; the page is rendered to itself, and the old footer to empty lines, which show
no more than the one before the new footer.
-/

namespace MarkdownDirectives

/-! ### From a page to the output -/

/-- The output for a document, before the footer in texts. -/
def Context.output (world : World) (context : Context) (texts : List Text) : Text :=
  Text.normalizeLineBreaks (Text.ofLines texts ++ context.footer world)

/-- A page with the footer, whose envelope is `e`. -/
def Page.withFooter (page : Page) (e : Envelope) : Page := page ++ [.blank, .envelope e, .blank]

section

variable {world : World} {nested : Text → Eval Text} {start after : Context}

theorem Page.lines_withFooter (page : Page) (e : Envelope) :
    (page.withFooter e).lines = page.lines ++ [] :: (e.lines ++ [[]]) := by
  simp [withFooter, Page.lines, Piece.lines, Piece.blank]

/-- The old footer is rendered to empty lines. -/
theorem Page.Rewrites.withFooter {page : Page} {ls : List Text} {e : Envelope}
    (h : page.Rewrites world nested start ls after) (he : e.expression = discardMark) :
    (page.withFooter e).Rewrites world nested start (ls ++ List.replicate 4 []) after := by
  have hb : Piece.Rewrites world nested after .blank [[]] after := .line
  exact h.append (.cons hb (.cons (.discard he) (.cons hb .nil)))

theorem normalizeLines_footer {ls : List Text} (e : Envelope) :
    Text.normalizeLines (ls ++ [] :: (e.lines ++ [[]])) =
      Text.normalizeFront (ls ++ [] :: (e.lines ++ [[]])) := by
  have ha : ls ++ [] :: (e.lines ++ [[]]) =
      (ls ++ [] :: e.opening :: e.body) ++ [e.closing, []] := by
    simp [Envelope.lines]
  rw [ha]
  exact Text.normalizeLines_concat_nil e.closing_visible

theorem lines_output {texts : List Text} {e : Envelope} (hne : texts ≠ [])
    (hs : Text.Sealed texts) (he : (after.footerBlock world).rows = e.lines ++ [[]]) :
    (after.output world texts).lines =
      Text.normalizeFront (texts.flatMap Text.rows ++ [] :: (e.lines ++ [[]])) := by
  rw [Context.output, Text.lines_normalizeLineBreaks, rows_footer world after hne hs, he,
    normalizeLines_footer]

/-- Texts that differ by runs of blank lines and by empty lines at their end have one output. -/
theorem output_congr {texts texts' : List Text} {e : Envelope} (hs : Text.Sealed texts)
    (hs' : Text.Sealed texts') (he : (after.footerBlock world).rows = e.lines ++ [[]])
    (hne : texts ≠ []) (n : Nat)
    (h : Text.normalizeFront (texts'.flatMap Text.rows) =
      Text.normalizeFront (texts.flatMap Text.rows ++ List.replicate n [])) :
    after.output world texts' = after.output world texts := by
  have hrows : texts.flatMap Text.rows ≠ [] := by
    obtain ⟨t, more, rfl⟩ := List.exists_cons_of_ne_nil hne
    rw [List.flatMap_cons]
    exact List.append_ne_nil_of_left_ne_nil (Text.rows_ne_nil t) _
  have hrows' : texts'.flatMap Text.rows ≠ [] := by
    intro hnil
    obtain ⟨line, more, hm⟩ := List.exists_cons_of_ne_nil hrows
    simp [hnil, hm, Text.normalizeFront] at h
  have hne' : texts' ≠ [] := by
    rintro rfl
    exact hrows' rfl
  have hlines : (after.output world texts').lines = (after.output world texts).lines := by
    rw [lines_output hne' hs' he, lines_output hne hs he, Text.normalizeFront_congr h hrows',
      Text.normalizeFront_blanks hrows]
  rw [← Text.ofLines_lines (after.output world texts'), hlines, Text.ofLines_lines]

/-- From every context in which the page is rendered to itself, the output is rendered to itself. -/
theorem RenderedPage.render_output {expressions : Text → Prop} {context : Context}
    {texts : List Text} (p : RenderedPage world nested expressions context texts after)
    (hne : texts ≠ []) (hr : p.page.Rewrites world nested start p.page.lines after)
    (hl : after.links.render.Untagged .raw) (ht : (after.timestamp world).Untagged .raw) :
    render world nested (after.output world texts) true start =
      (.ok (after.output world texts), after) := by
  obtain ⟨e, hee, he⟩ := exists_footer_envelope hl ht
  have hlines : (after.output world texts).lines = (p.page.withFooter e).normalize.lines := by
    rw [lines_output hne p.isSealed he, Page.lines_normalize, Page.lines_withFooter, p.lines]
  have hsplit : split start.options.unterminated
      (Text.normalizeLineBreaks (after.output world texts)) =
        .ok (Block.gather ((p.page.withFooter e).normalize.blocks 1)) := by
    rw [Context.output, Text.normalizeLineBreaks_idem, ← Context.output, split_eq_gather, hlines,
      blockLines_page]
    rfl
  obtain ⟨texts', hr', hs', hq⟩ := (hr.withFooter hee).normalize 1
  rw [p.lines] at hq
  have hout := output_congr p.isSealed hs' he hne 4 hq
  rw [render_of_ok hsplit, renderFragments_gather, hr']
  exact congrArg (fun t => (Except.ok t, after)) hout

end

/-! ### Documents that can be parsed again -/

/-- What a document must be like for its output to be parsed again as it was written: the stamp is
fixed; literal envelopes are closed and their own tags balance; so do those of each generated body;
and neither the link definitions nor the stamp hold a tag of the footer's form. -/
structure Reparsable (world : World) (source : Text) (context : Context) : Prop where
  stamp : ∃ stamp, context.options.timestamp = some stamp ∧ stamp.Untagged .raw
  links : (parse world source context).2.links.render.Untagged .raw
  literals : ∀ fragments,
    split context.options.unterminated source.normalizeLineBreaks = .ok fragments →
    ∀ d, .directive d ∈ fragments → d.isLiteral = true →
      d.isTerminated = true ∧ d.form.Balanced d.body.lines
  bodies : ∀ fragments,
    split context.options.unterminated source.normalizeLineBreaks = .ok fragments →
    ∀ p ∈ evaluations world (parsePart world) fragments context, p.1.form.Balanced
      (generatedBody world (parsePart world) p.1.expression p.2).1.normalizeLineBreaks.lines

/-- Whether an envelope of the document has the expression. -/
def HasExpression (source : Text) (context : Context) (expression : Text) : Prop :=
  ∃ fragments d, split context.options.unterminated source.normalizeLineBreaks = .ok fragments ∧
    .directive d ∈ fragments ∧ d.expression = expression

section

variable {world : World} {source output : Text} {context after : Context}

/-- A document that is parsed has a page, from which the output is written. -/
theorem Reparsable.exists_page (h : Reparsable world source context)
    (hx : parse world source context = (.ok output, after)) :
    ∃ texts, texts ≠ [] ∧ output = after.output world texts ∧
      Nonempty (RenderedPage world (parsePart world) (HasExpression source context) context texts
        after) := by
  rw [parse_eq] at hx
  cases hs : split context.options.unterminated source.normalizeLineBreaks with
  | error e =>
    rw [render_of_error hs] at hx
    cases hx
  | ok fragments =>
    have hsplit := hs
    rw [split_eq_gather] at hs
    obtain ⟨blocks, hb, rfl⟩ := exists_of_map_eq_ok hs
    rcases hr : renderBlocks world (parsePart world) blocks context with ⟨texts, c⟩
    rw [render_of_ok hsplit, renderFragments_gather, hr] at hx
    cases hx
    refine ⟨texts, ?_, rfl, ?_⟩
    · have hne := @renderBlocks_ne_nil world (parsePart world) _ (blockLines_ne_nil hb) context
      rwa [hr] at hne
    · exact MarkdownDirectives.exists_page hr
        (blockLines_ofLines hb fun line hl => Text.unbroken_of_mem_normalized hl)
        (fun d hd => h.literals _ hsplit d (Block.mem_gather.mpr hd)) (h.bodies _ hsplit)
        fun d hd _ => ⟨_, d, hsplit, Block.mem_gather.mpr hd, rfl⟩

/-- From every context in which the page is rendered to itself, the output is parsed to itself. -/
theorem Reparsable.parse_output (h : Reparsable world source context)
    (hx : parse world source context = (.ok output, after)) {start : Context}
    (hr : ∀ texts (p : RenderedPage world (parsePart world) (HasExpression source context) context
      texts after), p.page.Rewrites world (parsePart world) start p.page.lines after) :
    parse world output start = (.ok output, after) := by
  obtain ⟨texts, hne, rfl, ⟨p⟩⟩ := h.exists_page hx
  have hg : context.GrowsTo after := (parse_framed world source).growsTo hx
  have hl := h.links
  rw [hx] at hl
  have ht : (after.timestamp world).Untagged .raw := by
    obtain ⟨stamp, hs, hu⟩ := h.stamp
    have ha : after.timestamp world = stamp := by
      rw [Context.timestamp, hg.options, hs, Option.getD_some]
    rw [ha]
    exact hu
  rw [parse_eq]
  exact p.render_output hne (hr texts p) hl ht

/-- The output of a document is a fixed point: parsed in the context that the document was parsed
in, at whatever time, it gives itself and leaves the same context. -/
theorem parse_fixed_point (h : Reparsable world source context)
    (hx : parse world source context = (.ok output, after)) (now : Int) :
    parse (world.at now) output context = (.ok output, after) := by
  obtain ⟨stamp, hs, -⟩ := h.stamp
  have ht : context.options.timestamp.isSome := by
    rw [hs]
    rfl
  rw [← parse_at now output ht]
  exact h.parse_output hx fun _ p => p.rewrites

end

/-! ### A document that asks for an alias -/

/-- A document with an evaluated envelope and a literal one. -/
def aliasSource : Text := "<? @alias('a') ?>\n<?!>\n<? ?>\nas is\n<?!>".toList

def aliasOutput : Text :=
  "<? @alias('a') ?>\nlink-1\n<?!>\n<? ?>\nas is\n<?!>\n\n".toList ++
    "<? ! ?>\n[link-1]: a\n\n---\nLast Updated: now\n<?!>\n".toList

/-- The document as the only file. -/
def aliasWorld : World := ⟨⟨[(["doc.md".toList], .file (.text aliasSource))]⟩, [], 0⟩

def aliasContext : Context := Context.new aliasWorld [] ['/'] { timestamp := some "now".toList }

def aliasFragments : List Fragment :=
  [.directive ⟨"<? @alias('a') ?>\n<?!>".toList, "@alias('a')".toList, ['\n'], .raw, 1, true⟩,
    .text ['\n'],
    .directive ⟨"<? ?>\nas is\n<?!>".toList, [], "\nas is\n".toList, .raw, 3, true⟩]

theorem split_aliasSource :
    split aliasContext.options.unterminated aliasSource.normalizeLineBreaks =
      .ok aliasFragments := by
  decide +kernel

theorem aliasSource_reparsable : Reparsable aliasWorld aliasSource aliasContext where
  stamp := ⟨"now".toList, rfl, by decide⟩
  links := by decide +kernel
  literals := by
    intro fragments hf d hd hl
    rw [split_aliasSource] at hf
    cases hf
    simp only [aliasFragments, List.mem_cons, Fragment.directive.injEq, reduceCtorEq,
      List.not_mem_nil, or_false, false_or] at hd
    rcases hd with rfl | rfl
    · cases hl
    · decide
  bodies := by
    intro fragments hf
    rw [split_aliasSource] at hf
    cases hf
    decide +kernel

theorem parse_aliasSource :
    parse aliasWorld aliasSource aliasContext =
      (.ok aliasOutput, (parse aliasWorld aliasSource aliasContext).2) := by
  have h : (parse aliasWorld aliasSource aliasContext).1 = .ok aliasOutput := by decide +kernel
  rw [← h, Prod.eta]

theorem parse_aliasOutput :
    parse (aliasWorld.at 86400) aliasOutput aliasContext =
      (.ok aliasOutput, (parse aliasWorld aliasSource aliasContext).2) :=
  parse_fixed_point aliasSource_reparsable parse_aliasSource 86400

end MarkdownDirectives
