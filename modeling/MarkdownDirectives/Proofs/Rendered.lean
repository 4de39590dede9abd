import MarkdownDirectives.Proofs.Replay

/-!
# Rendered documents

The text that a document is rendered to is a page again. Each rendered block is one or two pieces:
an evaluated envelope is written with the same expression, and its tags balance if those of the
generated body do. The footer is an empty line and a discarded envelope, as long as neither the link
definitions nor the stamp hold a tag. What was generated for an envelope stands in the page, so the
page is rendered to itself in the context in which the document was.
-/

namespace MarkdownDirectives

/-- No line of the text is a tag of the form. -/
def Text.Untagged (form : TagForm) (t : Text) : Prop :=
  ∀ line ∈ t.normalizeLineBreaks.lines, form.isTag line = false

instance (form : TagForm) (t : Text) : Decidable (t.Untagged form) :=
  inferInstanceAs (Decidable (∀ line ∈ t.normalizeLineBreaks.lines, form.isTag line = false))

theorem Text.Untagged.isTag_row {form : TagForm} {t row : Text} (h : t.Untagged form)
    (hr : row ∈ t.rows) : form.isTag row = false := by
  cases hb : Text.isBlankLine row with
  | true => exact TagForm.isTag_of_isBlankLine hb
  | false =>
    refine h row ?_
    rw [Text.lines_normalizeLineBreaks]
    exact Text.mem_normalizeLines hr hb

/-! ### Rendered blocks -/

section

variable {world : World} {nested : Text → Eval Text}

/-- Generated bodies stand on lines of their own. -/
theorem exists_generatedBody_eq (expression : Text) (context : Context) :
    ∃ inner, (generatedBody world nested expression context).1 = '\n' :: (inner ++ ['\n']) := by
  have ho : ∀ r, ∃ inner, outcomeBody r = '\n' :: (inner ++ ['\n']) := by
    intro r
    cases r with
    | ok value => exact ⟨value.format, rfl⟩
    | error e => exact ⟨"<!-- `".toList ++ Diagnostic.payload e.message ++ "` -->".toList, rfl⟩
  exact ho (evaluateText world nested expression context).1

/-- The rows of a body stand between the two tags that it is wrapped in. -/
theorem exists_rows_wrap {inner body : Text} (hi : body = '\n' :: (inner ++ ['\n'])) :
    ∃ front, body.rows = [] :: (front ++ [[]]) ∧
      ∀ (form : TagForm) {expression : Text}, expression.Unbroken →
        (form.wrap expression body).rows =
          form.openTag expression :: (front ++ [form.closeTag]) := by
  obtain ⟨front, -, hf, -⟩ := Text.rows_line inner
  refine ⟨front, ?_, fun form expression hx => ?_⟩
  · have hn := Text.rows_append (a := []) (b := inner ++ ['\n']) (by decide)
    rw [hi]
    refine hn.trans ?_
    rw [hf, Text.Unbroken.nil.rows]
    rfl
  · obtain ⟨hot, hct⟩ := Envelope.unbroken_tags form hx
    have hw : form.wrap expression body =
        form.openTag expression ++ '\n' :: (inner ++ '\n' :: form.closeTag) := by
      simp [TagForm.wrap, hi]
    rw [hw, Text.rows_append hot.getLast?, hot.rows, hf, hct.rows]
    rfl

/-- An envelope that was given a body balancing its form is an envelope of the page. -/
theorem exists_envelope {form : TagForm} {expression opening inner body : Text}
    (ho : openingTag? opening = some (form, expression)) (hu : opening.Unbroken)
    (hi : body = '\n' :: (inner ++ ['\n']))
    (hb : form.Balanced body.normalizeLineBreaks.lines) :
    ∃ e : Envelope, e.form = form ∧ e.expression = expression ∧
      (form.wrap expression body).rows = e.lines := by
  obtain ⟨front, hrows, hwrap⟩ := exists_rows_wrap hi
  have ht := (TagForm.of_opening? (opening?_of_openingTag? ho)).1
  have hx := unbroken_of_openingTag? ho hu
  have hbal : form.Balanced front := by
    rw [TagForm.balanced_normalizeLineBreaks, hrows] at hb
    exact TagForm.balanced_padded.mp hb
  have hfront : ∀ line ∈ front, line.Unbroken := fun line hl =>
    Text.unbroken_of_mem_rows (hrows ▸ List.mem_cons_of_mem _ (List.mem_append_left _ hl))
  exact ⟨.written form expression front ht hx hbal hfront, rfl, rfl, hwrap form hx⟩

/-- A closed envelope whose body balances its form is an envelope of the page as it stands. -/
theorem exists_literal_envelope {form : TagForm} {expression opening closing : Text}
    {body : List Text} {number : Nat} (ho : openingTag? opening = some (form, expression))
    (hc : form.closes closing = true) (hu : ∀ line ∈ opening :: (body ++ [closing]), line.Unbroken)
    (hb : form.Balanced
      (Directive.ofLines form expression number opening body closing).body.lines) :
    ∃ e : Envelope, e.expression = expression ∧ e.lines = opening :: (body ++ [closing]) := by
  have hub : ∀ line ∈ body, line.Unbroken := fun line hl =>
    hu line (List.mem_cons_of_mem _ (List.mem_append_left _ hl))
  rw [Directive.ofLines, balanced_body fun line hl => (hub line hl).1] at hb
  exact ⟨⟨form, expression, opening, body, closing, ho, hb, hc, hu⟩, rfl, rfl⟩

/-! ### The page of a document -/

/-- The page whose lines are those of the texts that blocks were rendered to. It is rendered to
itself, and its envelopes have expressions of blocks that are not discarded. -/
structure RenderedPage (world : World) (nested : Text → Eval Text) (expressions : Text → Prop)
    (context : Context) (texts : List Text) (after : Context) where
  page : Page
  lines : page.lines = texts.flatMap Text.rows
  rewrites : page.Rewrites world nested context page.lines after
  isSealed : Text.Sealed texts
  expressions : ∀ e, .envelope e ∈ page → expressions e.expression

namespace RenderedPage

variable {expressions : Text → Prop} {context middle after : Context} {texts texts' : List Text}

def nil : RenderedPage world nested expressions context [] context where
  page := []
  lines := rfl
  rewrites := .nil
  isSealed := .nil
  expressions := fun _ he => absurd he List.not_mem_nil

def append (p : RenderedPage world nested expressions context texts middle)
    (p' : RenderedPage world nested expressions middle texts' after) :
    RenderedPage world nested expressions context (texts ++ texts') after :=
  have happ : Page.lines (p.page ++ p'.page) = p.page.lines ++ p'.page.lines :=
    List.flatMap_append
  { page := p.page ++ p'.page
    lines := by rw [happ, p.lines, p'.lines, List.flatMap_append]
    rewrites := by
      rw [happ]
      exact p.rewrites.append p'.rewrites
    isSealed := p.isSealed.append p'.isSealed
    expressions := fun e he =>
      (List.mem_append.mp he).elim (p.expressions e) (p'.expressions e) }

def line {t : Text} (outside : openingTag? t = none) (unbroken : t.Unbroken) :
    RenderedPage world nested expressions context [t] context where
  page := [.line t outside unbroken]
  lines := by
    rw [List.flatMap_singleton, unbroken.rows]
    rfl
  rewrites := .cons .line .nil
  isSealed := .cons unbroken.getLast? .nil
  expressions := by simp

/-- A discarded envelope leaves two empty lines. -/
def discarded : RenderedPage world nested expressions context [['\n']] context where
  page := [.blank, .blank]
  lines := rfl
  rewrites :=
    have hb : Piece.Rewrites world nested context .blank [[]] context := .line
    .cons hb (.cons hb .nil)
  isSealed := .cons (by decide) .nil
  expressions := by simp [Piece.blank]

def envelope {t : Text} (e : Envelope) (rows : t.rows = e.lines) (closed : t.getLast? ≠ some '\r')
    (rewrites : Piece.Rewrites world nested context (.envelope e) e.lines after)
    (expression : expressions e.expression) :
    RenderedPage world nested expressions context [t] after where
  page := [.envelope e]
  lines := by
    rw [List.flatMap_singleton, rows]
    exact List.append_nil e.lines
  rewrites := .cons rewrites .nil
  isSealed := .cons closed .nil
  expressions := fun e' he => by
    cases List.mem_singleton.mp he
    exact expression

end RenderedPage

variable {expressions : Text → Prop} {context after : Context}

/-- The conditions on an envelope and the context in which it is rendered. -/
structure Directive.Balances (world : World) (nested : Text → Eval Text) (context : Context)
    (d : Directive) : Prop where
  literal : d.isLiteral = true → d.isTerminated = true ∧ d.form.Balanced d.body.lines
  evaluated : d.isLiteral = false → d.isDiscard = false → d.form.Balanced
    (generatedBody world nested d.expression context).1.normalizeLineBreaks.lines

theorem exists_page_of_directive {d : Directive} {t : Text}
    (hr : renderDirective world nested d context = (t, after))
    (ho : Block.OfLines (.directive d)) (hb : d.Balances world nested context)
    (he : d.isDiscard = false → expressions d.expression) :
    Nonempty (RenderedPage world nested expressions context [t] after) := by
  obtain ⟨opening, hop, hu⟩ : ∃ opening, openingTag? opening = some (d.form, d.expression) ∧
      opening.Unbroken := by
    cases ho with
    | closed h _ hu => exact ⟨_, h, hu _ (List.mem_cons_self ..)⟩
    | unclosed h hu => exact ⟨_, h, hu⟩
  cases hlit : d.isLiteral with
  | true =>
    obtain ⟨hterm, hbal⟩ := hb.literal hlit
    have hdis : d.isDiscard = false := by
      rw [Directive.isDiscard, List.isEmpty_iff.mp hlit]
      rfl
    rw [renderDirective_literal hlit] at hr
    cases hr
    cases ho with
    | unclosed _ _ => cases hterm
    | closed h hc hub =>
      obtain ⟨e, hee, hlines⟩ := exists_literal_envelope h hc hub hbal
      have hx : e.expression = [] := hee.trans (List.isEmpty_iff.mp hlit)
      have hrows := Text.rows_ofLines_unbroken (List.cons_ne_nil _ _) hub
      exact ⟨.envelope e (hrows.trans hlines.symm) (Text.getLast?_ofLines hub) (.literal hx)
        (hee ▸ he hdis)⟩
  | false =>
    cases hdis : d.isDiscard with
    | true =>
      rw [renderDirective_discard hlit hdis] at hr
      cases hr
      exact ⟨.discarded⟩
    | false =>
      have hbal := hb.evaluated hlit hdis
      obtain ⟨inner, hi⟩ := exists_generatedBody_eq d.expression context
      rw [renderDirective_evaluated hlit hdis] at hr
      rcases hg : generatedBody world nested d.expression context with ⟨body, later⟩
      rw [hg] at hr hbal hi
      cases hr
      obtain ⟨e, hef, hee, hrows⟩ := exists_envelope hop hu hi hbal
      have hne : e.expression ≠ [] := hee ▸ List.isEmpty_eq_false_iff.mp hlit
      have hnd : e.expression ≠ discardMark := hee ▸ beq_eq_false_iff_ne.mp hdis
      have hrw : Piece.Rewrites world nested context (.envelope e) e.lines later := by
        refine .evaluated hne hnd (hee ▸ hg) ?_
        rw [hef, hee, hrows]
      exact ⟨.envelope e hrows (d.form.getLast?_wrap _ _) hrw (hee ▸ he hdis)⟩

/-- The text that a document is rendered to has the lines of a page, which is rendered to itself. -/
theorem exists_page {blocks : List Block} {ts : List Text}
    (hr : renderBlocks world nested blocks context = (ts, after))
    (ho : ∀ block ∈ blocks, block.OfLines)
    (hl : ∀ d, .directive d ∈ blocks → d.isLiteral = true →
      d.isTerminated = true ∧ d.form.Balanced d.body.lines)
    (he : ∀ p ∈ evaluations world nested (Block.gather blocks) context, p.1.form.Balanced
      (generatedBody world nested p.1.expression p.2).1.normalizeLineBreaks.lines)
    (hx : ∀ d, .directive d ∈ blocks → d.isDiscard = false → expressions d.expression) :
    Nonempty (RenderedPage world nested expressions context ts after) := by
  induction blocks generalizing context ts with
  | nil =>
    cases hr
    exact ⟨.nil⟩
  | cons block more ih =>
    rcases hb : renderBlock world nested block context with ⟨t, middle⟩
    rcases hm : renderBlocks world nested more middle with ⟨ts', after'⟩
    rw [renderBlocks_cons_eq hb hm] at hr
    cases hr
    obtain ⟨hfirst, hrest⟩ := List.forall_mem_cons.mp ho
    have hld := fun d hd => hl d (List.mem_cons_of_mem block hd)
    have hxd := fun d hd => hx d (List.mem_cons_of_mem block hd)
    cases block with
    | line t =>
      cases hb
      rw [Block.gather, evaluations_consText] at he
      obtain ⟨p⟩ := ih hm hrest hld he hxd
      cases hfirst with
      | line ht hu => exact ⟨(RenderedPage.line ht hu).append p⟩
    | directive d =>
      have hmid : (renderDirective world nested d context).2 = middle := congrArg Prod.snd hb
      rw [evaluations_directive, hmid] at he
      obtain ⟨p⟩ := ih hm hrest hld (fun q hq => he q (List.mem_append_right _ hq)) hxd
      have hbal : d.Balances world nested context := by
        refine ⟨hl d (List.mem_cons_self ..), fun hlit hdis => ?_⟩
        rw [hlit, hdis] at he
        exact he (d, context) (List.mem_append_left _ (List.mem_singleton.mpr rfl))
      obtain ⟨p'⟩ := exists_page_of_directive hb hfirst hbal (hx d (List.mem_cons_self ..))
      exact ⟨p'.append p⟩

end

/-! ### The footer -/

/-- The part of the footer after its two line feeds, in lines. -/
def Context.footerBlock (world : World) (context : Context) : Text :=
  TagForm.raw.openTag discardMark ++ '\n' :: (context.links.render ++ '\n' :: ("---".toList ++
    '\n' :: ("Last Updated: ".toList ++ context.timestamp world ++ '\n' ::
      (TagForm.raw.closeTag ++ '\n' :: []))))

theorem Context.footer_eq (world : World) (context : Context) :
    context.footer world = '\n' :: '\n' :: context.footerBlock world := by
  have hr : "\n---\nLast Updated: ".toList =
      '\n' :: ("---".toList ++ '\n' :: "Last Updated: ".toList) := rfl
  simp only [footer, footerBlock, hr, List.append_assoc, List.cons_append]

theorem exists_untagged_rows {form : TagForm} {t : Text}
    (h : ∀ row ∈ t.rows, form.isTag row = false) :
    ∃ front, (∀ b, Text.rows (t ++ '\n' :: b) = front ++ Text.rows b) ∧
      ∀ row ∈ front, form.isTag row = false ∧ row.Unbroken := by
  obtain ⟨front, -, hf, hm⟩ := Text.rows_line t
  exact ⟨front, hf, fun row hr => ⟨h row (hm row hr), Text.unbroken_of_mem_rows (hm row hr)⟩⟩

/-- The label in front of the stamp makes no tag of it. -/
theorem isTag_stamp {stamp row : Text} (h : stamp.Untagged .raw)
    (hr : row ∈ Text.rows ("Last Updated: ".toList ++ stamp)) : TagForm.raw.isTag row = false := by
  rcases Text.mem_rows_append (by decide) hr with ⟨more, rfl⟩ | hr
  · exact TagForm.isTag_cons (by decide) _
  · exact h.isTag_row hr

theorem exists_footer_envelope {world : World} {context : Context}
    (hl : context.links.render.Untagged .raw) (hs : (context.timestamp world).Untagged .raw) :
    ∃ e : Envelope, e.expression = discardMark ∧
      (context.footerBlock world).rows = e.lines ++ [[]] := by
  obtain ⟨links, hlinks, hlr⟩ := exists_untagged_rows fun row hr => hl.isTag_row hr
  obtain ⟨stamp, hstamp, hsr⟩ := exists_untagged_rows fun row hr => isTag_stamp hs hr
  have hx : discardMark.Unbroken := by decide
  have hm : Text.Unbroken "---".toList := by decide
  have hbody : ∀ line ∈ links ++ "---".toList :: stamp,
      TagForm.raw.isTag line = false ∧ line.Unbroken := by
    intro line hline
    rcases List.mem_append.mp hline with h | h
    · exact hlr line h
    · rcases List.mem_cons.mp h with rfl | h
      · exact ⟨by decide, hm⟩
      · exact hsr line h
  have hbal : TagForm.raw.Balanced (links ++ "---".toList :: stamp) :=
    TagForm.openAfter_untagged (fun line h => (hbody line h).1) 0
  obtain ⟨ho, hc⟩ := Envelope.unbroken_tags .raw hx
  refine ⟨.written .raw discardMark _ (by decide) hx hbal fun line h => (hbody line h).2, rfl, ?_⟩
  rw [Context.footerBlock, Text.rows_append ho.getLast?, ho.rows, hlinks,
    Text.rows_append hm.getLast?, hm.rows, hstamp, Text.rows_append hc.getLast?, hc.rows]
  simp [Envelope.lines, Envelope.written, Text.Unbroken.nil.rows]

/-- The rows of a document: those of its texts, an empty one and those of the footer. -/
theorem rows_footer (world : World) (context : Context) {ts : List Text} (hne : ts ≠ [])
    (h : Text.Sealed ts) :
    (Text.ofLines ts ++ context.footer world).rows =
      ts.flatMap Text.rows ++ [] :: (context.footerBlock world).rows := by
  have he : (context.footerBlock world).getLast? ≠ some '\r' := by
    simp [Context.footerBlock, List.getLast?_append, List.getLast?_cons, TagForm.closeTag]
  have hs : Text.Sealed (ts ++ [[], context.footerBlock world]) :=
    h.append (.cons (by decide) (.cons he .nil))
  have hj : Text.ofLines ts ++ context.footer world =
      Text.ofLines (ts ++ [[], context.footerBlock world]) := by
    rw [Context.footer_eq, Text.ofLines_append hne (List.cons_ne_nil _ _)]
    rfl
  rw [hj, Text.rows_ofLines (by simp) hs, List.flatMap_append]
  simp [Text.Unbroken.nil.rows]

end MarkdownDirectives
