import MarkdownDirectives.Proofs.Composition
import MarkdownDirectives.Proofs.FixedPoint
import MarkdownDirectives.Proofs.LinkRuns
import MarkdownDirectives.Proofs.StaleBody
import MarkdownDirectives.Proofs.Wrapping

/-!
# The footer of a document

The footer is a text that a later parse has to find again as a discarded envelope. None of its inner
lines is a tag, so whether it is found depends on the text in front of it alone: it is exactly if
every envelope opened there is closed there. An envelope that is left open reaches into the footer
or over it. Only a literal envelope can be left open, as it stays as it was written; where those of
a document are closed and balance, each output has one footer, after any number of parses.
-/

namespace MarkdownDirectives

/-! ### An envelope at the end -/

/-- A text in front changes nothing about the envelopes before one of them. -/
theorem Fragment.exists_consText (t : Text) (fragments : List Fragment) (d : Directive)
    (more : List Fragment) :
    ∃ front, consText t (fragments ++ .directive d :: more) = front ++ .directive d :: more ∧
      ∀ d', .directive d' ∈ front → .directive d' ∈ fragments := by
  have hskip : ∀ {u : Text} {ds : List Fragment} {d' : Directive},
      .directive d' ∈ .text u :: ds → .directive d' ∈ ds := by simp
  cases fragments with
  | nil =>
    cases t with
    | nil => exact ⟨[], rfl, fun _ hd => hd⟩
    | cons c t => exact ⟨[.text (c :: t)], rfl, fun _ hd => hskip hd⟩
  | cons fragment fragments =>
    cases fragment with
    | text u =>
      exact ⟨.text (t ++ u) :: fragments, rfl, fun _ hd => List.mem_cons_of_mem _ (hskip hd)⟩
    | directive e =>
      cases t with
      | nil => exact ⟨.directive e :: fragments, rfl, fun _ hd => hd⟩
      | cons c t =>
        exact ⟨.text (c :: t) :: .directive e :: fragments, rfl, fun _ hd => hskip hd⟩

/-- The fragments that end in an envelope, when they come from blocks that do. -/
theorem Block.exists_gather_directive (front : List Block) (d : Directive) (more : List Block) :
    ∃ fragments, gather (front ++ .directive d :: more) =
        fragments ++ .directive d :: Fragment.consText (gap more) (gather more) ∧
      ∀ d', .directive d' ∈ fragments → .directive d' ∈ front := by
  induction front with
  | nil => exact ⟨[], rfl, fun _ hd => absurd hd List.not_mem_nil⟩
  | cons block front ih =>
    obtain ⟨fragments, hf, hmem⟩ := ih
    have hcons := fun t => Fragment.exists_consText (t ++ gap (front ++ .directive d :: more))
      fragments d (Fragment.consText (gap more) (gather more))
    cases block with
    | line t =>
      obtain ⟨fragments', hf', hmem'⟩ := hcons t
      refine ⟨fragments', ?_, fun d' hd => List.mem_cons_of_mem _ (hmem d' (hmem' d' hd))⟩
      rw [List.cons_append, gather, hf]
      exact hf'
    | directive e =>
      obtain ⟨fragments', hf', hmem'⟩ := hcons []
      refine ⟨.directive e :: fragments', ?_, fun d' hd => ?_⟩
      · rw [List.cons_append, gather, hf]
        exact congrArg (.directive e :: ·) hf'
      · rcases List.mem_cons.mp hd with he | hd
        · cases he
          exact List.mem_cons_self ..
        · exact List.mem_cons_of_mem _ (hmem d' (hmem' d' hd))

theorem TagForm.balancedClose?_blank (form : TagForm) (depth : Nat) :
    balancedClose? form depth [[]] = none := by
  obtain ⟨ho, hc⟩ := Bool.or_eq_false_iff.mp (form.isTag_of_isBlankLine Text.isBlankLine_nil)
  simp [balancedClose?, ho, hc]

/-- In strict mode each envelope ends within the lines. -/
theorem readsBefore_of_reject {number : Nat} {ls : List Text} {blocks : List Block}
    (h : blockLines .reject number 0 ls = .ok blocks) : ReadsBefore [] number ls blocks := by
  have hr := reads_of_blockLines h
  induction hr with
  | nil => exact .nil
  | line ht _ ih =>
    rw [blockLines_line ht] at h
    obtain ⟨rest, hrest, he⟩ := exists_of_map_eq_ok h
    cases he
    exact .line ht (ih hrest)
  | @closed number form expression opening body closing after blocks ho hcl hc _ ih =>
    rw [blockLines_closed ho hc] at h
    obtain ⟨rest, hrest, he⟩ := exists_of_map_eq_ok h
    cases he
    rw [← List.append_nil after] at hc
    exact .closed ho hcl hc (ih hrest)
  | unclosed ho hc =>
    rw [blockLines_reject ho hc] at h
    cases h

section

variable {front : List Text} {e : Envelope}

/-- An envelope without other tags stands at the end of lines as a block of its own exactly if the
lines in front of it can be split in strict mode. -/
theorem exists_readsBefore_iff (he : ∀ form : TagForm, form.Balanced e.lines) :
    (∃ first, ReadsBefore (e.lines ++ [[]]) 1 front first) ↔
      ∃ blocks, blockLines .reject 1 0 (front ++ [[]]) = .ok blocks := by
  constructor
  · rintro ⟨first, hr⟩
    have hblank : ReadsBefore [[]] 1 front first :=
      hr.congr fun form depth _ => form.balancedClose?_blank depth
    have hlast := @readsBefore_lines [[]] (by decide) [] (1 + front.length)
    exact ⟨_, (hblank.append hlast).blockLines_eq .reject⟩
  · rintro ⟨blocks, hb⟩
    obtain ⟨first, -, hr⟩ := (readsBefore_of_reject hb).of_concat_blank Text.isBlankLine_nil
    refine ⟨first, hr.congr fun form depth _ => ?_⟩
    rw [TagForm.balancedClose?_pass ((he form).openAfter_eq depth), form.balancedClose?_blank]
    rfl

theorem Envelope.feed_not_mem (e : Envelope) : ∀ line ∈ e.lines ++ [[]], '\n' ∉ line := by
  intro line hl
  rcases List.mem_append.mp hl with hl | hl
  · exact (e.unbroken line hl).1
  · rw [List.mem_singleton.mp hl]
    exact List.not_mem_nil

/-- What is read when the envelope is reached. -/
theorem ReadsBefore.split_ends {first : List Block}
    (h : ReadsBefore (e.lines ++ [[]]) 1 front first) (hn : ∀ line ∈ front, '\n' ∉ line)
    (mode : Unterminated) :
    split mode (Text.ofLines (front ++ (e.lines ++ [[]]))) =
      .ok (Block.gather (first ++ [.directive (e.directive (1 + front.length)), .line []])) := by
  have hlines : ∀ line ∈ front ++ (e.lines ++ [[]]), '\n' ∉ line := fun line hl =>
    (List.mem_append.mp hl).elim (hn line) (e.feed_not_mem line)
  have henv := readsBefore_envelope e.opens e.balanced e.closes [[]] (1 + front.length)
  have hblank : blockLines mode (1 + front.length + e.lines.length) 0 [[]] = .ok [.line []] := rfl
  rw [split_eq_gather, Text.lines_ofLines (by simp) hlines, h.blockLines_append mode]
  have hend := henv.blockLines_append mode
  rw [show (e.opening :: (e.body ++ [e.closing])) = e.lines from rfl, hblank] at hend
  rw [hend]
  rfl

theorem ofLines_append_eq (ls : List Text) {more : List Text} (h : more ≠ []) :
    Text.ofLines (ls ++ more) = terminateLines ls ++ Text.ofLines more := by
  induction ls with
  | nil => rfl
  | cons line ls ih =>
    have hj : Text.ofLines (line :: (ls ++ more)) = line ++ '\n' :: Text.ofLines (ls ++ more) :=
      Text.joinWith_cons (by simp [h])
    rw [List.cons_append, hj, ih]
    simp [terminateLines]

theorem Envelope.joined_found (fragments : List Fragment) (number : Nat) :
    Fragment.joined (fragments ++ [.directive (e.directive number), .text ['\n']]) =
      Fragment.joined fragments ++ Text.ofLines (e.lines ++ [[]]) := by
  have hlines : e.lines ≠ [] := List.cons_ne_nil _ _
  have hend : Text.ofLines (e.lines ++ [[]]) = Text.ofLines e.lines ++ ['\n'] :=
    Text.ofLines_append hlines (List.cons_ne_nil _ _)
  rw [hend, Fragment.joined, List.flatMap_append]
  rfl

/-- An envelope at the end is found there if it is reached. -/
theorem Envelope.found_iff (hn : ∀ line ∈ front, '\n' ∉ line) :
    (∃ fragments number, split .absorb (Text.ofLines (front ++ (e.lines ++ [[]]))) =
        .ok (fragments ++ [.directive (e.directive number), .text ['\n']])) ↔
      ∃ first, ReadsBefore (e.lines ++ [[]]) 1 front first := by
  constructor
  · rintro ⟨fragments, number, hs⟩
    have hsplitting := splitting_of_split hs
    have hline := (hsplitting.standsBetween fragments _ [.text ['\n']] rfl).line
    have hjoined := hsplitting.joined
    rw [e.joined_found, ofLines_append_eq front (by simp)] at hjoined
    rw [List.append_cancel_right hjoined, count_terminateLines hn] at hline
    rw [split_eq_gather, Text.lines_ofLines (by simp) fun line hl =>
      (List.mem_append.mp hl).elim (hn line) (e.feed_not_mem line)] at hs
    obtain ⟨blocks, hb, hg⟩ := exists_of_map_eq_ok hs
    have hd : Block.directive (e.directive number) ∈ blocks := by
      rw [← Block.mem_gather, hg]
      simp
    obtain ⟨before, rest, first, hsplit, hbefore, hr⟩ := (reads_of_blockLines hb).exists_before hd
    have hlength : front.length = before.length := by omega
    obtain ⟨rfl, rfl⟩ := List.append_inj hsplit hlength
    exact ⟨first, hr⟩
  · rintro ⟨first, hr⟩
    obtain ⟨fragments, hf, -⟩ :=
      Block.exists_gather_directive first (e.directive (1 + front.length)) [.line []]
    refine ⟨fragments, 1 + front.length, ?_⟩
    rw [hr.split_ends hn .absorb, hf]
    rfl

end

/-! ### The lines of the footer -/

theorem Alias.of_mem_isAlias {t : Text} (h : isAlias t = true) {c : Char} (hm : c ∈ t) :
    c = '-' ∨ isWordCharacter c = true := by
  rw [← Text.joinWith_splitOn '-' t] at hm
  rcases Text.mem_of_mem_joinWith hm with hc | ⟨word, hw, hc⟩
  · exact .inl hc
  · have hword := List.all_eq_true.mp h word hw
    rw [Bool.and_eq_true] at hword
    exact .inr (List.all_eq_true.mp hword.2 c hc)

theorem Alias.unbroken_of_isAlias {t : Text} (h : isAlias t = true) : t.Unbroken := by
  constructor
  · intro hn
    exact absurd (of_mem_isAlias h hn) (by decide)
  · intro hr
    exact absurd (of_mem_isAlias h hr) (by decide)

/-- The definition of a link without the line feed after it. -/
def LinkTable.definitionLine (link : Link) : Text :=
  '[' :: link.name ++ "]: ".toList ++ link.reference

theorem LinkTable.render_eq (table : LinkTable) :
    table.render = terminateLines (table.links.map definitionLine) := by
  rw [render, terminateLines, List.flatMap_map]
  rfl

namespace LinkTable

variable {link : Link}

/-- What stands in front of the reference. -/
def label (link : Link) : Text := '[' :: link.name ++ "]: ".toList

theorem definitionLine_eq_append (link : Link) :
    definitionLine link = label link ++ link.reference := rfl

theorem unbroken_label (h : Alias.isAlias link.name = true) : (label link).Unbroken := by
  obtain ⟨hn, hr⟩ := Alias.unbroken_of_isAlias h
  constructor <;> simpa [label]

theorem mem_definitionLine {c : Char} (h : c ∉ label link) :
    c ∈ definitionLine link ↔ c ∈ link.reference := by
  rw [definitionLine_eq_append, List.mem_append, or_iff_right h]

theorem feed_not_mem_definitionLine (h : Alias.isAlias link.name = true) :
    '\n' ∉ definitionLine link ↔ '\n' ∉ link.reference :=
  not_congr (mem_definitionLine (unbroken_label h).1)

theorem unbroken_definitionLine (h : Alias.isAlias link.name = true) :
    (definitionLine link).Unbroken ↔ link.reference.Unbroken :=
  and_congr (feed_not_mem_definitionLine h) (not_congr (mem_definitionLine (unbroken_label h).2))

theorem squeeze_definitions (links : List Link) (more : List Text) :
    Text.squeeze false (links.map definitionLine ++ more) =
      links.map definitionLine ++ Text.squeeze false more := by
  induction links with
  | nil => rfl
  | cons link links ih =>
    have hb : Text.isBlankLine (definitionLine link) = false := rfl
    rw [List.map_cons, List.cons_append, Text.squeeze_visible false _ hb, ih]
    rfl

end LinkTable

namespace Context

variable (world : World) (context : Context)

/-- The lines between the tags of the footer. -/
def footerLines : List Text :=
  context.links.links.map LinkTable.definitionLine ++
    [[], "---".toList, "Last Updated: ".toList ++ context.timestamp world]

theorem squeeze_footerLines :
    Text.squeeze false (context.footerLines world) = context.footerLines world := by
  rw [footerLines, LinkTable.squeeze_definitions]
  rfl

theorem footerBlock_eq_ofLines : context.footerBlock world =
    Text.ofLines (TagForm.raw.openTag discardMark ::
      (context.footerLines world ++ [TagForm.raw.closeTag, []])) := by
  have hlines : TagForm.raw.openTag discardMark ::
      (context.footerLines world ++ [TagForm.raw.closeTag, []]) =
        (TagForm.raw.openTag discardMark ::
          (context.footerLines world ++ [TagForm.raw.closeTag])) ++ [[]] := by simp
  rw [hlines, ofLines_concat, footerBlock, LinkTable.render_eq]
  simp [terminateLines, footerLines]

/-- The footer as an envelope, found on the line `number`. -/
def footerDirective (number : Nat) : Directive :=
  TagForm.raw.wrapped discardMark ('\n' :: terminateLines (context.footerLines world)) number

/-- Neither the stamp nor a reference has a line break. -/
structure PlainFooter : Prop where
  stamp : (context.timestamp world).Unbroken
  references : ∀ link ∈ context.links.links, link.reference.Unbroken

variable {world context}

theorem rows_footerBlock_of_sealed (h : Text.Sealed (context.footerLines world)) :
    (context.footerBlock world).rows = TagForm.raw.openTag discardMark ::
      ((context.footerLines world).flatMap Text.rows ++ [TagForm.raw.closeTag, []]) := by
  have hclose : Text.Sealed [TagForm.raw.closeTag, []] :=
    .cons (by decide) (.cons (by decide) .nil)
  rw [footerBlock_eq_ofLines, Text.rows_ofLines (by simp) (.cons (by decide) (h.append hclose)),
    List.flatMap_cons, List.flatMap_append]
  rfl

/-- The lines after the block are no tags. -/
theorem of_mem_stampLines (h : (context.timestamp world).Unbroken) {line : Text}
    (hl : line ∈ [[], "---".toList, "Last Updated: ".toList ++ context.timestamp world]) :
    line.Unbroken ∧ ∀ form : TagForm, form.isTag line = false := by
  simp only [List.mem_cons, List.not_mem_nil, or_false] at hl
  rcases hl with rfl | rfl | rfl
  · exact ⟨.nil, fun form => TagForm.isTag_of_isBlankLine rfl⟩
  · exact ⟨by decide, fun form => TagForm.isTag_cons (by decide) _⟩
  · obtain ⟨hn, hr⟩ := h
    refine ⟨?_, fun form => TagForm.isTag_cons (by decide) _⟩
    constructor <;> simpa

theorem PlainFooter.of_mem (h : context.PlainFooter world) {line : Text}
    (hl : line ∈ context.footerLines world) :
    line.Unbroken ∧ ∀ form : TagForm, form.isTag line = false := by
  rcases List.mem_append.mp hl with hl | hl
  · obtain ⟨link, hlink, rfl⟩ := List.mem_map.mp hl
    have hname := context.links.isAlias_name hlink
    exact ⟨(LinkTable.unbroken_definitionLine hname).mpr (h.references link hlink),
      fun form => TagForm.isTag_cons (by decide) _⟩
  · exact of_mem_stampLines h.stamp hl

theorem PlainFooter.openAfter (h : context.PlainFooter world) (form : TagForm) (depth : Nat) :
    form.openAfter depth (context.footerLines world) = some depth :=
  TagForm.openAfter_untagged (fun _ hl => (h.of_mem hl).2 form) depth

/-- The footer between its tags. -/
def PlainFooter.envelope (h : context.PlainFooter world) : Envelope :=
  .written .raw discardMark (context.footerLines world) (by decide) (by decide) (h.openAfter .raw 0)
    fun _ hl => (h.of_mem hl).1

namespace PlainFooter

variable (h : context.PlainFooter world)

theorem directive_envelope (number : Nat) :
    h.envelope.directive number = context.footerDirective world number :=
  TagForm.ofLines_eq_wrapped .raw discardMark (context.footerLines world) number

theorem balanced_lines (form : TagForm) : form.Balanced h.envelope.lines := by
  have hlines : h.envelope.lines = TagForm.raw.openTag discardMark ::
      (context.footerLines world ++ [TagForm.raw.closeTag]) := rfl
  rw [hlines, TagForm.Balanced]
  cases form with
  | raw =>
    have ho : ∀ more, TagForm.raw.openAfter 0 (TagForm.raw.openTag discardMark :: more) =
        TagForm.raw.openAfter 1 more := fun more => rfl
    rw [ho, TagForm.openAfter_append, h.openAfter]
    rfl
  | commented =>
    rw [TagForm.openAfter_skip (by decide), TagForm.openAfter_append, h.openAfter]
    rfl

theorem squeeze_envelope : h.envelope.squeeze.lines = h.envelope.lines := by
  rw [Envelope.lines, Envelope.squeeze]
  simp only [envelope, Envelope.written, squeeze_footerLines, Envelope.lines]

theorem rows_footerBlock : (context.footerBlock world).rows = h.envelope.lines ++ [[]] := by
  have hunbroken : ∀ line ∈ context.footerLines world, line.Unbroken := fun line hl =>
    (h.of_mem hl).1
  rw [rows_footerBlock_of_sealed fun line hl => (hunbroken line hl).getLast?,
    Text.flatMap_rows hunbroken]
  simp [Envelope.lines, envelope, Envelope.written]

/-- The footer stands at the end of the output as it is, whatever is written in front of it. -/
theorem output_eq {texts : List Text} (hne : texts ≠ []) (hs : Text.Sealed texts) :
    context.output world texts = Text.ofLines
      (Text.normalizeFront (texts.flatMap Text.rows ++ [[]]) ++ (h.envelope.lines ++ [[]])) := by
  have hassoc : texts.flatMap Text.rows ++ [] :: (h.envelope.lines ++ [[]]) =
      (texts.flatMap Text.rows ++ [[]]) ++ (h.envelope.lines ++ [[]]) := by simp
  have hout := lines_output hne hs h.rows_footerBlock
  rw [hassoc, Text.normalizeFront_append (by simp), h.envelope.squeeze_lines,
    h.squeeze_envelope] at hout
  rw [← Text.ofLines_lines (context.output world texts), hout]
  rfl

end PlainFooter

end Context

/-! ### The envelopes of a page -/

namespace Page

variable {page : Page} {e : Envelope} {d : Directive}

theorem of_mem_squeeze {b : Bool} (h : .envelope e ∈ page.squeeze b) :
    ∃ e', .envelope e' ∈ page ∧ e.expression = e'.expression := by
  fun_induction squeeze b page with
  | case1 => exact absurd h List.not_mem_nil
  | case2 t outside unbroken more hb ih =>
    obtain ⟨e', he, hx⟩ := ih h
    exact ⟨e', List.mem_cons_of_mem _ he, hx⟩
  | case3 b t outside unbroken more hb hn ih =>
    have hm : .envelope e ∈ squeeze true more := by simpa [Piece.blank] using h
    obtain ⟨e', he, hx⟩ := ih hm
    exact ⟨e', List.mem_cons_of_mem _ he, hx⟩
  | case4 b t outside unbroken more hb ih =>
    have hm : .envelope e ∈ squeeze false more := by simpa using h
    obtain ⟨e', he, hx⟩ := ih hm
    exact ⟨e', List.mem_cons_of_mem _ he, hx⟩
  | case5 b e₀ more ih =>
    rcases List.mem_cons.mp h with he | hm
    · cases he
      exact ⟨e₀, List.mem_cons_self .., rfl⟩
    · obtain ⟨e', he, hx⟩ := ih hm
      exact ⟨e', List.mem_cons_of_mem _ he, hx⟩

theorem of_mem_normalize (h : .envelope e ∈ page.normalize) :
    ∃ e', .envelope e' ∈ page ∧ e.expression = e'.expression := by
  cases page with
  | nil => exact of_mem_squeeze (b := false) h
  | cons piece more =>
    cases piece with
    | envelope _ => exact of_mem_squeeze (b := false) h
    | line t outside unbroken =>
      have hm : .envelope e ∈ squeeze false more := by simpa [normalize] using h
      obtain ⟨e', he, hx⟩ := of_mem_squeeze hm
      exact ⟨e', List.mem_cons_of_mem _ he, hx⟩

theorem of_mem_blocks {number : Nat} (h : .directive d ∈ page.blocks number) :
    ∃ e number, .envelope e ∈ page ∧ d = e.directive number := by
  induction page generalizing number with
  | nil => exact absurd h List.not_mem_nil
  | cons piece more ih =>
    rcases List.mem_cons.mp h with he | hm
    · cases piece with
      | line t outside unbroken => cases he
      | envelope e =>
        cases he
        exact ⟨e, number, List.mem_cons_self .., rfl⟩
    · obtain ⟨e, n, he, hd⟩ := ih hm
      exact ⟨e, n, List.mem_cons_of_mem _ he, hd⟩

end Page

/-! ### Parsing again and again -/

/-- Literal envelopes are closed, and their own tags balance. -/
def Text.LiteralsClosed (t : Text) : Prop :=
  ∀ fragments, split .absorb t.normalizeLineBreaks = .ok fragments →
    ∀ d, .directive d ∈ fragments → d.isLiteral = true →
      d.isTerminated = true ∧ d.form.Balanced d.body.lines

/-- The text ends in the footer of the context, and splitting finds it there. -/
def Context.EndsInFooter (world : World) (context : Context) (t : Text) : Prop :=
  ∃ fragments number, split .absorb t =
    .ok (fragments ++ [.directive (context.footerDirective world number), .text ['\n']])

/-- One envelope of the text is discarded, a closed one at its end. -/
def Text.OneFooter (t : Text) : Prop :=
  ∃ fragments d, split .absorb t = .ok (fragments ++ [.directive d, .text ['\n']]) ∧
    d.isDiscard = true ∧ d.isTerminated = true ∧
    ∀ d', .directive d' ∈ fragments → d'.isDiscard = false

/-- A lenient parse with a fixed stamp in which neither the stamp nor a reference has a line break
and no generated body has a tag. -/
structure PlainParse (world : World) (source : Text) (context : Context) : Prop where
  lenient : context.options.unterminated = .absorb
  stamp : ∃ stamp, context.options.timestamp = some stamp ∧ stamp.Unbroken
  references : ∀ link ∈ (parse world source context).2.links.links, link.reference.Unbroken
  bodies : ∀ fragments, split .absorb source.normalizeLineBreaks = .ok fragments →
    ∀ p ∈ evaluations world (parsePart world) fragments context, ∀ form,
      (generatedBody world (parsePart world) p.1.expression p.2).1.Untagged form

/-- A text and the output of a lenient parse of it. -/
def RootParse (source output : Text) : Prop :=
  ∃ world context, PlainParse world source context ∧
    (parse world source context).1 = .ok output

section

variable {world : World} {source output : Text} {context : Context}

/-- A lenient parse succeeds, and its output is that of texts that were rendered. -/
theorem PlainParse.exists_output (h : PlainParse world source context) :
    ∃ blocks texts after,
      blockLines .absorb 1 0 source.normalizeLineBreaks.lines = .ok blocks ∧
      renderBlocks world (parsePart world) blocks context = (texts, after) ∧
      parse world source context = (.ok (after.output world texts), after) ∧
      after.PlainFooter world ∧ texts ≠ [] ∧ Text.Sealed texts := by
  obtain ⟨blocks, hb⟩ := exists_blockLines_absorb 1 0 source.normalizeLineBreaks.lines
  rcases hr : renderBlocks world (parsePart world) blocks context with ⟨texts, after⟩
  have hp : parse world source context = (.ok (after.output world texts), after) := by
    have hb' := hb
    rw [← h.lenient] at hb'
    rw [parse_eq, render_of_blocks hb', hr]
    rfl
  have hsealed := (reads_of_blockLines hb).sealed fun line hl => Text.unbroken_of_mem_normalized hl
  have hg : context.GrowsTo after := (parse_framed world source).growsTo hp
  obtain ⟨stamp, hs, hu⟩ := h.stamp
  have hfooter : after.PlainFooter world := by
    refine ⟨?_, fun link hl => h.references link ?_⟩
    · rw [Context.timestamp, hg.options, hs, Option.getD_some]
      exact hu
    · rw [hp]
      exact hl
  refine ⟨blocks, texts, after, hb, hr, hp, hfooter, ?_, ?_⟩
  · have hne := @renderBlocks_ne_nil world (parsePart world) blocks (blockLines_ne_nil hb) context
    rwa [hr] at hne
  · have hrs := @renderBlocks_sealed world (parsePart world) blocks hsealed context
    rwa [hr] at hrs

/-- What is written in front of the footer, in lines. -/
def frontLines (texts : List Text) : List Text :=
  Text.normalizeFront (texts.flatMap Text.rows ++ [[]])

theorem feed_not_mem_frontLines (texts : List Text) : ∀ line ∈ frontLines texts, '\n' ∉ line := by
  intro line hl
  rcases Text.mem_of_mem_normalizeFront hl with rfl | hl
  · exact List.not_mem_nil
  · rcases List.mem_append.mp hl with hl | hl
    · obtain ⟨t, -, hrow⟩ := List.mem_flatMap.mp hl
      exact (Text.unbroken_of_mem_rows hrow).1
    · rw [List.mem_singleton.mp hl]
      exact List.not_mem_nil

theorem endsInFooter_iff (h : context.PlainFooter world) {texts : List Text} (hne : texts ≠ [])
    (hs : Text.Sealed texts) :
    context.EndsInFooter world (context.output world texts) ↔
      ∃ fragments, split .reject (terminateLines (frontLines texts)) = .ok fragments := by
  have hfeed := feed_not_mem_frontLines texts
  have hfound := @Envelope.found_iff (frontLines texts) h.envelope hfeed
  have hread := @exists_readsBefore_iff (frontLines texts) h.envelope h.balanced_lines
  simp only [h.directive_envelope] at hfound
  rw [Context.EndsInFooter, h.output_eq hne hs, ← frontLines, hfound, hread, split_eq_gather,
    lines_terminateLines hfeed]
  constructor
  · rintro ⟨blocks, hb⟩
    exact ⟨_, by rw [hb]; rfl⟩
  · rintro ⟨fragments, hf⟩
    obtain ⟨blocks, hb, -⟩ := exists_of_map_eq_ok hf
    exact ⟨blocks, hb⟩

/-- Where literal envelopes are closed, the output ends in the footer and has no other discarded
envelope, and its envelopes are closed and balance. -/
theorem PlainParse.exists_footer (h : PlainParse world source context) (hc : source.LiteralsClosed)
    {after : Context} (hp : parse world source context = (.ok output, after)) :
    ∃ fragments number, split .absorb output =
        .ok (fragments ++ [.directive (after.footerDirective world number), .text ['\n']]) ∧
      ∀ d, .directive d ∈ fragments →
        d.isDiscard = false ∧ d.isTerminated = true ∧ d.form.Balanced d.body.lines := by
  obtain ⟨blocks, texts, after', hb, hr, hp', hfooter, hne, hsealed⟩ := h.exists_output
  obtain ⟨ho, rfl⟩ := Prod.mk.inj (hp.symm.trans hp')
  cases ho
  have hsplit := split_of_blockLines hb
  obtain ⟨p⟩ : Nonempty (RenderedPage world (parsePart world) (· ≠ discardMark) context texts
      after) := by
    refine exists_page hr
      (blockLines_ofLines hb fun line hl => Text.unbroken_of_mem_normalized hl)
      (fun d hd => hc _ hsplit d (Block.mem_gather.mpr hd)) ?_
      fun d _ hx => beq_eq_false_iff_ne.mp hx
    intro q hq
    exact TagForm.openAfter_untagged (h.bodies _ hsplit q hq q.1.form) 0
  have hlines : (Page.normalize (p.page ++ [.blank])).lines = frontLines texts := by
    have happ : Page.lines (p.page ++ [.blank]) = p.page.lines ++ [[]] := List.flatMap_append
    rw [Page.lines_normalize, happ, p.lines, frontLines]
  have hread := (Page.normalize (p.page ++ [.blank])).readsBefore
    (hfooter.envelope.lines ++ [[]]) 1
  rw [hlines] at hread
  have hout := hread.split_ends (feed_not_mem_frontLines texts) .absorb
  obtain ⟨fragments, hf, hmem⟩ := Block.exists_gather_directive
    ((Page.normalize (p.page ++ [.blank])).blocks 1)
    (hfooter.envelope.directive (1 + (frontLines texts).length)) [.line []]
  refine ⟨fragments, 1 + (frontLines texts).length, ?_, fun d hd => ?_⟩
  · rw [hfooter.output_eq hne hsealed, ← frontLines, hout, hf, hfooter.directive_envelope]
    rfl
  · obtain ⟨e, number, he, rfl⟩ := Page.of_mem_blocks (hmem d hd)
    obtain ⟨e', he', hx⟩ := Page.of_mem_normalize he
    have hpage : .envelope e' ∈ p.page := by
      rcases List.mem_append.mp he' with hm | hm
      · exact hm
      · cases List.mem_singleton.mp hm
    refine ⟨?_, rfl, ?_⟩
    · have hexp : (e.directive number).expression = e'.expression := hx
      rw [Directive.isDiscard, hexp]
      exact beq_eq_false_iff_ne.mpr (p.expressions e' hpage)
    · exact (balanced_body fun line hl => (e.unbroken line (by simp [hl])).1).mpr e.balanced

theorem PlainParse.normalized (h : PlainParse world source context) {after : Context}
    (hp : parse world source context = (.ok output, after)) :
    output.normalizeLineBreaks = output := by
  obtain ⟨-, texts, after', -, -, hp', -⟩ := h.exists_output
  obtain ⟨ho, -⟩ := Prod.mk.inj (hp.symm.trans hp')
  cases ho
  exact Text.normalizeLineBreaks_idem _

theorem RootParse.oneFooter (h : RootParse source output) (hc : source.LiteralsClosed) :
    output.OneFooter ∧ output.LiteralsClosed := by
  obtain ⟨world, context, h, ho⟩ := h
  have hp : parse world source context = (.ok output, (parse world source context).2) := by
    rw [← ho, Prod.eta]
  obtain ⟨fragments, number, hs, hall⟩ := h.exists_footer hc hp
  refine ⟨⟨fragments, _, hs, rfl, rfl, fun d hd => (hall d hd).1⟩, ?_⟩
  intro fragments' hs' d hd hl
  rw [h.normalized hp, hs] at hs'
  cases hs'
  rcases List.mem_append.mp hd with hd | hd
  · exact (hall d hd).2
  · simp only [List.mem_cons, Fragment.directive.injEq, reduceCtorEq, List.not_mem_nil,
      or_false] at hd
    rw [hd] at hl
    cases hl

/-- However often a document is parsed, its last output has one footer. -/
theorem oneFooter_of_parses (h : Relation.ReflTransGen RootParse source output)
    (hf : source.OneFooter) (hc : source.LiteralsClosed) :
    output.OneFooter ∧ output.LiteralsClosed := by
  induction h with
  | refl => exact ⟨hf, hc⟩
  | tail _ hstep ih => exact hstep.oneFooter ih.2

theorem renderFragments_append {nested : Text → Eval Text} (first more : List Fragment)
    (context : Context) :
    renderFragments world nested (first ++ more) context =
      let before := renderFragments world nested first context
      let after := renderFragments world nested more before.2
      (before.1 ++ after.1, after.2) := by
  induction first generalizing context with
  | nil => rfl
  | cons fragment first ih =>
    simp only [List.cons_append, renderFragments_cons, ih, List.append_assoc]

/-- A footer that is found goes away when the text is parsed again. -/
theorem Context.EndsInFooter.parse_eq (h : context.EndsInFooter world output) {front : Text}
    (ho : output = front ++ (context.footerDirective world 0).source ++ ['\n'])
    (hnormal : output.normalizeLineBreaks = output) (world' : World) {start : Context}
    (hmode : start.options.unterminated = .absorb) :
    ∃ fragments, Fragment.joined fragments = front ∧
      let rendered := renderFragments world' (parsePart world') fragments start
      parse world' output start =
        (.ok (Text.normalizeLineBreaks
          (rendered.1 ++ '\n' :: '\n' :: rendered.2.footer world')), rendered.2) := by
  obtain ⟨fragments, number, hs⟩ := h
  refine ⟨fragments, ?_, ?_⟩
  · have hj := (splitting_of_split hs).joined
    rw [ho, Fragment.joined, List.flatMap_append, List.append_assoc] at hj
    exact List.append_cancel_right hj
  · have hs' : split start.options.unterminated output.normalizeLineBreaks =
        .ok (fragments ++ [.directive (context.footerDirective world number), .text ['\n']]) := by
      rw [hmode, hnormal, hs]
    rw [MarkdownDirectives.parse_eq, render_of_ok hs', renderFragments_append]
    have hdiscard : ∀ c, renderFragments world' (parsePart world')
        [.directive (context.footerDirective world number), .text ['\n']] c =
          (['\n', '\n'], c) := fun c => rfl
    simp only [hdiscard, List.append_assoc]
    rfl

/-- In the output of a lenient parse the footer comes last, and splitting finds it there exactly if
each envelope opened in front of it is closed in front of it. A later parse then removes it before
it adds its own. This is so if the literal envelopes of the source are closed and balance, and then
no document has two footers after any number of parses. -/
theorem PlainParse.footer (h : PlainParse world source context) :
    ∃ output after front, parse world source context = (.ok output, after) ∧
      output = front ++ (after.footerDirective world 0).source ++ ['\n'] ∧ front.EndsLine ∧
      (after.EndsInFooter world output ↔ ∃ fragments, split .reject front = .ok fragments) ∧
      (after.EndsInFooter world output → ∀ world' start,
        start.options.unterminated = .absorb →
        ∃ fragments, Fragment.joined fragments = front ∧
          let rendered := renderFragments world' (parsePart world') fragments start
          parse world' output start =
            (.ok (Text.normalizeLineBreaks
              (rendered.1 ++ '\n' :: '\n' :: rendered.2.footer world')), rendered.2)) ∧
      (source.LiteralsClosed → after.EndsInFooter world output ∧
        ∀ later, Relation.ReflTransGen RootParse output later → later.OneFooter) := by
  obtain ⟨blocks, texts, after, -, -, hp, hfooter, hne, hsealed⟩ := h.exists_output
  have hout : after.output world texts =
      terminateLines (frontLines texts) ++ (after.footerDirective world 0).source ++ ['\n'] := by
    have hlines : hfooter.envelope.lines ≠ [] := List.cons_ne_nil _ _
    rw [hfooter.output_eq hne hsealed, ofLines_append_eq _ (by simp),
      Text.ofLines_append hlines (List.cons_ne_nil _ _), ← hfooter.directive_envelope,
      List.append_assoc]
    rfl
  have hends : Text.EndsLine (terminateLines (frontLines texts)) := by
    rcases List.eq_nil_or_concat' (frontLines texts) with hf | ⟨front, last, hf⟩
    · rw [hf]
      exact .inl rfl
    · rw [hf, terminateLines, List.flatMap_append]
      exact .inr (by simp)
  have hroot : RootParse source (after.output world texts) := ⟨world, context, h, by rw [hp]⟩
  refine ⟨_, after, _, hp, hout, hends, endsInFooter_iff hfooter hne hsealed, ?_, ?_⟩
  · exact fun hfound world' start hmode => hfound.parse_eq hout (h.normalized hp) world' hmode
  · intro hc
    obtain ⟨fragments, number, hs, -⟩ := h.exists_footer hc hp
    obtain ⟨hone, hclosed⟩ := hroot.oneFooter hc
    exact ⟨⟨fragments, number, hs⟩, fun later hl => (oneFooter_of_parses hl hone hclosed).1⟩

end

/-! ### A closed literal envelope and an open one -/

theorem aliasSource_plain : PlainParse aliasWorld aliasSource aliasContext where
  lenient := rfl
  stamp := ⟨"now".toList, rfl, by decide⟩
  references := by decide +kernel
  bodies := by
    intro fragments hf
    have hs : split .absorb aliasSource.normalizeLineBreaks = .ok aliasFragments :=
      split_aliasSource
    rw [hs] at hf
    cases hf
    have hall : ∀ form ∈ [TagForm.raw, .commented],
        ∀ p ∈ evaluations aliasWorld (parsePart aliasWorld) aliasFragments aliasContext,
          Text.Untagged form
            (generatedBody aliasWorld (parsePart aliasWorld) p.1.expression p.2).1 := by
      decide +kernel
    intro p hp form
    exact hall form (by cases form <;> decide) p hp

theorem footer_aliasSource :
    PlainParse aliasWorld aliasSource aliasContext ∧ aliasSource.LiteralsClosed ∧
      ∃ output after, parse aliasWorld aliasSource aliasContext = (.ok output, after) ∧
        after.EndsInFooter aliasWorld output ∧
        ∀ later, Relation.ReflTransGen RootParse output later → later.OneFooter := by
  obtain ⟨output, after, -, hp, -, -, -, -, hclosed⟩ := aliasSource_plain.footer
  have hc : aliasSource.LiteralsClosed := aliasSource_reparsable.literals
  exact ⟨aliasSource_plain, hc, output, after, hp, hclosed hc⟩

/-- A literal envelope without a closing tag. -/
def openLiteral : Text := "<? ?>\nx".toList

theorem openLiteral_plain : PlainParse emptyWorld openLiteral stampedContext where
  lenient := rfl
  stamp := ⟨['T'], rfl, by decide⟩
  references := by decide +kernel
  bodies := by
    intro fragments hf
    have hs : split .absorb openLiteral.normalizeLineBreaks =
        .ok [.directive ⟨openLiteral, [], "\nx".toList, .raw, 1, false⟩] := by
      decide +kernel
    rw [hs] at hf
    cases hf
    intro p hp
    exact absurd hp List.not_mem_nil

def plainFooter : Text := "\n\n<? ! ?>\n\n---\nLast Updated: T\n<?!>\n".toList

/-- The footer of the first output closes the envelope and is not found, so the second output has
two footers. -/
theorem openLiteral_footers :
    PlainParse emptyWorld openLiteral stampedContext ∧
      (parse emptyWorld openLiteral stampedContext).1 = .ok (openLiteral ++ plainFooter) ∧
      ¬ (parse emptyWorld openLiteral stampedContext).2.EndsInFooter emptyWorld
        (openLiteral ++ plainFooter) ∧
      (parse emptyWorld (openLiteral ++ plainFooter) stampedContext).1 =
        .ok (openLiteral ++ plainFooter ++ plainFooter.tail) := by
  refine ⟨openLiteral_plain, by decide +kernel, ?_, by decide +kernel⟩
  rintro ⟨fragments, number, hs⟩
  have hsplit : split .absorb (openLiteral ++ plainFooter) =
      .ok ([] ++ [.directive ⟨openLiteral ++ plainFooter.dropLast, [],
        "\nx\n\n<? ! ?>\n\n---\nLast Updated: T\n".toList, .raw, 1, true⟩, .text ['\n']]) := by
    decide +kernel
  rw [hsplit] at hs
  obtain ⟨-, hlast⟩ := List.append_inj' (Except.ok.inj hs) rfl
  have hx : [] = discardMark :=
    congrArg Directive.expression (Fragment.directive.inj (List.cons.inj hlast).1)
  exact absurd hx (by decide)

end MarkdownDirectives
