import MarkdownDirectives.Proofs.Splitting

/-!
# Stale bodies

The body of an envelope with an expression is replaced when a document is parsed, so the output does
not depend on it. What has to be shown is that the body cannot move the ends of other envelopes. Its
own tags of the form balance, so the envelope itself ends where it did. The tags of the other form
in it may still close an envelope that starts further up, and then the body is part of that one;
this is the case exactly when splitting does not find the envelope.
-/

namespace MarkdownDirectives

/-- A text with a place for the body of one envelope. -/
structure Slot where
  front : Text
  opening : Text
  closing : Text
  rest : Text
  form : TagForm
  expression : Text
  nonempty : expression ≠ []
  opens : form.IsOpening expression opening
  closes : form.IsClosing closing
  endsLine : front.EndsLine
  startsBreak : rest.StartsBreak
  unbroken : opening.Unbroken
  unreturned : '\r' ∉ front ∧ '\r' ∉ rest

namespace Slot

def fill (s : Slot) (body : Text) : Text := s.front ++ (s.opening ++ body ++ s.closing) ++ s.rest

/-- What is asked of a body: it stands on lines of its own, and its tags of the form balance. -/
structure Fits (s : Slot) (body : Text) : Prop where
  first : body.head? = some '\n'
  last : body.getLast? = some '\n'
  balanced : s.form.Balanced body.lines
  unreturned : '\r' ∉ body

/-- Splitting the normalized text gives the envelope as a fragment, after those of the front. -/
def Found (s : Slot) (body : Text) : Prop :=
  ∃ mode before d after, split mode (s.fill body).normalizeLineBreaks =
    .ok (before ++ .directive d :: after) ∧ Fragment.joined before = s.front.normalizeLineBreaks

end Slot

/-! ### The lines of a filled slot -/

theorem TagForm.IsClosing.unbroken {form : TagForm} {line : Text} (h : form.IsClosing line) :
    line.Unbroken := by
  obtain ⟨after, ha, rfl⟩ := h
  have hspace : ∀ c, Text.isSpace c = false → c ∉ after := fun c hc hm => by
    rw [ha c hm] at hc
    cases hc
  have hn : '\n' ∉ after := hspace '\n' rfl
  have hr : '\r' ∉ after := hspace '\r' rfl
  constructor <;> cases form <;> simp [closeTag, hn, hr]

namespace Slot

/-- The normalized lines around the body do not depend on it, and its tags stay as they were. -/
theorem exists_lines (s : Slot) :
    ∃ before after, s.front.normalizeLineBreaks = terminateLines before ∧
      (∀ line ∈ before, '\n' ∉ line) ∧ ∀ body, s.Fits body →
        ∃ ls, (s.fill body).normalizeLineBreaks.lines =
            before ++ s.opening :: (ls ++ s.closing :: after) ∧
          ∀ form, TagForm.Balanced form body.lines → TagForm.Balanced form ls := by
  obtain ⟨front, hfront, hfn⟩ := s.endsLine.exists_lines
  have hvo : Text.isBlankLine s.opening = false :=
    not_isBlankLine_of_openingTag? (openingTag?_eq_some_iff.mpr s.opens)
  have hvc : Text.isBlankLine s.closing = false :=
    TagForm.not_isBlankLine_of_closes (TagForm.closes_iff.mpr s.closes)
  refine ⟨Text.normalizeFront front, Text.squeezeBlankLines false s.rest.lines.tail, ?_, ?_, ?_⟩
  · have hrows : s.front.rows = front ++ [[]] := by
      rw [Text.rows_of_not_mem s.unreturned.1, hfront, lines_terminateLines hfn]
    exact normalizeLineBreaks_eq_terminateLines hrows
  · intro line hl
    rcases Text.mem_of_mem_normalizeFront hl with rfl | hm
    · exact List.not_mem_nil
    · exact hfn line hm
  · intro body h
    obtain ⟨ls, rfl, hls⟩ := Text.exists_body_lines h.first h.last
    have hreturn : '\r' ∉ s.fill ('\n' :: terminateLines ls) := by
      have hb := h.unreturned
      simp [fill, s.unreturned, s.unbroken.2, s.closes.unbroken.2] at hb ⊢
      exact hb
    refine ⟨Text.squeeze false ls, ?_, ?_⟩
    · have hlines : (s.fill ('\n' :: terminateLines ls)).lines =
          front ++ s.opening :: (ls ++ s.closing :: s.rest.lines.tail) := by
        rw [fill, hfront]
        exact Text.lines_envelope hfn s.unbroken.1 hls s.closes.unbroken.1 s.startsBreak
      rw [Text.lines_normalizeLineBreaks, Text.rows_of_not_mem hreturn, hlines,
        Text.normalizeLines_visible front _ hvo,
        Text.squeezeBlankLines_append false ls (List.cons_ne_nil _ _),
        Text.squeezeBlankLines_visible _ _ hvc]
    · intro form hb
      exact (TagForm.openAfter_squeeze false 0 ls).trans ((balanced_body hls).mp hb)

/-- An envelope that is found starts where the lines in front of it have been read. -/
theorem Found.readsBefore {s : Slot} {body : Text} {before more : List Text} (h : s.Found body)
    (hf : s.front.normalizeLineBreaks = terminateLines before)
    (hn : ∀ line ∈ before, '\n' ∉ line)
    (hl : (s.fill body).normalizeLineBreaks.lines = before ++ more) :
    ∃ first, ReadsBefore more 1 before first := by
  obtain ⟨mode, fragments, d, after, hs, hj⟩ := h
  rw [split_eq_gather] at hs
  obtain ⟨blocks, hb, hg⟩ := exists_of_map_eq_ok hs
  have hr := reads_of_blockLines hb
  have hline := (hr.standsBetween (fun line hm => Text.not_mem_of_mem_lines hm) hg).line
  rw [hj, hf, count_terminateLines hn] at hline
  have hd : Block.directive d ∈ blocks := by
    refine Block.mem_gather.mp ?_
    rw [hg]
    simp
  obtain ⟨before', rest, first, hls, hline', hread⟩ := hr.exists_before hd
  have hlen : before.length = before'.length := by omega
  rw [hl] at hls
  obtain ⟨rfl, rfl⟩ := List.append_inj hls hlen
  exact ⟨first, hread⟩

end Slot

/-! ### Replacing the body -/

section

variable {world : World} {nested : Text → Eval Text}

/-- Both give the same text or both fail, and they leave the same context. -/
def SameOutcome (x y : Except Error Text × Context) : Prop :=
  x.1.toOption = y.1.toOption ∧ x.2 = y.2

theorem SameOutcome.refl (x : Except Error Text × Context) : SameOutcome x x := ⟨rfl, rfl⟩

theorem SameOutcome.within {x y : Eval Text} {context : Context} {enter leave : Context → Context}
    (h : SameOutcome (x (enter context)) (y (enter context))) :
    SameOutcome (Eval.within enter leave x context) (Eval.within enter leave y context) :=
  ⟨h.1, congrArg leave h.2⟩

/-- Blocks that differ in one envelope, which is rendered to the same, and in line numbers. -/
theorem renderBlocks_replaced {d d' : Directive}
    (h : renderDirective world nested d = renderDirective world nested d')
    (first more : List Block) (lines lines' : Nat) (context : Context) :
    renderBlocks world nested (first ++ .directive d :: more.map (Block.shift lines)) context =
      renderBlocks world nested (first ++ .directive d' :: more.map (Block.shift lines'))
        context := by
  have hb : renderBlock world nested (.directive d) = renderBlock world nested (.directive d') := h
  simp only [renderBlocks_append, renderBlocks_cons, renderBlocks_shift, hb]

/-- What an envelope with an expression is rendered to does not depend on its body. -/
theorem renderDirective_ofLines {form : TagForm} {expression : Text} (h : expression ≠ [])
    (number : Nat) (opening closing : Text) (body body' : List Text) :
    renderDirective world nested (.ofLines form expression number opening body closing) =
      renderDirective world nested (.ofLines form expression number opening body' closing) := by
  have hl : ∀ body,
      (Directive.ofLines form expression number opening body closing).isLiteral = false :=
    fun _ => List.isEmpty_eq_false_iff.mpr h
  simp only [renderDirective, hl]
  rfl

/-- The lines in front of a slot are read first, then its envelope, and then the lines after it. -/
theorem Slot.blockLines_fill {s : Slot} {before ls after : List Text} {first : List Block}
    (hr : ReadsBefore (s.opening :: (ls ++ s.closing :: after)) 1 before first)
    (hb : s.form.Balanced ls) (mode : Unterminated) :
    ∃ lines, blockLines mode 1 0 (before ++ s.opening :: (ls ++ s.closing :: after)) =
      ((blockLines mode 0 0 after).mapError (Error.shift lines)).map fun more =>
        first ++
          .directive (.ofLines s.form s.expression (1 + before.length) s.opening ls s.closing) ::
            more.map (Block.shift lines) := by
  have ho := openingTag?_eq_some_iff.mpr s.opens
  have hc := TagForm.closingLine?_append (TagForm.closes_iff.mpr s.closes) after hb
  have hs := blockLines_shift mode (1 + before.length + ls.length + 2) 0 0 after
  rw [Nat.zero_add] at hs
  refine ⟨1 + before.length + ls.length + 2, ?_⟩
  rw [hr.blockLines_append mode, blockLines_closed ho hc, hs]
  cases blockLines mode 0 0 after <;> rfl

/-- With bodies that balance in both forms the same envelopes end in front of the slot. -/
theorem Slot.readsBefore_balanced {s : Slot} {before ls ls' after : List Text} {first : List Block}
    (hr : ReadsBefore (s.opening :: (ls ++ s.closing :: after)) 1 before first)
    (hb : ∀ form, TagForm.Balanced form ls) (hb' : ∀ form, TagForm.Balanced form ls') :
    ReadsBefore (s.opening :: (ls' ++ s.closing :: after)) 1 before first := by
  refine hr.congr fun form depth hnone => ?_
  have hopen : form.openAfter depth (s.opening :: ls) =
      form.openAfter depth (s.opening :: ls') := by
    simp only [TagForm.openAfter, (hb form).openAfter_eq, (hb' form).openAfter_eq]
  exact TagForm.balancedClose?_eq_none_congr hopen hnone

/-- The envelope that starts at the line after the given ones is found after the text of these. -/
theorem Slot.found_of_blocks {s : Slot} {body : Text} {before more : List Text}
    {mode : Unterminated} {blocks : List Block} {d : Directive}
    (hf : s.front.normalizeLineBreaks = terminateLines before)
    (hl : (s.fill body).normalizeLineBreaks.lines = before ++ more)
    (hb : blockLines mode 1 0 (s.fill body).normalizeLineBreaks.lines = .ok blocks)
    (hd : .directive d ∈ blocks) (hline : d.line = 1 + before.length) : s.Found body := by
  have hs := split_of_blockLines hb
  have hsplit := splitting_of_split hs
  obtain ⟨front, after, hg⟩ := List.append_of_mem (Block.mem_gather.mpr hd)
  have hstands := hsplit.standsBetween front d after hg
  refine ⟨mode, front, d, after, hg ▸ hs, ?_⟩
  obtain ⟨ls, hfront, hn⟩ := hstands.endsLine.exists_lines
  have hlength : ls.length = before.length := by
    have hcount := hstands.line
    rw [hfront, count_terminateLines hn] at hcount
    omega
  have hjoined : terminateLines ls ++ Fragment.joined (.directive d :: after) =
      (s.fill body).normalizeLineBreaks := by
    rw [← hfront, ← hsplit.joined, hg]
    exact List.flatMap_append.symm
  have hlines := lines_terminateLines_append hn (Fragment.joined (.directive d :: after))
  rw [hjoined, hl] at hlines
  obtain ⟨rfl, -⟩ := List.append_inj hlines hlength.symm
  rw [hfront, hf]

/-- Splitting finds the envelope with one body as with another, if both balance in the tags of
either form. -/
theorem Slot.Found.of_balanced {s : Slot} {body body' : Text} (h : s.Fits body) (h' : s.Fits body')
    (hf : s.Found body) (hb : ∀ form, TagForm.Balanced form body.lines)
    (hb' : ∀ form, TagForm.Balanced form body'.lines) : s.Found body' := by
  obtain ⟨before, after, hfront, hn, hlines⟩ := s.exists_lines
  obtain ⟨ls, hl, hbal⟩ := hlines body h
  obtain ⟨ls', hl', hbal'⟩ := hlines body' h'
  obtain ⟨first, hr⟩ := hf.readsBefore hfront hn hl
  have hr' := Slot.readsBefore_balanced hr (fun form => hbal form (hb form))
    fun form => hbal' form (hb' form)
  obtain ⟨mode, fragments, d, rest, hs, -⟩ := hf
  rw [split_eq_gather, hl] at hs
  obtain ⟨blocks, hblocks, -⟩ := exists_of_map_eq_ok hs
  obtain ⟨lines, hfill⟩ := Slot.blockLines_fill hr (hbal _ h.balanced) mode
  obtain ⟨lines', hfill'⟩ := Slot.blockLines_fill hr' (hbal' _ h'.balanced) mode
  rw [← hl'] at hfill'
  -- the lines after the envelope are read with either body, as far as with the first one
  cases hm : blockLines mode 0 0 after with
  | error e =>
    rw [hfill, hm] at hblocks
    cases hblocks
  | ok more =>
    rw [hm] at hfill'
    exact Slot.found_of_blocks hfront hl' hfill'
      (List.mem_append_right _ (List.mem_cons_self ..)) rfl

theorem Slot.render_fill {s : Slot} {body body' : Text} (h : s.Fits body) (h' : s.Fits body')
    (hf : s.Found body)
    (hf' : s.Found body' ∨
      (∀ form, TagForm.Balanced form body.lines) ∧ ∀ form, TagForm.Balanced form body'.lines)
    (isDocument : Bool) (context : Context) :
    SameOutcome (render world nested (s.fill body) isDocument context)
      (render world nested (s.fill body') isDocument context) := by
  obtain ⟨before, after, hfront, hn, hlines⟩ := s.exists_lines
  obtain ⟨ls, hl, hbal⟩ := hlines body h
  obtain ⟨ls', hl', hbal'⟩ := hlines body' h'
  have hfound : s.Found body' := hf'.elim id fun hb => hf.of_balanced h h' hb.1 hb.2
  obtain ⟨first, hr⟩ := hf.readsBefore hfront hn hl
  obtain ⟨first', hr'⟩ := hfound.readsBefore hfront hn hl'
  obtain rfl := hr.unique hr'
  obtain ⟨lines, hblocks⟩ :=
    Slot.blockLines_fill hr (hbal _ h.balanced) context.options.unterminated
  obtain ⟨lines', hblocks'⟩ :=
    Slot.blockLines_fill hr' (hbal' _ h'.balanced) context.options.unterminated
  rw [← hl] at hblocks
  rw [← hl'] at hblocks'
  cases hm : blockLines context.options.unterminated 0 0 after with
  | error e =>
    rw [hm] at hblocks hblocks'
    rw [render_of_blocks_error hblocks, render_of_blocks_error hblocks']
    exact ⟨rfl, rfl⟩
  | ok more =>
    rw [hm] at hblocks hblocks'
    have hsame := @renderDirective_ofLines world nested s.form s.expression s.nonempty
      (1 + before.length) s.opening s.closing ls ls'
    rw [render_of_blocks hblocks, render_of_blocks hblocks',
      renderBlocks_replaced hsame first more lines lines']
    exact .refl _

end

/-- Parsing does not depend on the body of an envelope with an expression, wherever splitting finds
the envelope with either body. It does if both bodies balance in the tags of the other form too. -/
theorem parse_fill {s : Slot} {body body' : Text} (h : s.Fits body) (h' : s.Fits body')
    (hf : s.Found body)
    (hf' : s.Found body' ∨
      (∀ form, TagForm.Balanced form body.lines) ∧ ∀ form, TagForm.Balanced form body'.lines)
    (world : World) (context : Context) :
    SameOutcome (parse world (s.fill body) context) (parse world (s.fill body') context) ∧
      SameOutcome (render world (parsePart world) (s.fill body) false context)
        (render world (parsePart world) (s.fill body') false context) ∧
      SameOutcome (parsePart world (s.fill body) context)
        (parsePart world (s.fill body') context) := by
  refine ⟨Slot.render_fill h h' hf hf' true context, Slot.render_fill h h' hf hf' false context, ?_⟩
  unfold parsePart
  cases context.levels with
  | zero => exact .refl _
  | succ levels => exact .within (Slot.render_fill h h' hf hf' false _)

/-- Two opening tags and a closing tag of one form, and below them an envelope of the other form. -/
def lateSlot : Slot where
  front := "<!--? 1 ?-->\n<!--? 2 ?-->\n<!--?!-->\n".toList
  opening := "<? 3 ?>".toList
  closing := "<?!>".toList
  rest := []
  form := .raw
  expression := ['3']
  nonempty := by decide
  opens := TagForm.isOpening_openTag .raw (by decide)
  closes := ⟨[], by decide, rfl⟩
  endsLine := by decide
  startsBreak := by decide
  unbroken := by decide
  unreturned := by decide

def emptyWorld : World := ⟨⟨[]⟩, [], 0⟩

def stampedContext : Context := Context.new emptyWorld [] ['/'] { timestamp := some ['T'] }

def staleBody : Text := "\nstale\n<? 4 ?>\n<?!>\n".toList

theorem lateSlot_found : lateSlot.Found ['\n'] := by
  refine ⟨.absorb,
    [.directive ⟨"<!--? 1 ?-->\n<!--? 2 ?-->\n<!--?!-->".toList, ['1'], "\n<!--? 2 ?-->\n".toList,
      .commented, 1, true⟩, .text ['\n']],
    ⟨"<? 3 ?>\n<?!>".toList, ['3'], ['\n'], .raw, 4, true⟩, [], ?_, ?_⟩ <;> decide +kernel

theorem parse_staleBody :
    lateSlot.Fits ['\n'] ∧ lateSlot.Fits staleBody ∧
      SameOutcome (parse emptyWorld (lateSlot.fill ['\n']) stampedContext)
        (parse emptyWorld (lateSlot.fill staleBody) stampedContext) ∧
      SameOutcome
        (render emptyWorld (parsePart emptyWorld) (lateSlot.fill ['\n']) false stampedContext)
        (render emptyWorld (parsePart emptyWorld) (lateSlot.fill staleBody) false stampedContext) ∧
      SameOutcome (parsePart emptyWorld (lateSlot.fill ['\n']) stampedContext)
        (parsePart emptyWorld (lateSlot.fill staleBody) stampedContext) := by
  have h : lateSlot.Fits ['\n'] := ⟨rfl, rfl, by decide, by decide⟩
  have h' : lateSlot.Fits staleBody := ⟨by decide, by decide, by decide, by decide⟩
  have hall : ∀ form, TagForm.Balanced form (Text.lines ['\n']) := by
    intro form
    cases form <;> decide
  have hall' : ∀ form, TagForm.Balanced form (Text.lines staleBody) := by
    intro form
    cases form <;> decide
  exact ⟨h, h', parse_fill h h' lateSlot_found (.inr ⟨hall, hall'⟩) emptyWorld stampedContext⟩

/-- A closing tag of the other form in the body: with it the first tag of the text is balanced, and
the body becomes part of that envelope. -/
def intrudingBody : Text := "\n<!--?!-->\n".toList

/-- It does not suffice that splitting finds the envelope with one of the bodies. -/
theorem parse_intrudingBody :
    lateSlot.Fits ['\n'] ∧ lateSlot.Fits intrudingBody ∧ lateSlot.Found ['\n'] ∧
      ¬ SameOutcome (parse emptyWorld (lateSlot.fill ['\n']) stampedContext)
        (parse emptyWorld (lateSlot.fill intrudingBody) stampedContext) := by
  have h : lateSlot.Fits ['\n'] := ⟨rfl, rfl, by decide, by decide⟩
  have h' : lateSlot.Fits intrudingBody := ⟨by decide, by decide, by decide, by decide⟩
  refine ⟨h, h', lateSlot_found, fun hs => ?_⟩
  have hne : (parse emptyWorld (lateSlot.fill ['\n']) stampedContext).1.toOption ≠
      (parse emptyWorld (lateSlot.fill intrudingBody) stampedContext).1.toOption := by
    decide +kernel
  exact hne hs.1

end MarkdownDirectives
