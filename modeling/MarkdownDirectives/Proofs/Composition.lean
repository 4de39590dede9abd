import MarkdownDirectives.Proofs.Replay

/-!
# Documents in parts

A text that ends in a line feed and whose envelopes all balance can be processed before what comes
after it is known. What follows is then processed in the context that the first part leaves, and the
outputs only have to be joined. At the cut a run of blank lines may be divided, of which each part
keeps one line; normalizing the joined outputs squeezes them again.
-/

namespace MarkdownDirectives

/-! ### Blank lines at the cut -/

namespace Text

theorem squeeze_true_blanks {blanks : List Text} (h : ∀ line ∈ blanks, isBlankLine line = true)
    (more : List Text) : squeeze true (blanks ++ more) = squeeze true more := by
  induction blanks with
  | nil => rfl
  | cons line blanks ih =>
    obtain ⟨hline, hblanks⟩ := List.forall_mem_cons.mp h
    rw [List.cons_append, squeeze_blank true _ hline]
    exact ih hblanks

/-- After a visible line the first blank line is kept, too. -/
theorem exists_squeeze_false (ls : List Text) :
    ∃ blanks, (∀ line ∈ blanks, isBlankLine line = true) ∧
      squeeze false ls = blanks ++ squeeze true ls := by
  cases ls with
  | nil => exact ⟨[], fun _ hl => absurd hl List.not_mem_nil, rfl⟩
  | cons line ls =>
    cases hb : isBlankLine line with
    | true =>
      refine ⟨[[]], fun _ hl => List.mem_singleton.mp hl ▸ isBlankLine_nil, ?_⟩
      rw [squeeze_blank false ls hb, squeeze_blank true ls hb]
      rfl
    | false =>
      refine ⟨[], fun _ hl => absurd hl List.not_mem_nil, ?_⟩
      rw [squeeze_visible false ls hb, squeeze_visible true ls hb]
      rfl

/-- Lines at the start of a text and after other lines are normalized to the same lines but for
blank ones in front, and those do not matter to a further squeeze after a line that is blank if the
line before them was. -/
theorem exists_core (afterBlank : Bool) (ls : List Text) :
    ∃ atStart atCut core, normalizeFront ls = atStart ++ core ∧
      squeeze afterBlank ls = atCut ++ core ∧
      (∀ line ∈ atStart ++ atCut, isBlankLine line = true) ∧
      ∀ b, (afterBlank = true → b = true) → ∀ more,
        squeeze b (atCut ++ more) = squeeze b (atStart ++ more) := by
  cases ls with
  | nil => exact ⟨[], [], [], rfl, rfl, fun _ hl => absurd hl List.not_mem_nil, fun _ _ _ => rfl⟩
  | cons line ls =>
    cases hb : isBlankLine line with
    | false =>
      exact ⟨[], [], line :: squeeze false ls, rfl, squeeze_visible afterBlank ls hb,
        fun _ hl => absurd hl List.not_mem_nil, fun _ _ _ => rfl⟩
    | true =>
      obtain ⟨blanks, hblanks, hs⟩ := exists_squeeze_false ls
      have hstart : ∀ b more, squeeze b (line :: blanks ++ more) =
          (if b then [] else [[]]) ++ squeeze true more := fun b more => by
        rw [List.cons_append, squeeze_blank b _ hb, squeeze_true_blanks hblanks]
      have hfront : normalizeFront (line :: ls) = line :: blanks ++ squeeze true ls := by
        rw [normalizeFront, hs]
        rfl
      cases afterBlank with
      | true =>
        refine ⟨line :: blanks, [], _, hfront, squeeze_blank true ls hb, ?_, ?_⟩
        · rw [List.append_nil]
          exact List.forall_mem_cons.mpr ⟨hb, hblanks⟩
        · intro b hflag more
          rw [hstart, hflag rfl]
          rfl
      | false =>
        refine ⟨line :: blanks, [[]], _, hfront, squeeze_blank false ls hb, ?_, ?_⟩
        · intro l hl
          simp only [List.mem_append, List.mem_cons, List.not_mem_nil, or_false] at hl
          rcases hl with (rfl | hl) | rfl
          · exact hb
          · exact hblanks l hl
          · exact isBlankLine_nil
        · intro b _ more
          rw [hstart]
          exact squeeze_blank b more isBlankLine_nil

theorem exists_of_endsBlank {ls : List Text} (h : endsBlank false ls = true) :
    ∃ front line, ls = front ++ [line] ∧ isBlankLine line = true := by
  rcases List.eq_nil_or_concat' ls with rfl | ⟨front, line, rfl⟩
  · cases h
  · rw [endsBlank_append] at h
    exact ⟨front, line, rfl, h⟩

/-- The rows of two normalized texts, the first of which ends in a line feed. -/
theorem rows_normalized_append {s : Text} {front : List Text} (h : s.rows = front ++ [[]])
    (t : Text) :
    rows (s.normalizeLineBreaks ++ t.normalizeLineBreaks) =
      normalizeFront front ++ normalizeLines t.rows := by
  have hr : '\r' ∉ s.normalizeLineBreaks ++ t.normalizeLineBreaks := by
    rw [List.mem_append, not_or]
    exact ⟨not_mem_normalizeLineBreaks s, not_mem_normalizeLineBreaks t⟩
  have hn : ∀ line ∈ normalizeFront front, '\n' ∉ line := fun line hl =>
    (unbroken_normalizeFront h line hl).1
  rw [rows_of_not_mem hr, normalizeLineBreaks_eq_terminateLines h, lines_terminateLines_append hn,
    lines_normalizeLineBreaks]

/-- Normalizing lines in two parts and then together is normalizing them at once, if the blank lines
at the start of the second part do not matter at the cut. -/
theorem normalizeLines_joined {first second atStart atCut : List Text} (hf : first ≠ [])
    (hs : second ≠ [])
    (hcut : ∀ more, squeeze (endsBlank false first.tail) (atCut ++ more) =
      squeeze (endsBlank false first.tail) (atStart ++ more)) :
    normalizeLines (normalizeFront first ++ normalizeLines (atStart ++ second)) =
      normalizeLines (first ++ (atCut ++ second)) := by
  obtain ⟨init, last, rfl⟩ := (List.eq_nil_or_concat' second).resolve_left hs
  rw [← List.append_assoc atStart, normalizeLines_concat, ← List.append_assoc,
    normalizeLines_concat, normalizeFront_append (normalizeFront_ne_nil hf), normalizeFront_idem,
    endsBlank_normalizeFront, squeeze_normalizeFront, ← hcut, ← normalizeFront_append hf,
    ← normalizeLines_concat]
  simp only [List.append_assoc]

/-- Joined outputs are normalized to the joined texts, normalized. -/
theorem normalizeLineBreaks_joined {first second atStart atCut : List Text} (hf : first ≠ [])
    (hs : second ≠ []) (hsf : Sealed first) (hss : Sealed second)
    (hu : ∀ line ∈ atStart ++ atCut, line.Unbroken)
    (hcut : ∀ more, squeeze (endsBlank false (first.flatMap rows).tail) (atCut ++ more) =
      squeeze (endsBlank false (first.flatMap rows).tail) (atStart ++ more)) :
    normalizeLineBreaks (normalizeLineBreaks (ofLines (first ++ [[]])) ++
        normalizeLineBreaks (ofLines (atStart ++ second))) =
      normalizeLineBreaks (ofLines (first ++ (atCut ++ second))) := by
  have hstart : ∀ line ∈ atStart, line.Unbroken := fun line hl => hu line (by simp [hl])
  have hend : ∀ line ∈ atCut, line.Unbroken := fun line hl => hu line (by simp [hl])
  have hss' : Sealed (atCut ++ second) := Sealed.append (fun line hl => (hend line hl).getLast?) hss
  have hfirst : rows (ofLines (first ++ [[]])) = first.flatMap rows ++ [[]] :=
    rows_ofLines_append hsf (.cons (by decide) .nil) (by simp)
  have hsecond : rows (ofLines (atStart ++ second)) = atStart ++ second.flatMap rows := by
    rw [rows_ofLines_append (fun line hl => (hstart line hl).getLast?) hss (by simp [hs]),
      flatMap_rows hstart]
  have hwhole : rows (ofLines (first ++ (atCut ++ second))) =
      first.flatMap rows ++ (atCut ++ second.flatMap rows) := by
    rw [rows_ofLines_append hsf hss' (by simp [hf]), List.flatMap_append, flatMap_rows hend]
  have hjoined := rows_normalized_append hfirst (ofLines (atStart ++ second))
  rw [hsecond] at hjoined
  rw [normalizeLineBreaks, ← rows, hjoined,
    normalizeLines_joined (flatMap_rows_ne_nil hf) (flatMap_rows_ne_nil hs) hcut, ← hwhole]
  rfl

/-- The rows of a text that ends in a line feed do not depend on what comes after it. -/
theorem exists_rows_append {a : Text} (h : a.getLast? = some '\n') :
    ∃ front, front ≠ [] ∧ rows a = front ++ [[]] ∧ ∀ b, rows (a ++ b) = front ++ rows b := by
  obtain ⟨a, rfl⟩ := List.getLast?_eq_some_iff.mp h
  obtain ⟨front, hne, hrows, -⟩ := rows_line a
  refine ⟨front, hne, hrows [], fun b => ?_⟩
  rw [List.append_assoc]
  exact hrows b

end Text

/-! ### Texts of rendered blocks -/

def Block.source : Block → Text
  | line t => t
  | directive d => d.source

theorem Reads.sealed {number : Nat} {ls : List Text} {blocks : List Block}
    (h : Reads number ls blocks) (hu : ∀ line ∈ ls, line.Unbroken) :
    Text.Sealed (blocks.map Block.source) := by
  induction h with
  | nil => exact .nil
  | line _ _ ih =>
    obtain ⟨hline, hmore⟩ := List.forall_mem_cons.mp hu
    exact .cons hline.getLast? (ih hmore)
  | @closed number form expression opening body closing after blocks _ _ _ _ ih =>
    have hsource : ∀ line ∈ opening :: (body ++ [closing]), line.Unbroken := fun line hl =>
      hu line (mem_of_mem_envelope after hl)
    exact .cons (Text.getLast?_ofLines hsource) (ih fun line hl => hu line (by simp [hl]))
  | unclosed _ _ =>
    refine .cons ?_ .nil
    rw [Block.source, openEnvelope_source]
    exact Text.getLast?_ofLines hu

section

variable {world : World} {nested : Text → Eval Text}

theorem getLast?_renderBlock {block : Block} (h : block.source.getLast? ≠ some '\r')
    (context : Context) :
    (renderBlock world nested block context).1.getLast? ≠ some '\r' := by
  cases block with
  | line t => exact h
  | directive d =>
    have hr : renderBlock world nested (.directive d) context =
        renderDirective world nested d context := rfl
    cases hl : d.isLiteral with
    | true =>
      rw [hr, renderDirective_literal hl]
      exact h
    | false =>
      cases hd : d.isDiscard with
      | true =>
        have hn : (['\n'] : Text).getLast? ≠ some '\r' := by decide
        rw [hr, renderDirective_discard hl hd]
        exact hn
      | false =>
        rw [hr, renderDirective_evaluated hl hd]
        exact d.form.getLast?_wrap _ _

theorem renderBlocks_sealed {blocks : List Block} (h : Text.Sealed (blocks.map Block.source))
    (context : Context) : Text.Sealed (renderBlocks world nested blocks context).1 := by
  induction blocks generalizing context with
  | nil => exact .nil
  | cons block blocks ih =>
    obtain ⟨hblock, hmore⟩ := List.forall_mem_cons.mp h
    rw [renderBlocks_cons]
    exact .cons (getLast?_renderBlock hblock context) (ih hmore _)

/-- A blank line at the end stays where it is. -/
theorem endsBlank_renderBlocks {rest ls : List Text} {number : Nat} {blocks : List Block}
    (h : ReadsBefore rest number ls blocks) (hu : ∀ line ∈ ls, line.Unbroken)
    (hb : Text.endsBlank false ls.tail = true) (context : Context) :
    Text.endsBlank false
      ((renderBlocks world nested blocks context).1.flatMap Text.rows).tail = true := by
  cases ls with
  | nil => cases hb
  | cons first ls =>
    obtain ⟨front, line, hls, hline⟩ := Text.exists_of_endsBlank hb
    have hcons : first :: ls = (first :: front) ++ [line] := congrArg (first :: ·) hls
    have hlu : line.Unbroken := hu line (by rw [hcons]; simp)
    rw [hcons] at h
    obtain ⟨before, rfl, hr⟩ := h.of_concat_blank hline
    have hne : before ≠ [] := by
      rintro rfl
      cases hr
    obtain ⟨row, more, hrows⟩ := List.exists_cons_of_ne_nil (Text.flatMap_rows_ne_nil
      (@renderBlocks_ne_nil world nested before hne context))
    have hrendered : (renderBlocks world nested (before ++ [.line line]) context).1 =
        (renderBlocks world nested before context).1 ++ [line] := by
      rw [renderBlocks_append]
      rfl
    rw [hrendered, List.flatMap_append, List.flatMap_singleton, hlu.rows, hrows, List.cons_append,
      List.tail_cons, Text.endsBlank_append]
    exact hline

/-! ### Parts of a document -/

/-- The text ends in a line feed, and its envelopes are closed and balance within it. -/
structure Text.SelfContained (mode : Unterminated) (t : Text) : Prop where
  endsLine : t.getLast? = some '\n'
  envelopes : ∀ fragments, split mode t.normalizeLineBreaks = .ok fragments →
    ∀ d, .directive d ∈ fragments → d.isTerminated = true ∧ d.form.Balanced d.body.lines

/-- The lines of a self-contained text are read in the same way before others. -/
theorem Text.SelfContained.exists_blocks {mode : Unterminated} {t : Text} {front : List Text}
    {blocks : List Block} (h : t.SelfContained mode) (ht : t.rows = front ++ [[]])
    (hb : blockLines mode 1 0 t.normalizeLineBreaks.lines = .ok blocks) :
    ∃ first, blocks = first ++ [.line []] ∧
      ∀ rest, ReadsBefore rest 1 (Text.normalizeFront front) first := by
  have hs := split_of_blockLines hb
  have hd : ∀ d, .directive d ∈ blocks → d.isTerminated = true ∧ d.form.Balanced d.body.lines :=
    fun d hm => h.envelopes _ hs d (Block.mem_gather.mpr hm)
  have hn : ∀ line ∈ t.normalizeLineBreaks.lines, '\n' ∉ line := fun line hl =>
    Text.not_mem_of_mem_lines hl
  have hall := (reads_of_blockLines hb).readsBefore hn hd
  rw [Text.lines_normalizeLineBreaks, ht, Text.normalizeLines_concat] at hall
  obtain ⟨first, rfl, -⟩ := (hall []).of_concat_blank Text.isBlankLine_nil
  refine ⟨first, rfl, fun rest => ?_⟩
  obtain ⟨first', he, hr⟩ := (hall rest).of_concat_blank Text.isBlankLine_nil
  rwa [List.append_cancel_right he]

/-- Blank lines in front of others are read as they are. -/
theorem blockLines_blanks {blanks : List Text} (h : ∀ line ∈ blanks, Text.isBlankLine line = true)
    (mode : Unterminated) (number : Nat) (ls : List Text) :
    blockLines mode number 0 (blanks ++ ls) =
      ((blockLines mode number 0 ls).mapError (Error.shift blanks.length)).map fun more =>
        blanks.map .line ++ more.map (Block.shift blanks.length) := by
  have hread := readsBefore_lines (fun line hl => openingTag?_of_isBlankLine (h line hl)) ls number
  rw [hread.blockLines_append mode, blockLines_shift]
  cases blockLines mode number 0 ls <;> rfl

/-- What the rows of a text, `back` and a last one, are read as alone and after other lines: the
same but for line numbers and for the blank lines in front. -/
structure ReadsAfter (mode : Unterminated) (afterBlank : Bool) (back : List Text) (last : Text)
    (blocks : List Block) (atStart atCut : List Text) (more : List Block) : Prop where
  alone : ∃ lines, blocks = atStart.map .line ++ more.map (Block.shift lines)
  after : ∀ lines, ∃ lines',
    blockLines mode (1 + lines) 0 (Text.squeeze afterBlank back ++ [last]) =
      .ok (atCut.map .line ++ more.map (Block.shift lines'))
  more_ne_nil : more ≠ []
  more_sealed : Text.Sealed (more.map Block.source)
  unbroken : ∀ line ∈ atStart ++ atCut, line.Unbroken
  squeeze_eq : ∀ b, (afterBlank = true → b = true) → ∀ more,
    Text.squeeze b (atCut ++ more) = Text.squeeze b (atStart ++ more)

theorem Block.shift_shift (lines lines' : Nat) (blocks : List Block) :
    (blocks.map (shift lines)).map (shift lines') = blocks.map (shift (lines + lines')) := by
  rw [List.map_map]
  refine List.map_congr_left fun block _ => ?_
  cases block with
  | line t => rfl
  | directive d => simp only [Function.comp_apply, shift, Directive.shift, Nat.add_assoc]

theorem exists_readsAfter {mode : Unterminated} {t : Text} {back : List Text} {last : Text}
    {blocks : List Block} (ht : t.rows = back ++ [last])
    (hb : blockLines mode 1 0 t.normalizeLineBreaks.lines = .ok blocks) (afterBlank : Bool) :
    ∃ atStart atCut more, ReadsAfter mode afterBlank back last blocks atStart atCut more := by
  obtain ⟨atStart, atCut, core, hstart, hcut, hblank, hsqueeze⟩ := Text.exists_core afterBlank back
  have hlines : t.normalizeLineBreaks.lines = atStart ++ (core ++ [last]) := by
    rw [Text.lines_normalizeLineBreaks, ht, Text.normalizeLines_concat, hstart, List.append_assoc]
  have hu : ∀ line ∈ atStart ++ (core ++ [last]), line.Unbroken := fun line hl =>
    Text.unbroken_of_mem_normalized (hlines ▸ hl)
  rw [hlines, blockLines_blanks fun l hl => hblank l (List.mem_append_left _ hl)] at hb
  obtain ⟨more, hshifted, rfl⟩ := exists_of_map_eq_ok hb
  have hmore := eq_ok_of_mapError_eq_ok hshifted
  have hr := reads_of_blockLines hmore
  refine ⟨atStart, atCut, more, ⟨⟨_, rfl⟩, fun lines => ?_, ?_, ?_, ?_, hsqueeze⟩⟩
  · refine ⟨lines + atCut.length, ?_⟩
    have hblankCut := fun line hl => hblank line (List.mem_append_right atStart hl)
    rw [hcut, List.append_assoc, blockLines_blanks hblankCut, blockLines_shift, hmore,
      ← Block.shift_shift]
    rfl
  · have he := hr.isEmpty
    rintro rfl
    simp at he
  · exact hr.sealed fun line hl => hu line (List.mem_append_right _ hl)
  · intro line hl
    rcases List.mem_append.mp hl with hl | hl
    · exact hu line (List.mem_append_left _ hl)
    · have hm : line ∈ Text.squeeze afterBlank back := hcut ▸ List.mem_append_left _ hl
      rcases Text.mem_of_mem_squeeze hm with rfl | hm
      · exact .nil
      · have hrow : line ∈ t.rows := ht ▸ List.mem_append_left _ hm
        exact Text.unbroken_of_mem_rows hrow

/-- The texts that the blocks of two parts are rendered to, joined as two outputs or as one. -/
theorem ReadsAfter.output_eq (world : World) (nested : Text → Eval Text) {mode : Unterminated}
    {front back atStart atCut rest : List Text} {last : Text} {blocks first more : List Block}
    (h : ReadsAfter mode (Text.endsBlank false front.tail) back last blocks atStart atCut more)
    (hfirst : ReadsBefore rest 1 (Text.normalizeFront front) first) (hne : front ≠ [])
    (hu : ∀ line ∈ Text.normalizeFront front, line.Unbroken) (context : Context) :
    let before := renderBlocks world nested first context
    let after := renderBlocks world nested more before.2
    Text.normalizeLineBreaks (Text.normalizeLineBreaks (Text.ofLines (before.1 ++ [[]])) ++
        Text.normalizeLineBreaks (Text.ofLines (atStart ++ after.1))) =
      Text.normalizeLineBreaks (Text.ofLines (before.1 ++ (atCut ++ after.1))) := by
  intro before after
  have hfirst_ne : first ≠ [] := by
    have he := hfirst.isEmpty
    rw [List.isEmpty_eq_false_iff.mpr (Text.normalizeFront_ne_nil hne)] at he
    exact List.isEmpty_eq_false_iff.mp he
  have hsealed := (reads_of_blockLines (hfirst.blockLines_eq .absorb)).sealed hu
  have hflag : Text.endsBlank false front.tail = true →
      Text.endsBlank false (before.1.flatMap Text.rows).tail = true := by
    intro hf
    rw [← Text.endsBlank_normalizeFront] at hf
    exact endsBlank_renderBlocks hfirst hu hf context
  exact Text.normalizeLineBreaks_joined (renderBlocks_ne_nil hfirst_ne context)
    (renderBlocks_ne_nil h.more_ne_nil before.2) (renderBlocks_sealed hsealed context)
    (renderBlocks_sealed h.more_sealed before.2) h.unbroken (h.squeeze_eq _ hflag)

theorem render_append_of_framed (hn : ∀ t, Eval.Framed (nested t)) {a b output output' : Text}
    {context middle after : Context} (h : a.SelfContained context.options.unterminated)
    (hx : render world nested a false context = (.ok output, middle))
    (hy : render world nested b false middle = (.ok output', after)) :
    render world nested (a ++ b) false context =
      (.ok (Text.normalizeLineBreaks (output ++ output')), after) := by
  have hframed : Eval.Framed (render world nested a false) := render_framed hn a false
  have hg := hframed context
  rw [hx] at hg
  obtain ⟨front, hne, hra, hrows⟩ := Text.exists_rows_append h.endsLine
  obtain ⟨back, last, hrb⟩ := (List.eq_nil_or_concat' b.rows).resolve_left (Text.rows_ne_nil b)
  -- what the lines of both parts are read as
  obtain ⟨blocks, hb, rfl, rfl⟩ := of_render_eq_ok hx
  obtain ⟨blocks', hb', rfl, rfl⟩ := of_render_eq_ok hy
  rw [hg.options] at hb'
  obtain ⟨first, rfl, hfirst⟩ := h.exists_blocks hra hb
  obtain ⟨atStart, atCut, more, hr⟩ :=
    exists_readsAfter hrb hb' (Text.endsBlank false front.tail)
  obtain ⟨lines, rfl⟩ := hr.alone
  obtain ⟨lines', hafter⟩ := hr.after (Text.normalizeFront front).length
  have hwhole : blockLines context.options.unterminated 1 0 (a ++ b).normalizeLineBreaks.lines =
      .ok (first ++ (atCut.map .line ++ more.map (Block.shift lines'))) := by
    rw [Text.lines_normalizeLineBreaks, hrows, hrb, ← List.append_assoc, Text.normalizeLines_concat,
      Text.normalizeFront_append hne, List.append_assoc, (hfirst _).blockLines_append, hafter]
    rfl
  -- what the blocks are rendered to
  have hout := hr.output_eq world nested (hfirst []) hne (Text.unbroken_normalizeFront hra) context
  rcases hf : renderBlocks world nested first context with ⟨texts, later⟩
  rcases hs : renderBlocks world nested more later with ⟨texts', after⟩
  have hlast : renderBlocks world nested (first ++ [.line []]) context =
      (texts ++ [[]], later) := by
    rw [renderBlocks_append, hf]
    rfl
  have hmore : ∀ (blanks : List Text) (lines : Nat),
      renderBlocks world nested (blanks.map .line ++ more.map (Block.shift lines)) later =
        (blanks ++ texts', after) := by
    intro blanks lines
    rw [renderBlocks_lines, renderBlocks_shift, hs]
  have hall : renderBlocks world nested
      (first ++ (atCut.map .line ++ more.map (Block.shift lines'))) context =
        (texts ++ (atCut ++ texts'), after) := by
    rw [renderBlocks_append, hf]
    simp only [hmore]
  simp only [hf, hs] at hout
  rw [render_of_blocks hwhole, hall, hlast, hmore, hout]
  simp

end

/-- Nested texts are composed in the same way, one level further down. -/
theorem parsePart_append {world : World} {a b output output' : Text}
    {context middle after : Context} (h : a.SelfContained context.options.unterminated)
    (hx : parsePart world a context = (.ok output, middle))
    (hy : parsePart world b middle = (.ok output', after)) :
    parsePart world (a ++ b) context =
      (.ok (Text.normalizeLineBreaks (output ++ output')), after) := by
  have hg : context.GrowsTo middle := by
    have hf := parsePart_framed world a context
    rwa [hx] at hf
  have hlevels : middle.levels = context.levels := by
    rw [Context.levels, Context.levels, hg.options, hg.depth]
  unfold parsePart at hx hy ⊢
  rw [hlevels] at hy
  cases hl : context.levels with
  | zero =>
    rw [hl] at hx
    cases hx
  | succ levels =>
    rw [hl] at hx hy
    have hframed : Eval.Framed (render world (parseNested world levels) a false) :=
      render_framed (parseNested_framed world levels) a false
    have hf := hframed { context with depth := context.depth + 1 }
    rcases hr : render world (parseNested world levels) a false
      { context with depth := context.depth + 1 } with ⟨result, inner⟩
    rw [hr] at hf
    simp only [parseNested, Eval.within, hr] at hx
    cases hx
    -- the depth that the first part leaves is the one the second part starts with
    have hdepth : inner.depth - 1 + 1 = inner.depth := by
      rw [hf.depth]
      rfl
    rcases hr' : render world (parseNested world levels) b false inner with ⟨result', inner'⟩
    simp only [parseNested, Eval.within, hdepth, hr'] at hy
    cases hy
    have hstart : a.SelfContained
      ({ context with depth := context.depth + 1 } : Context).options.unterminated := h
    have hall := render_append_of_framed (parseNested_framed world levels) hstart hr hr'
    simp only [parseNested, Eval.within, hall]

/-- A self-contained text and what comes after it can be processed one after the other in one
context; the joined outputs, normalized, are the output of the whole. -/
theorem render_append {world : World} {a b output output' : Text} {context middle after : Context}
    (h : a.SelfContained context.options.unterminated)
    (hx : render world (parsePart world) a false context = (.ok output, middle))
    (hy : render world (parsePart world) b false middle = (.ok output', after)) :
    render world (parsePart world) (a ++ b) false context =
      (.ok (Text.normalizeLineBreaks (output ++ output')), after) :=
  render_append_of_framed (parsePart_framed world) h hx hy

def partWorld : World := ⟨⟨[]⟩, [], 0⟩

def partContext : Context := Context.new partWorld [] ['/'] {}

def firstPart : Text := "# One\n<? @alias('a') ?>\n<?!>\n\n".toList

def secondPart : Text := "\n# Two\n<? @alias('b') ?>\n<?!>\n".toList

theorem firstPart_selfContained : firstPart.SelfContained partContext.options.unterminated where
  endsLine := by decide
  envelopes := by
    have hs : split partContext.options.unterminated firstPart.normalizeLineBreaks =
        .ok [.text "# One\n".toList,
          .directive
            ⟨"<? @alias('a') ?>\n<?!>".toList, "@alias('a')".toList, ['\n'], .raw, 2, true⟩,
          .text "\n\n".toList] := by
      decide +kernel
    intro fragments hf d hd
    rw [hs] at hf
    cases hf
    simp only [List.mem_cons, Fragment.directive.injEq, reduceCtorEq, List.not_mem_nil, or_false,
      false_or] at hd
    subst hd
    exact ⟨rfl, by decide⟩

def firstOutput : Text := "# One\n<? @alias('a') ?>\nlink-1\n<?!>\n\n".toList

def secondOutput : Text := "\n# Two\n<? @alias('b') ?>\nlink-2\n<?!>\n".toList

/-- Processes a part of the document. -/
def renderPart : Text → Eval Text := fun part => render partWorld (parsePart partWorld) part false

/-- The context between the two parts. -/
def middleContext : Context := (renderPart firstPart partContext).2

theorem renderPart_firstPart :
    renderPart firstPart partContext = (.ok firstOutput, middleContext) := by
  have h : (renderPart firstPart partContext).1 = .ok firstOutput := by decide +kernel
  rw [← h, middleContext, Prod.eta]

theorem renderPart_secondPart :
    renderPart secondPart middleContext =
      (.ok secondOutput, (renderPart secondPart middleContext).2) := by
  have h : (renderPart secondPart middleContext).1 = .ok secondOutput := by decide +kernel
  rw [← h, Prod.eta]

theorem renderPart_parts :
    renderPart (firstPart ++ secondPart) partContext =
      (.ok (Text.normalizeLineBreaks (firstOutput ++ secondOutput)),
        (renderPart secondPart middleContext).2) :=
  render_append firstPart_selfContained renderPart_firstPart renderPart_secondPart

end MarkdownDirectives
