import MarkdownDirectives.Engine.Document
import MarkdownDirectives.Proofs.TagLines

/-!
# Blocks

A block is a line outside of envelopes or a whole envelope, without the line feed after it. The
fragments of a text are its blocks with the line feeds put back and the neighbouring texts joined,
so what a document is rendered to is the rendered blocks, joined as lines. Blocks are easier to
follow than fragments, as each of them is rendered on its own.
-/

namespace MarkdownDirectives

inductive Block where
  | line (t : Text)
  | directive (d : Directive)
  deriving DecidableEq, Repr

namespace Block

/-- The line feed before further blocks. -/
def gap (more : List Block) : Text := if more.isEmpty then [] else ['\n']

/-- The fragments that the blocks amount to. -/
def gather : List Block → List Fragment
  | [] => []
  | line t :: more => Fragment.consText (t ++ gap more) (gather more)
  | directive d :: more => .directive d :: Fragment.consText (gap more) (gather more)

end Block

/-- The blocks of the lines from the line `number` on, after passing over `skip` lines that belong
to an envelope. -/
def blockLines (mode : Unterminated) : (number skip : Nat) → List Text → Except Error (List Block)
  | _, _, [] => .ok []
  | number, skip + 1, _ :: more => blockLines mode (number + 1) skip more
  | number, 0, line :: more =>
    match openingTag? line with
    | none => (blockLines mode (number + 1) 0 more).map (.line line :: ·)
    | some (form, expression) =>
      match closingLine? form more with
      | some count =>
        (blockLines mode (number + 1) (count + 1) more).map
          (.directive (envelope form expression line number more count) :: ·)
      | none =>
        match mode with
        | .reject => .error (.unterminatedDirective expression number)
        | .absorb => .ok [.directive (openEnvelope form expression line number more)]

/-! ### The lines of a block -/

/-- The envelope with the given lines. -/
def Directive.ofLines (form : TagForm) (expression : Text) (number : Nat) (opening : Text)
    (body : List Text) (closing : Text) : Directive where
  source := Text.ofLines (opening :: (body ++ [closing]))
  expression := expression
  body := '\n' :: terminateLines body
  form := form
  line := number
  isTerminated := true

theorem ofLines_concat (body : List Text) (closing : Text) :
    Text.ofLines (body ++ [closing]) = terminateLines body ++ closing :=
  Text.joinWith_concat body closing

theorem lines_terminateLines_append {ls : List Text} (h : ∀ line ∈ ls, '\n' ∉ line) (t : Text) :
    (terminateLines ls ++ t).lines = ls ++ t.lines := by
  induction ls with
  | nil => rfl
  | cons line ls ih =>
    have ht : terminateLines (line :: ls) ++ t = line ++ '\n' :: (terminateLines ls ++ t) := by
      simp [terminateLines]
    rw [ht, Text.lines_append, Text.lines_of_not_mem (h line (List.mem_cons_self ..)),
      ih fun l hl => h l (List.mem_cons_of_mem _ hl)]
    rfl

theorem lines_terminateLines {ls : List Text} (h : ∀ line ∈ ls, '\n' ∉ line) :
    (terminateLines ls).lines = ls ++ [[]] := by
  have ht := lines_terminateLines_append h []
  rwa [List.append_nil] at ht

theorem lines_body {ls : List Text} (h : ∀ line ∈ ls, '\n' ∉ line) :
    Text.lines ('\n' :: terminateLines ls) = [] :: (ls ++ [[]]) :=
  congrArg ([] :: ·) (lines_terminateLines h)

/-- The tags of a body are those of its whole lines. -/
theorem balanced_body {form : TagForm} {ls : List Text} (h : ∀ line ∈ ls, '\n' ∉ line) :
    form.Balanced (Text.lines ('\n' :: terminateLines ls)) ↔ form.Balanced ls := by
  rw [lines_body h]
  exact TagForm.balanced_padded

/-- A text whose last line is empty is normalized to whole lines. -/
theorem normalizeLineBreaks_eq_terminateLines {t : Text} {front : List Text}
    (h : t.rows = front ++ [[]]) :
    t.normalizeLineBreaks = terminateLines (Text.normalizeFront front) := by
  have hlines := Text.ofLines_lines t.normalizeLineBreaks
  rw [Text.lines_normalizeLineBreaks, h, Text.normalizeLines_concat, ofLines_concat,
    List.append_nil] at hlines
  exact hlines.symm

theorem Directive.ofLines_source (form : TagForm) (expression opening : Text) (number : Nat)
    (body : List Text) (closing : Text) :
    (Directive.ofLines form expression number opening body closing).source =
      opening ++ '\n' :: terminateLines body ++ closing := by
  have hj : Text.ofLines (opening :: (body ++ [closing])) =
      opening ++ '\n' :: Text.ofLines (body ++ [closing]) := Text.joinWith_cons (by simp)
  rw [Directive.ofLines, hj, ofLines_concat, List.append_assoc]
  rfl

theorem envelope_append (form : TagForm) (expression opening : Text) (number : Nat)
    (body : List Text) (closing : Text) (more : List Text) :
    envelope form expression opening number (body ++ closing :: more) body.length =
      Directive.ofLines form expression number opening body closing := by
  have hs := Directive.ofLines_source form expression opening number body closing
  rw [Directive.ofLines] at hs ⊢
  simp only [envelope, List.take_left, List.drop_left, List.headD_cons, ← hs]

theorem openEnvelope_source (form : TagForm) (expression opening : Text) (number : Nat)
    (more : List Text) :
    (openEnvelope form expression opening number more).source = Text.ofLines (opening :: more) := by
  cases more with
  | nil => exact List.append_nil opening
  | cons line more => rfl

/-! ### Reading blocks -/

theorem exists_of_map_eq_ok {ε α β : Type} {x : Except ε α} {f : α → β} {b : β}
    (h : x.map f = .ok b) : ∃ a, x = .ok a ∧ f a = b := by
  cases x with
  | error e => cases h
  | ok a => exact ⟨a, rfl, Except.ok.inj h⟩

/-- The blocks that lines are read as, from the line `number` on. -/
inductive Reads : (number : Nat) → List Text → List Block → Prop
  | nil {number} : Reads number [] []
  | line {number t more blocks} : openingTag? t = none → Reads (number + 1) more blocks →
    Reads number (t :: more) (.line t :: blocks)
  | closed {number form expression opening body closing after blocks} :
    openingTag? opening = some (form, expression) → form.closes closing = true →
    closingLine? form (body ++ closing :: after) = some body.length →
    Reads (number + body.length + 2) after blocks →
    Reads number (opening :: (body ++ closing :: after))
      (.directive (Directive.ofLines form expression number opening body closing) :: blocks)
  | unclosed {number form expression opening more} :
    openingTag? opening = some (form, expression) → closingLine? form more = none →
    Reads number (opening :: more) [.directive (openEnvelope form expression opening number more)]

section

variable {mode : Unterminated} {number count : Nat} {line expression : Text} {form : TagForm}
  {more : List Text}

theorem blockLines_drop (number skip : Nat) (ls : List Text) :
    blockLines mode number skip ls = blockLines mode (number + skip) 0 (ls.drop skip) := by
  induction skip generalizing number ls with
  | zero => rfl
  | succ skip ih =>
    cases ls with
    | nil => rfl
    | cons line more =>
      have hn : number + 1 + skip = number + (skip + 1) := by omega
      rw [blockLines, ih, List.drop_succ_cons, hn]

theorem blockLines_line (h : openingTag? line = none) :
    blockLines mode number 0 (line :: more) =
      (blockLines mode (number + 1) 0 more).map (.line line :: ·) := by
  rw [blockLines, h]

theorem blockLines_envelope (h : openingTag? line = some (form, expression))
    (hc : closingLine? form more = some count) :
    blockLines mode number 0 (line :: more) =
      (blockLines mode (number + 1) (count + 1) more).map
        (.directive (envelope form expression line number more count) :: ·) := by
  rw [blockLines, h]
  simp only [hc]

theorem blockLines_reject (h : openingTag? line = some (form, expression))
    (hc : closingLine? form more = none) :
    blockLines .reject number 0 (line :: more) =
      .error (.unterminatedDirective expression number) := by
  rw [blockLines, h]
  simp only [hc]

theorem blockLines_absorb (h : openingTag? line = some (form, expression))
    (hc : closingLine? form more = none) :
    blockLines .absorb number 0 (line :: more) =
      .ok [.directive (openEnvelope form expression line number more)] := by
  rw [blockLines, h]
  simp only [hc]

theorem drop_after (body : List Text) (closing : Text) (after : List Text) :
    (body ++ closing :: after).drop (body.length + 1) = after := by
  rw [← List.drop_drop, List.drop_left]
  rfl

theorem blockLines_closed {opening closing : Text} {body after : List Text}
    (h : openingTag? opening = some (form, expression))
    (hc : closingLine? form (body ++ closing :: after) = some body.length) :
    blockLines mode number 0 (opening :: (body ++ closing :: after)) =
      (blockLines mode (number + body.length + 2) 0 after).map
        (.directive (Directive.ofLines form expression number opening body closing) :: ·) := by
  have hn : number + 1 + (body.length + 1) = number + body.length + 2 := by omega
  rw [blockLines_envelope h hc, blockLines_drop, drop_after, hn, envelope_append]

/-- In lenient mode every text can be split. -/
theorem exists_blockLines_absorb (number skip : Nat) (ls : List Text) :
    ∃ blocks, blockLines .absorb number skip ls = .ok blocks := by
  generalize hm : Unterminated.absorb = mode
  fun_induction blockLines mode number skip ls with
  | case1 number skip => exact ⟨[], rfl⟩
  | case2 number line more skip ih => exact ih
  | case3 number line more hl ih =>
    obtain ⟨blocks, hb⟩ := ih
    exact ⟨.line line :: blocks, by rw [hb]; rfl⟩
  | case4 number line more form expression hl count hc ih =>
    obtain ⟨blocks, hb⟩ := ih
    exact ⟨_ :: blocks, by rw [hb]; rfl⟩
  | case5 number line more form expression hl hc hr => cases hr.symm.trans hm.symm
  | case6 number line more form expression hl hc hr => exact ⟨_, rfl⟩

theorem reads_of_blockLines {ls : List Text} {blocks : List Block}
    (h : blockLines mode number 0 ls = .ok blocks) : Reads number ls blocks := by
  induction hn : ls.length using Nat.strongRecOn generalizing number ls blocks with
  | ind n ih =>
    subst hn
    cases ls with
    | nil =>
      cases h
      exact .nil
    | cons line more =>
      cases ho : openingTag? line with
      | none =>
        rw [blockLines_line ho] at h
        obtain ⟨rest, hr, rfl⟩ := exists_of_map_eq_ok h
        exact .line ho (ih _ (by simp) hr rfl)
      | some tag =>
        obtain ⟨form, expression⟩ := tag
        cases hc : closingLine? form more with
        | some count =>
          obtain ⟨body, closing, after, rfl, rfl, hcloses⟩ := TagForm.of_closingLine? hc
          rw [blockLines_closed ho hc] at h
          obtain ⟨rest, hr, rfl⟩ := exists_of_map_eq_ok h
          have hlt : after.length < (line :: (body ++ closing :: after)).length := by
            simp only [List.length_cons, List.length_append]
            omega
          exact .closed ho hcloses hc (ih _ hlt hr rfl)
        | none =>
          cases mode with
          | reject =>
            rw [blockLines_reject ho hc] at h
            cases h
          | absorb =>
            rw [blockLines_absorb ho hc] at h
            cases h
            exact .unclosed ho hc

theorem Reads.isEmpty {ls : List Text} {blocks : List Block} (h : Reads number ls blocks) :
    blocks.isEmpty = ls.isEmpty := by
  cases h <;> rfl

theorem blockLines_isEmpty {ls : List Text} {blocks : List Block}
    (h : blockLines mode number 0 ls = .ok blocks) : blocks.isEmpty = ls.isEmpty :=
  (reads_of_blockLines h).isEmpty

theorem blockLines_ne_nil {t : Text} {blocks : List Block}
    (h : blockLines mode number 0 t.lines = .ok blocks) : blocks ≠ [] := by
  have he := blockLines_isEmpty h
  rw [List.isEmpty_eq_false_iff.mpr (Text.lines_ne_nil t)] at he
  exact List.isEmpty_eq_false_iff.mp he

/-- The lines of an envelope are among those that it is read from. -/
theorem mem_of_mem_envelope {opening closing line : Text} {body : List Text} (after : List Text)
    (h : line ∈ opening :: (body ++ [closing])) : line ∈ opening :: (body ++ closing :: after) := by
  have hsplit : opening :: (body ++ closing :: after) =
      opening :: (body ++ [closing]) ++ after := by simp
  rw [hsplit]
  exact List.mem_append_left after h

/-- What the lines of a text without other breaks say of a block. -/
inductive Block.OfLines : Block → Prop
  | line {t} : openingTag? t = none → t.Unbroken → OfLines (.line t)
  | closed {form expression number opening body closing} :
    openingTag? opening = some (form, expression) → form.closes closing = true →
    (∀ line ∈ opening :: (body ++ [closing]), line.Unbroken) →
    OfLines (.directive (Directive.ofLines form expression number opening body closing))
  | unclosed {form expression number opening more} :
    openingTag? opening = some (form, expression) → opening.Unbroken →
    OfLines (.directive (openEnvelope form expression opening number more))

theorem Reads.ofLines {ls : List Text} {blocks : List Block} (h : Reads number ls blocks)
    (hu : ∀ line ∈ ls, line.Unbroken) : ∀ block ∈ blocks, block.OfLines := by
  induction h with
  | nil => exact fun block hb => absurd hb List.not_mem_nil
  | line hl _ ih =>
    obtain ⟨hline, hmore⟩ := List.forall_mem_cons.mp hu
    exact List.forall_mem_cons.mpr ⟨.line hl hline, ih hmore⟩
  | @closed _ _ _ opening body closing after _ hl hc _ _ ih =>
    have hafter : ∀ l ∈ after, l.Unbroken := fun l hm => hu l (by simp [hm])
    have henvelope := fun l hm => hu l (mem_of_mem_envelope after hm)
    exact List.forall_mem_cons.mpr ⟨.closed hl hc henvelope, ih hafter⟩
  | unclosed hl _ =>
    exact fun block hb => List.mem_singleton.mp hb ▸ .unclosed hl (hu _ (List.mem_cons_self ..))

theorem blockLines_ofLines {ls : List Text} {blocks : List Block}
    (h : blockLines mode number 0 ls = .ok blocks) (hu : ∀ line ∈ ls, line.Unbroken) :
    ∀ block ∈ blocks, block.OfLines :=
  (reads_of_blockLines h).ofLines hu

/-! ### Gathering -/

/-- The line feed between two blocks is the one between their lines. -/
theorem map_consText_gap (mode : Unterminated) (number : Nat) (t : Text) (more : List Text) :
    (blockLines mode number 0 more).map
        (fun blocks => Fragment.consText (t ++ Block.gap blocks) (Block.gather blocks)) =
      ((blockLines mode number 0 more).map Block.gather).map
        (Fragment.consText (t ++ lineEnd more)) := by
  cases h : blockLines mode number 0 more with
  | error e => rfl
  | ok blocks => simp only [Except.map, Block.gap, lineEnd, blockLines_isEmpty h]

/-- Past an envelope a line feed comes first, if there is anything more. -/
theorem splitLines_eq_gather (number skip : Nat) (ls : List Text) :
    splitLines mode number skip ls = (blockLines mode number skip ls).map fun blocks =>
      if skip = 0 then Block.gather blocks
      else Fragment.consText (Block.gap blocks) (Block.gather blocks) := by
  fun_induction splitLines mode number skip ls with
  | case1 number skip =>
    simp only [blockLines, Except.map]
    split <;> rfl
  | case2 number line more ih =>
    rw [ih, blockLines]
    exact (map_consText_gap mode (number + 1) [] more).symm
  | case3 number line more skip ih => exact ih
  | case4 number line more hl ih =>
    have hm := map_consText_gap mode (number + 1) line more
    rw [blockLines_line hl, ih]
    refine hm.symm.trans ?_
    cases blockLines mode (number + 1) 0 more <;> rfl
  | case5 number line more form expression hl count hc ih =>
    rw [blockLines_envelope hl hc, ih]
    cases blockLines mode (number + 1) (count + 1) more <;> rfl
  | case6 number line more form expression hl hc hm =>
    subst hm
    rw [blockLines_reject hl hc]
    rfl
  | case7 number line more form expression hl hc hm =>
    subst hm
    rw [blockLines_absorb hl hc]
    rfl

/-- The fragments of a text are its blocks, gathered. -/
theorem split_eq_gather (t : Text) :
    split mode t = (blockLines mode 1 0 t.lines).map Block.gather :=
  splitLines_eq_gather 1 0 t.lines

theorem split_of_blockLines {t : Text} {blocks : List Block}
    (h : blockLines mode 1 0 t.lines = .ok blocks) : split mode t = .ok (Block.gather blocks) := by
  rw [split_eq_gather, h]
  rfl

/-- What skips the texts does not notice a text in front. -/
theorem Fragment.apply_consText {β : Sort _} {f : List Fragment → β}
    (hf : ∀ u fragments, f (.text u :: fragments) = f fragments) (t : Text)
    (fragments : List Fragment) : f (consText t fragments) = f fragments := by
  cases fragments with
  | nil =>
    cases t with
    | nil => rfl
    | cons c t => exact hf _ _
  | cons fragment fragments =>
    cases fragment with
    | text u => rw [consText, hf, hf]
    | directive d =>
      cases t with
      | nil => rfl
      | cons c t => exact hf _ _

theorem mem_consText {t : Text} {fragments : List Fragment} {d : Directive} :
    .directive d ∈ Fragment.consText t fragments ↔ .directive d ∈ fragments := by
  have hskip : ∀ u fragments,
      (Fragment.directive d ∈ .text u :: fragments) = (.directive d ∈ fragments) := by
    intro u fragments
    simp
  exact Iff.of_eq (Fragment.apply_consText hskip t fragments)

/-- Gathering keeps the envelopes. -/
theorem Block.mem_gather {blocks : List Block} {d : Directive} :
    .directive d ∈ gather blocks ↔ Block.directive d ∈ blocks := by
  induction blocks with
  | nil => simp [gather]
  | cons block blocks ih =>
    cases block with
    | line t => simp [gather, mem_consText, ih]
    | directive d' => simp [gather, mem_consText, ih]

end

/-! ### Rendering -/

section

variable (world : World) (nested : Text → Eval Text)

def renderBlock : Block → StateM Context Text
  | .line t => return t
  | .directive d => renderDirective world nested d

/-- The texts of the blocks. -/
def renderBlocks : List Block → StateM Context (List Text)
  | [] => return []
  | block :: more => do
    let first ← renderBlock world nested block
    let rest ← renderBlocks more
    return first :: rest

/-- The envelopes that are evaluated, each with the context in which that happens. -/
def evaluations : List Fragment → Context → List (Directive × Context)
  | [], _ => []
  | .text _ :: more, context => evaluations more context
  | .directive d :: more, context =>
    let rest := evaluations more (renderDirective world nested d context).2
    if d.isLiteral || d.isDiscard then rest else (d, context) :: rest

variable {world nested}

theorem renderBlocks_cons (block : Block) (more : List Block) (context : Context) :
    renderBlocks world nested (block :: more) context =
      let first := renderBlock world nested block context
      let rest := renderBlocks world nested more first.2
      (first.1 :: rest.1, rest.2) := rfl

theorem renderBlocks_cons_eq {block : Block} {more : List Block} {context middle after : Context}
    {t : Text} {ts : List Text} (hb : renderBlock world nested block context = (t, middle))
    (hm : renderBlocks world nested more middle = (ts, after)) :
    renderBlocks world nested (block :: more) context = (t :: ts, after) := by
  rw [renderBlocks_cons, hb]
  simp only [hm]

theorem renderBlocks_append (first more : List Block) (context : Context) :
    renderBlocks world nested (first ++ more) context =
      let before := renderBlocks world nested first context
      let after := renderBlocks world nested more before.2
      (before.1 ++ after.1, after.2) := by
  induction first generalizing context with
  | nil => rfl
  | cons block first ih => simp only [List.cons_append, renderBlocks_cons, ih]

/-- Lines outside of envelopes stand for themselves. -/
theorem renderBlocks_lines (ls : List Text) (more : List Block) (context : Context) :
    renderBlocks world nested (ls.map .line ++ more) context =
      let rendered := renderBlocks world nested more context
      (ls ++ rendered.1, rendered.2) := by
  induction ls with
  | nil => rfl
  | cons line ls ih => exact renderBlocks_cons_eq rfl ih

theorem renderBlocks_ne_nil {blocks : List Block} (h : blocks ≠ []) (context : Context) :
    (renderBlocks world nested blocks context).1 ≠ [] := by
  cases blocks with
  | nil => exact absurd rfl h
  | cons block more => exact List.cons_ne_nil _ _

theorem renderFragments_consText (t : Text) (fragments : List Fragment) (context : Context) :
    renderFragments world nested (Fragment.consText t fragments) context =
      let rest := renderFragments world nested fragments context
      (t ++ rest.1, rest.2) := by
  cases fragments with
  | nil =>
    cases t with
    | nil => rfl
    | cons c more =>
      simp only [Fragment.consText]
      rfl
  | cons fragment fragments =>
    cases fragment with
    | text u =>
      simp only [Fragment.consText, renderFragments_cons, ← List.append_assoc]
      rfl
    | directive d => cases t <;> rfl

theorem gap_append_ofLines (t : Text) (more : List Block) (context : Context) :
    t ++ (Block.gap more ++ Text.ofLines (renderBlocks world nested more context).1) =
      Text.ofLines (t :: (renderBlocks world nested more context).1) := by
  cases more with
  | nil => exact List.append_nil t
  | cons block more => rfl

/-- A text is rendered to the lines that its blocks are rendered to. -/
theorem renderFragments_gather (blocks : List Block) (context : Context) :
    renderFragments world nested (Block.gather blocks) context =
      let rendered := renderBlocks world nested blocks context
      (Text.ofLines rendered.1, rendered.2) := by
  induction blocks generalizing context with
  | nil => rfl
  | cons block blocks ih =>
    cases block with
    | line t =>
      simp only [Block.gather, renderFragments_consText, ih, List.append_assoc,
        gap_append_ofLines]
      rfl
    | directive d =>
      simp only [Block.gather, renderFragments_cons, renderFragments_consText, ih,
        gap_append_ofLines]
      rfl

theorem render_of_blocks_error {source : Text} {isDocument : Bool} {context : Context} {e : Error}
    (h : blockLines context.options.unterminated 1 0 source.normalizeLineBreaks.lines = .error e) :
    render world nested source isDocument context = (.error e, context) := by
  refine render_of_error ?_
  rw [split_eq_gather, h]
  rfl

theorem render_of_blocks {source : Text} {isDocument : Bool} {context : Context}
    {blocks : List Block}
    (h : blockLines context.options.unterminated 1 0 source.normalizeLineBreaks.lines =
      .ok blocks) :
    render world nested source isDocument context =
      let rendered := renderBlocks world nested blocks context
      let ending := if isDocument then rendered.2.footer world else []
      (.ok (Text.normalizeLineBreaks (Text.ofLines rendered.1 ++ ending)), rendered.2) := by
  rw [render_of_ok (split_of_blockLines h), renderFragments_gather]

theorem of_render_eq_ok {source output : Text} {context after : Context}
    (h : render world nested source false context = (.ok output, after)) :
    ∃ blocks, blockLines context.options.unterminated 1 0 source.normalizeLineBreaks.lines =
        .ok blocks ∧
      Text.normalizeLineBreaks (Text.ofLines (renderBlocks world nested blocks context).1) =
        output ∧
      (renderBlocks world nested blocks context).2 = after := by
  cases hb : blockLines context.options.unterminated 1 0 source.normalizeLineBreaks.lines with
  | error e =>
    rw [render_of_blocks_error hb] at h
    cases h
  | ok blocks =>
    rw [render_of_blocks hb] at h
    obtain ⟨ho, ha⟩ := Prod.mk.inj h
    refine ⟨blocks, rfl, ?_, ha⟩
    simpa using ho

theorem evaluations_consText (t : Text) (fragments : List Fragment) (context : Context) :
    evaluations world nested (Fragment.consText t fragments) context =
      evaluations world nested fragments context :=
  Fragment.apply_consText (f := fun fragments => evaluations world nested fragments context)
    (fun _ _ => rfl) t fragments

theorem evaluations_directive (d : Directive) (more : List Block) (context : Context) :
    evaluations world nested (Block.gather (.directive d :: more)) context =
      (if d.isLiteral || d.isDiscard then [] else [(d, context)]) ++
        evaluations world nested (Block.gather more)
          (renderDirective world nested d context).2 := by
  simp only [Block.gather, evaluations, evaluations_consText]
  split <;> rfl

end

end MarkdownDirectives
