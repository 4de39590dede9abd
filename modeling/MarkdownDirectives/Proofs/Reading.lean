import MarkdownDirectives.Proofs.Blocks

/-!
# Reading in parts

Where an envelope ends is decided by lines far below its opening tag, so what some lines are read as
may depend on all the lines after them. It does not where each envelope ends within the lines: then
they are read as they are alone, and the lines after them are read as they are alone too, only with
greater line numbers. Envelopes whose own tags balance end within the lines that hold them, whatever
comes after.
-/

namespace MarkdownDirectives

/-! ### Texts of whole lines -/

namespace Text

/-- A line can begin after the text. -/
def EndsLine (t : Text) : Prop := t = [] ∨ t.getLast? = some '\n'

/-- A line can end in front of the text. -/
def StartsBreak (t : Text) : Prop := t = [] ∨ t.head? = some '\n'

instance (t : Text) : Decidable t.EndsLine := inferInstanceAs (Decidable (_ ∨ _))

instance (t : Text) : Decidable t.StartsBreak := inferInstanceAs (Decidable (_ ∨ _))

theorem EndsLine.exists_lines {t : Text} (h : t.EndsLine) :
    ∃ ls, t = terminateLines ls ∧ ∀ line ∈ ls, '\n' ∉ line := by
  rcases h with rfl | h
  · exact ⟨[], rfl, fun _ hl => absurd hl List.not_mem_nil⟩
  · obtain ⟨t, rfl⟩ := List.getLast?_eq_some_iff.mp h
    refine ⟨lines t, ?_, fun line hl => not_mem_of_mem_lines hl⟩
    have hc := ofLines_concat (lines t) []
    rw [ofLines_append (lines_ne_nil t) (List.cons_ne_nil _ _), ofLines_lines,
      List.append_nil] at hc
    exact hc

/-- What follows a closing tag: a line feed and further lines, or nothing. -/
theorem StartsBreak.lines_after {t : Text} (h : t.StartsBreak) {line : Text} (hl : '\n' ∉ line) :
    lines (line ++ t) = line :: (lines t).tail := by
  rcases h with rfl | h
  · rw [List.append_nil, lines_of_not_mem hl]
    rfl
  · obtain ⟨t, rfl⟩ := List.head?_eq_some_iff.mp h
    have ht : lines ('\n' :: t) = [] :: lines t := rfl
    rw [lines_append, lines_of_not_mem hl, ht]
    rfl

theorem StartsBreak.lines_eq {t : Text} (h : t.StartsBreak) : lines t = [] :: (lines t).tail :=
  h.lines_after List.not_mem_nil

/-- What stands between two tag lines: the line feed after the first and whole lines. -/
theorem exists_body_lines {t : Text} (hf : t.head? = some '\n') (hl : t.getLast? = some '\n') :
    ∃ ls, t = '\n' :: terminateLines ls ∧ ∀ line ∈ ls, '\n' ∉ line := by
  obtain ⟨t, rfl⟩ := List.head?_eq_some_iff.mp hf
  have he : EndsLine t := by
    cases t with
    | nil => exact .inl rfl
    | cons c t =>
      rw [List.getLast?_cons_cons] at hl
      exact .inr hl
  obtain ⟨ls, rfl, hls⟩ := he.exists_lines
  exact ⟨ls, rfl, hls⟩

/-- The lines of a text that has an envelope in it. -/
theorem lines_envelope {front body : List Text} {opening closing rest : Text}
    (hf : ∀ line ∈ front, '\n' ∉ line) (ho : '\n' ∉ opening) (hb : ∀ line ∈ body, '\n' ∉ line)
    (hc : '\n' ∉ closing) (hr : rest.StartsBreak) :
    lines (terminateLines front ++ (opening ++ '\n' :: terminateLines body ++ closing) ++ rest) =
      front ++ opening :: (body ++ closing :: (lines rest).tail) := by
  have hassoc :
      terminateLines front ++ (opening ++ '\n' :: terminateLines body ++ closing) ++ rest =
        terminateLines front ++
          (opening ++ '\n' :: (terminateLines body ++ (closing ++ rest))) := by
    simp only [List.append_assoc, List.cons_append]
  rw [hassoc, lines_terminateLines_append hf, lines_append,
    lines_of_not_mem ho, lines_terminateLines_append hb, hr.lines_after hc]
  rfl

end Text

theorem count_terminateLines {ls : List Text} (h : ∀ line ∈ ls, '\n' ∉ line) :
    (terminateLines ls).count '\n' = ls.length := by
  induction ls with
  | nil => rfl
  | cons line ls ih =>
    obtain ⟨hline, hmore⟩ := List.forall_mem_cons.mp h
    have ht : terminateLines (line :: ls) = line ++ ['\n'] ++ terminateLines ls := rfl
    have hc : line.count '\n' = 0 := List.count_eq_zero.mpr hline
    rw [ht, List.count_append, List.count_append, hc, ih hmore, List.length_cons]
    simp
    omega

/-! ### Line numbers -/

def Directive.shift (lines : Nat) (d : Directive) : Directive := { d with line := d.line + lines }

/-- The fragment as it is found when more lines stand in front of it. -/
def Fragment.shift (lines : Nat) : Fragment → Fragment
  | text t => text t
  | directive d => directive (d.shift lines)

/-- The error for a text with more lines in front of it. -/
def Error.shift (lines : Nat) : Error → Error
  | unterminatedDirective expression line => unterminatedDirective expression (line + lines)
  | e => e

def Block.shift (lines : Nat) : Block → Block
  | line t => line t
  | directive d => directive (d.shift lines)

theorem Block.gap_map (f : Block → Block) (blocks : List Block) :
    gap (blocks.map f) = gap blocks := by
  cases blocks <;> rfl

theorem Fragment.map_consText (lines : Nat) (t : Text) (fragments : List Fragment) :
    (consText t fragments).map (shift lines) = consText t (fragments.map (shift lines)) := by
  cases fragments with
  | nil => cases t <;> rfl
  | cons fragment more =>
    cases fragment with
    | text u => rfl
    | directive d => cases t <;> rfl

theorem Block.gather_shift (lines : Nat) (blocks : List Block) :
    gather (blocks.map (shift lines)) = (gather blocks).map (Fragment.shift lines) := by
  induction blocks with
  | nil => rfl
  | cons block more ih =>
    cases block with
    | line t =>
      simp only [List.map_cons, shift, gather, gap_map, ih, Fragment.map_consText]
    | directive d =>
      simp only [List.map_cons, shift, gather, gap_map, ih, Fragment.map_consText, Fragment.shift]

/-- The line number of an envelope is not rendered. -/
theorem renderBlocks_shift (world : World) (nested : Text → Eval Text) (lines : Nat)
    (blocks : List Block) :
    renderBlocks world nested (blocks.map (Block.shift lines)) =
      renderBlocks world nested blocks := by
  induction blocks with
  | nil => rfl
  | cons block more ih =>
    have hb : renderBlock world nested (block.shift lines) = renderBlock world nested block := by
      cases block <;> rfl
    rw [List.map_cons, renderBlocks, renderBlocks, hb, ih]

/-- Lines are read in the same way further down. -/
theorem blockLines_shift (mode : Unterminated) (lines number skip : Nat) (ls : List Text) :
    blockLines mode (number + lines) skip ls =
      ((blockLines mode number skip ls).mapError (Error.shift lines)).map
        (List.map (Block.shift lines)) := by
  have hstep : ∀ n, n + lines + 1 = n + 1 + lines := fun n => by omega
  fun_induction blockLines mode number skip ls with
  | case1 number skip => simp only [blockLines, Except.mapError, Except.map, List.map_nil]
  | case2 number line more skip ih => rw [blockLines, hstep, ih]
  | case3 number line more hl ih =>
    rw [blockLines_line hl, hstep, ih]
    cases blockLines mode (number + 1) 0 more <;> rfl
  | case4 number line more form expression hl count hc ih =>
    rw [blockLines_envelope hl hc, hstep, ih]
    cases blockLines mode (number + 1) (count + 1) more <;> rfl
  | case5 number line more form expression hl hc hm =>
    subst hm
    rw [blockLines_reject hl hc]
    rfl
  | case6 number line more form expression hl hc hm =>
    subst hm
    rw [blockLines_absorb hl hc]
    rfl

/-! ### Lines in front of others -/

section

variable {opening closing : Text} {body after : List Text}

/-- The lines of an envelope and those after it. -/
theorem envelope_lines_append (rest : List Text) :
    opening :: (body ++ closing :: after) ++ rest =
      opening :: (body ++ closing :: (after ++ rest)) := by
  simp only [List.cons_append, List.append_assoc]

theorem envelope_lines_length (number : Nat) :
    number + (opening :: (body ++ closing :: after)).length =
      number + body.length + 2 + after.length := by
  simp only [List.length_cons, List.length_append]
  omega

/-- Where an envelope in front of further lines ends does not depend on those, unless they hold the
tag that closes it. -/
theorem closingLine?_before {form : TagForm} {rest rest' : List Text}
    (h : closingLine? form (body ++ closing :: (after ++ rest)) = some body.length)
    (hr : ∀ depth, balancedClose? form depth rest = none →
      balancedClose? form depth rest' = none) :
    closingLine? form (body ++ closing :: (after ++ rest')) = some body.length := by
  have hassoc : ∀ rest, body ++ closing :: (after ++ rest) = (body ++ closing :: after) ++ rest :=
    fun rest => by simp only [List.append_assoc, List.cons_append]
  have hlt : body.length < (body ++ closing :: after).length := by
    simp only [List.length_append, List.length_cons]
    omega
  rw [hassoc] at h ⊢
  exact TagForm.closingLine?_congr h hlt hr

end

/-- The blocks that lines are read as, from the line `number` on, when `rest` comes after them and
each envelope ends within them. -/
inductive ReadsBefore (rest : List Text) : (number : Nat) → List Text → List Block → Prop
  | nil {number} : ReadsBefore rest number [] []
  | line {number t more blocks} : openingTag? t = none → ReadsBefore rest (number + 1) more blocks →
    ReadsBefore rest number (t :: more) (.line t :: blocks)
  | closed {number form expression opening body closing after blocks} :
    openingTag? opening = some (form, expression) → form.closes closing = true →
    closingLine? form (body ++ closing :: (after ++ rest)) = some body.length →
    ReadsBefore rest (number + body.length + 2) after blocks →
    ReadsBefore rest number (opening :: (body ++ closing :: after))
      (.directive (Directive.ofLines form expression number opening body closing) :: blocks)

namespace ReadsBefore

variable {rest rest' ls : List Text} {number : Nat} {blocks blocks' : List Block}

/-- The lines and those after them are read one after the other. -/
theorem blockLines_append (h : ReadsBefore rest number ls blocks) (mode : Unterminated) :
    blockLines mode number 0 (ls ++ rest) =
      (blockLines mode (number + ls.length) 0 rest).map (blocks ++ ·) := by
  induction h with
  | @nil number =>
    rw [List.nil_append, List.length_nil, Nat.add_zero]
    cases blockLines mode number 0 rest <;> rfl
  | @line number t more blocks hl _ ih =>
    have hn : number + 1 + more.length = number + (t :: more).length := by
      simp only [List.length_cons]
      omega
    rw [List.cons_append, blockLines_line hl, ih, hn]
    cases blockLines mode _ 0 rest <;> rfl
  | closed hl _ hc _ ih =>
    rw [envelope_lines_append, blockLines_closed hl hc, ih, envelope_lines_length]
    cases blockLines mode _ 0 rest <;> rfl

/-- Of the lines after it only matters to the reading whether they close a tag that is left open. -/
theorem congr (h : ReadsBefore rest number ls blocks)
    (hr : ∀ form depth, balancedClose? form depth rest = none →
      balancedClose? form depth rest' = none) : ReadsBefore rest' number ls blocks := by
  induction h with
  | nil => exact .nil
  | line hl _ ih => exact .line hl ih
  | @closed number form expression opening body closing after blocks hl hcl hc _ ih =>
    exact .closed hl hcl (closingLine?_before hc (hr form)) ih

/-- The lines are read as they are alone. -/
theorem alone (h : ReadsBefore rest number ls blocks) : ReadsBefore [] number ls blocks :=
  h.congr fun _ _ _ => rfl

theorem blockLines_eq (h : ReadsBefore rest number ls blocks) (mode : Unterminated) :
    blockLines mode number 0 ls = .ok blocks := by
  have ha := h.alone.blockLines_append mode
  rw [List.append_nil] at ha
  rw [ha]
  simp only [blockLines, Except.map, List.append_nil]

/-- Two endings, in front of which the envelopes end within the lines, do not change the reading. -/
theorem unique (h : ReadsBefore rest number ls blocks) (h' : ReadsBefore rest' number ls blocks') :
    blocks = blocks' :=
  Except.ok.inj ((h.blockLines_eq .absorb).symm.trans (h'.blockLines_eq .absorb))

theorem append {before after : List Text} {first more : List Block}
    (h : ReadsBefore (after ++ rest) number before first)
    (h' : ReadsBefore rest (number + before.length) after more) :
    ReadsBefore rest number (before ++ after) (first ++ more) := by
  induction h with
  | nil => exact h'
  | @line number t ls blocks hl _ ih =>
    have hn : number + 1 + ls.length = number + (t :: ls).length := by
      simp only [List.length_cons]
      omega
    exact .line hl (ih (hn ▸ h'))
  | closed hl hcl hc _ ih =>
    rw [envelope_lines_append]
    rw [envelope_lines_length] at h'
    refine .closed hl hcl ?_ (ih h')
    rw [List.append_assoc]
    exact hc

theorem isEmpty (h : ReadsBefore rest number ls blocks) : blocks.isEmpty = ls.isEmpty := by
  cases h <;> rfl

/-- A blank last line is a block of its own. -/
theorem of_concat_blank {line : Text} (hb : Text.isBlankLine line = true)
    (h : ReadsBefore rest number (ls ++ [line]) blocks) :
    ∃ first, blocks = first ++ [.line line] ∧ ReadsBefore rest number ls first := by
  generalize hls : ls ++ [line] = all at h
  induction h generalizing ls with
  | nil => simp at hls
  | @line number t more blocks ht hm ih =>
    cases ls with
    | nil =>
      obtain ⟨rfl, rfl⟩ := List.cons.inj hls
      cases hm
      exact ⟨[], rfl, .nil⟩
    | cons first ls =>
      obtain ⟨rfl, hmore⟩ := List.cons.inj hls
      obtain ⟨first, rfl, hr⟩ := ih hmore
      exact ⟨.line _ :: first, rfl, .line ht hr⟩
  | @closed number form expression opening body closing after blocks ho hcl hc _ ih =>
    -- the last line is not the closing tag, so it comes after the envelope
    rcases List.eq_nil_or_concat' after with rfl | ⟨after, last, rfl⟩
    · have hlast : ls ++ [line] = (opening :: body) ++ [closing] := hls
      obtain ⟨-, hline⟩ := List.append_inj' hlast rfl
      cases hline
      rw [TagForm.not_isBlankLine_of_closes hcl] at hb
      cases hb
    · rw [← envelope_lines_append] at hls
      obtain ⟨rfl, hline⟩ := List.append_inj' hls rfl
      cases hline
      obtain ⟨first, rfl, hr⟩ := ih rfl
      rw [List.append_assoc] at hc
      refine ⟨.directive _ :: first, rfl, .closed ho hcl (closingLine?_before hc ?_) hr⟩
      intro depth hn
      have hopen : form.openAfter depth [line] = some depth :=
        TagForm.openAfter_skip (TagForm.isTag_of_isBlankLine hb) depth []
      rwa [TagForm.balancedClose?_pass hopen, Option.map_eq_none_iff] at hn

end ReadsBefore

/-- Lines without opening tags are read as they are. -/
theorem readsBefore_lines {ls : List Text} (h : ∀ line ∈ ls, openingTag? line = none)
    (rest : List Text) (number : Nat) : ReadsBefore rest number ls (ls.map .line) := by
  induction ls generalizing number with
  | nil => exact .nil
  | cons line ls ih =>
    obtain ⟨hline, hmore⟩ := List.forall_mem_cons.mp h
    exact .line hline (ih hmore _)

/-- An envelope whose own tags balance is read as one, whatever comes after it. -/
theorem readsBefore_envelope {form : TagForm} {expression opening closing : Text}
    {body : List Text} (ho : openingTag? opening = some (form, expression))
    (hb : form.Balanced body) (hc : form.closes closing = true) (rest : List Text) (number : Nat) :
    ReadsBefore rest number (opening :: (body ++ [closing]))
      [.directive (Directive.ofLines form expression number opening body closing)] :=
  .closed ho hc (TagForm.closingLine?_append hc ([] ++ rest) hb) .nil

/-- Where all envelopes are closed and balance, the lines are read in the same way before others. -/
theorem Reads.readsBefore {number : Nat} {ls : List Text} {blocks : List Block}
    (h : Reads number ls blocks) (hn : ∀ line ∈ ls, '\n' ∉ line)
    (hb : ∀ d, .directive d ∈ blocks → d.isTerminated = true ∧ d.form.Balanced d.body.lines)
    (rest : List Text) : ReadsBefore rest number ls blocks := by
  induction h with
  | nil => exact .nil
  | line ht _ ih =>
    have hmore := (List.forall_mem_cons.mp hn).2
    exact .line ht (ih hmore fun d hd => hb d (List.mem_cons_of_mem _ hd))
  | @closed number form expression opening body closing after blocks ho hcl _ _ ih =>
    have hbody : ∀ line ∈ body, '\n' ∉ line := fun line hl => hn line (by simp [hl])
    have hafter : ∀ line ∈ after, '\n' ∉ line := fun line hl => hn line (by simp [hl])
    have hbal := (hb _ (List.mem_cons_self ..)).2
    rw [Directive.ofLines, balanced_body hbody] at hbal
    exact .closed ho hcl (TagForm.closingLine?_append hcl _ hbal)
      (ih hafter fun d hd => hb d (List.mem_cons_of_mem _ hd))
  | unclosed _ _ =>
    obtain ⟨ht, -⟩ := hb _ (List.mem_cons_self ..)
    cases ht

/-- An envelope that is found starts where the lines in front of it have been read. -/
theorem Reads.exists_before {number : Nat} {ls : List Text} {blocks : List Block} {d : Directive}
    (h : Reads number ls blocks) (hd : .directive d ∈ blocks) :
    ∃ before rest first, ls = before ++ rest ∧ d.line = number + before.length ∧
      ReadsBefore rest number before first := by
  induction h with
  | nil => exact absurd hd List.not_mem_nil
  | @line number t more blocks hl _ ih =>
    have hmem : Block.directive d ∈ blocks := by simpa using hd
    obtain ⟨before, rest, first, rfl, hline, hr⟩ := ih hmem
    refine ⟨t :: before, rest, .line t :: first, rfl, ?_, .line hl hr⟩
    rw [hline, List.length_cons]
    omega
  | @closed number form expression opening body closing after blocks hl hcl hc _ ih =>
    rcases List.mem_cons.mp hd with he | hmem
    · cases he
      exact ⟨[], _, [], rfl, rfl, .nil⟩
    · obtain ⟨before, rest, first, rfl, hline, hr⟩ := ih hmem
      refine ⟨opening :: (body ++ closing :: before), rest, _, ?_, ?_, .closed hl hcl hc hr⟩
      · rw [envelope_lines_append]
      · rw [hline, envelope_lines_length]
  | unclosed hl hc =>
    cases List.mem_singleton.mp hd
    exact ⟨[], _, [], rfl, rfl, .nil⟩

end MarkdownDirectives
