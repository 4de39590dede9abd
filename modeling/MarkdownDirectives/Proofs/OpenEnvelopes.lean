import MarkdownDirectives.Proofs.Reading
import MarkdownDirectives.Proofs.Nesting

/-!
# Open envelopes

Splitting comes at most once to an opening tag that nothing after it closes, and then it ends there:
in lenient mode the envelope takes the rest of the text, in strict mode it is the error. The two
modes differ in nothing else. A document is split before any of its envelopes is evaluated, so a
document that is rejected leaves no trace in the context.
-/

namespace MarkdownDirectives

/-! ### Envelopes without a closing tag -/

namespace Fragment

def unclosed? : Fragment → Option Directive
  | text _ => none
  | directive d => if d.isTerminated then none else some d

/-- The envelopes that have no closing tag. -/
def unclosed (fragments : List Fragment) : List Directive := fragments.filterMap unclosed?

theorem mem_unclosed {fragments : List Fragment} {d : Directive} :
    d ∈ unclosed fragments ↔ directive d ∈ fragments ∧ d.isTerminated = false := by
  have hopen : ∀ fragment, unclosed? fragment = some d ↔
      fragment = directive d ∧ d.isTerminated = false := by
    intro fragment
    cases fragment with
    | text t => simp [unclosed?]
    | directive e =>
      by_cases he : e.isTerminated = true
      · have hne : e = d → d.isTerminated = true := fun h => h ▸ he
        simpa [unclosed?, he] using hne
      · have heq : e = d → d.isTerminated = false := fun h => Bool.not_eq_true _ ▸ h ▸ he
        simpa [unclosed?, he] using heq
  simp only [unclosed, List.mem_filterMap, hopen]
  constructor
  · rintro ⟨fragment, hm, rfl, hd⟩
    exact ⟨hm, hd⟩
  · rintro ⟨hm, hd⟩
    exact ⟨_, hm, rfl, hd⟩

theorem unclosed_eq_nil_iff {fragments : List Fragment} :
    unclosed fragments = [] ↔ ∀ d, directive d ∈ fragments → d.isTerminated = true := by
  rw [List.eq_nil_iff_forall_not_mem]
  simp only [mem_unclosed, not_and, Bool.not_eq_false]

theorem unclosed_consText (t : Text) (fragments : List Fragment) :
    unclosed (consText t fragments) = unclosed fragments :=
  apply_consText (fun _ _ => rfl) t fragments

end Fragment

/-- Splitting comes to the opening tag line with the number `line`, and no line after it closes its
form. -/
def Text.LeavesOpen (t : Text) (expression : Text) (line : Nat) : Prop :=
  ∃ before opening more first form, t.lines = before ++ opening :: more ∧
    ReadsBefore (opening :: more) 1 before first ∧ line = before.length + 1 ∧
    TagForm.IsOpening form expression opening ∧ ∀ l ∈ more, ¬ TagForm.IsClosing form l

/-! ### Reading up to the open envelope -/

section

variable {number : Nat} {ls : List Text} {blocks : List Block}

/-- Either all envelopes end within the lines, or the lines in front of one are read, and nothing
closes that one. -/
theorem Reads.readsBefore_or_open (h : Reads number ls blocks) :
    ReadsBefore [] number ls blocks ∨
      ∃ before opening more first form expression, ls = before ++ opening :: more ∧
        ReadsBefore (opening :: more) number before first ∧
        openingTag? opening = some (form, expression) ∧ closingLine? form more = none := by
  induction h with
  | nil => exact .inl .nil
  | @line number t ls blocks ht _ ih =>
    rcases ih with hr | ⟨before, opening, more, first, form, expression, rfl, hr, ho, hc⟩
    · exact .inl (.line ht hr)
    · exact .inr ⟨t :: before, opening, more, _, form, expression, rfl, .line ht hr, ho, hc⟩
  | @closed number form' expression' opening' body closing after blocks ht hcl hclosed _ ih =>
    rcases ih with hr | ⟨before, opening, more, first, form, expression, rfl, hr, ho, hc⟩
    · rw [← List.append_nil after] at hclosed
      exact .inl (.closed ht hcl hclosed hr)
    · refine .inr ⟨opening' :: (body ++ closing :: before), opening, more, _, form, expression,
        ?_, .closed ht hcl hclosed hr, ho, hc⟩
      rw [envelope_lines_append]
  | unclosed ho hc => exact .inr ⟨[], _, _, [], _, _, rfl, .nil, ho, hc⟩

theorem ReadsBefore.unclosed_gather {rest : List Text} (h : ReadsBefore rest number ls blocks)
    (more : List Block) :
    Fragment.unclosed (Block.gather (blocks ++ more)) = Fragment.unclosed (Block.gather more) := by
  have hskip : ∀ {d : Directive} {fragments : List Fragment}, d.isTerminated = true →
      Fragment.unclosed (.directive d :: fragments) = Fragment.unclosed fragments := by
    intro d fragments hd
    have hnone : Fragment.unclosed? (.directive d) = none := if_pos hd
    exact List.filterMap_cons_none hnone
  induction h with
  | nil => rfl
  | line _ _ ih =>
    rw [List.cons_append, Block.gather, Fragment.unclosed_consText, ih]
  | closed _ _ _ _ ih =>
    rw [List.cons_append, Block.gather, hskip rfl, Fragment.unclosed_consText, ih]

end

/-! ### Splitting in the two modes -/

section

variable {t expression : Text} {line : Nat}

/-- Where every envelope is closed both modes split alike. -/
theorem split_of_readsBefore {blocks : List Block} (h : ReadsBefore [] 1 t.lines blocks) :
    (∀ mode, split mode t = .ok (Block.gather blocks)) ∧
      Fragment.unclosed (Block.gather blocks) = [] := by
  have hu := h.unclosed_gather []
  rw [List.append_nil] at hu
  exact ⟨fun mode => split_of_blockLines (h.blockLines_eq mode), hu⟩

/-- An open envelope is the last fragment in lenient mode, and it is the error in strict mode. -/
theorem split_of_leavesOpen (h : t.LeavesOpen expression line) :
    (∃ fragments d, split .absorb t = .ok fragments ∧ Fragment.unclosed fragments = [d] ∧
        d.expression = expression ∧ d.line = line) ∧
      split .reject t = .error (.unterminatedDirective expression line) := by
  obtain ⟨before, opening, more, first, form, hls, hr, rfl, ho, hc⟩ := h
  have hopens := openingTag?_eq_some_iff.mpr ho
  have hnone := TagForm.closingLine?_eq_none_iff.mpr hc
  rw [Nat.add_comm]
  constructor
  · have hb : blockLines .absorb 1 0 t.lines = .ok (first ++
        [.directive (openEnvelope form expression opening (1 + before.length) more)]) := by
      rw [hls, hr.blockLines_append, blockLines_absorb hopens hnone]
      rfl
    refine ⟨_, _, split_of_blockLines hb, hr.unclosed_gather _, rfl, rfl⟩
  · rw [split_eq_gather, hls, hr.blockLines_append, blockLines_reject hopens hnone]
    rfl

/-- In every text all envelopes are closed, or one is left open. -/
theorem Text.readsBefore_or_leavesOpen (t : Text) :
    (∃ blocks, ReadsBefore [] 1 t.lines blocks) ∨
      ∃ expression line, t.LeavesOpen expression line := by
  obtain ⟨blocks, hb⟩ := exists_blockLines_absorb 1 0 t.lines
  rcases (reads_of_blockLines hb).readsBefore_or_open with
    hr | ⟨before, opening, more, first, form, expression, hls, hr, ho, hc⟩
  · exact .inl ⟨blocks, hr⟩
  · refine .inr ⟨expression, before.length + 1, before, opening, more, first, form, hls, hr, rfl,
      openingTag?_eq_some_iff.mp ho, TagForm.closingLine?_eq_none_iff.mp hc⟩

/-- What the two modes make of a text: strict mode gives the fragments of lenient mode if each
envelope in them is closed, and else the only one that is not closed as the error. -/
structure Text.SplitsAs (t : Text) (fragments : List Fragment) : Prop where
  absorb : split .absorb t = .ok fragments
  accepted : ∀ fragments', split .reject t = .ok fragments' ↔
    fragments' = fragments ∧ ∀ d, .directive d ∈ fragments → d.isTerminated = true
  rejected : ∀ e, split .reject t = .error e ↔
    ∃ d, Fragment.unclosed fragments = [d] ∧ e = .unterminatedDirective d.expression d.line
  leavesOpen : ∀ expression line, t.LeavesOpen expression line ↔
    ∃ d, Fragment.unclosed fragments = [d] ∧ d.expression = expression ∧ d.line = line

theorem Text.exists_splitsAs (t : Text) : ∃ fragments, t.SplitsAs fragments := by
  rcases t.readsBefore_or_leavesOpen with ⟨blocks, hr⟩ | ⟨expression, line, ho⟩
  · obtain ⟨hs, hu⟩ := split_of_readsBefore hr
    have hnone : ∀ d, Fragment.unclosed (Block.gather blocks) ≠ [d] := fun d => by simp [hu]
    have hclosed : ∀ expression line, ¬ t.LeavesOpen expression line := by
      intro expression line ho
      have he := (split_of_leavesOpen ho).2
      rw [hs] at he
      cases he
    refine ⟨Block.gather blocks, hs .absorb, fun fragments' => ?_, fun e => ?_,
      fun expression line => ?_⟩
    · rw [hs, ← Fragment.unclosed_eq_nil_iff, and_iff_left hu, Except.ok.injEq, eq_comm]
    · rw [hs]
      exact iff_of_false (fun h => by cases h) fun ⟨d, hd, _⟩ => hnone d hd
    · exact iff_of_false (hclosed expression line) fun ⟨d, hd, _⟩ => hnone d hd
  · obtain ⟨⟨fragments, d, ha, hu, rfl, rfl⟩, hs⟩ := split_of_leavesOpen ho
    have hone : ∀ d', Fragment.unclosed fragments = [d'] ↔ d = d' := fun d' => by simp [hu]
    refine ⟨fragments, ha, fun fragments' => ?_, fun e => ?_, fun expression line => ?_⟩
    · rw [hs, ← Fragment.unclosed_eq_nil_iff, hu]
      exact iff_of_false (fun h => by cases h) fun ⟨_, hd⟩ => by cases hd
    · simp only [hs, hone, exists_eq_left', Except.error.injEq, eq_comm]
    · simp only [hone, exists_eq_left']
      constructor
      · intro ho'
        have he := (split_of_leavesOpen ho').2
        rw [hs] at he
        cases he
        exact ⟨rfl, rfl⟩
      · rintro ⟨rfl, rfl⟩
        exact ho

end

/-! ### Parsing in the two modes -/

section

variable {world : World} {source : Text} {context : Context}

theorem parse_of_split_error {e : Error}
    (h : split context.options.unterminated source.normalizeLineBreaks = .error e) :
    parse world source context = (.error e, context) := render_of_error h

theorem exists_parse_eq_ok {fragments : List Fragment}
    (h : split context.options.unterminated source.normalizeLineBreaks = .ok fragments) :
    ∃ output after, parse world source context = (.ok output, after) :=
  ⟨_, _, render_of_ok h⟩

theorem not_enters_of_split_error {e : Error} {isDocument : Bool} {moment : Moment}
    (h : split context.options.unterminated source.normalizeLineBreaks = .error e) :
    ¬ Enters world (.render source isDocument, context) moment := by
  intro he
  cases he with
  | within hc =>
    cases hc with
    | directive hs =>
      rw [h] at hs
      cases hs

end

/-- Strict mode only rejects. Every text splits in lenient mode; strict mode gives the same
fragments if none of the envelopes is left open, and names the one that is. A document is parsed in
lenient mode in any case, and in strict mode unless it leaves an envelope open; then nothing is
evaluated and the context stays. -/
theorem strict_only_rejects (world : World) (source : Text) (context : Context) :
    (∃ fragments, source.SplitsAs fragments) ∧
      (context.options.unterminated = .absorb →
        ∃ output after, parse world source context = (.ok output, after)) ∧
      (context.options.unterminated = .reject →
        ((∃ output after, parse world source context = (.ok output, after)) ↔
            ∀ expression line, ¬ source.normalizeLineBreaks.LeavesOpen expression line) ∧
          ∀ expression line, source.normalizeLineBreaks.LeavesOpen expression line →
            parse world source context =
                (.error (.unterminatedDirective expression line), context) ∧
              ∀ moment, ¬ Enters world (.render source true, context) moment) := by
  obtain ⟨fragments, hs⟩ := source.normalizeLineBreaks.exists_splitsAs
  refine ⟨source.exists_splitsAs, fun hm => ?_, fun hm => ⟨?_, fun expression line ho => ?_⟩⟩
  · exact exists_parse_eq_ok (hm ▸ hs.absorb)
  · constructor
    · rintro ⟨output, after, hp⟩ expression line ho
      rw [parse_of_split_error (hm ▸ (split_of_leavesOpen ho).2)] at hp
      cases hp
    · intro hnone
      rcases source.normalizeLineBreaks.readsBefore_or_leavesOpen with
        ⟨blocks, hr⟩ | ⟨expression, line, ho⟩
      · exact exists_parse_eq_ok ((split_of_readsBefore hr).1 _)
      · exact absurd ho (hnone expression line)
  · have he := hm ▸ (split_of_leavesOpen ho).2
    exact ⟨parse_of_split_error he, fun moment => not_enters_of_split_error he⟩

/-- An envelope that is closed, and one of the other form that only a tag of the first form follows.
-/
def openSource : Text := "<? @alias('a') ?>\n<?!>\n<!--? b ?-->\nx\n<?!>".toList

def strictContext : Context := Context.new ⟨⟨[]⟩, [], 0⟩ [] ['/'] { unterminated := .reject }

theorem strict_openSource :
    strictContext.options.unterminated = .reject ∧
      openSource.normalizeLineBreaks.LeavesOpen ['b'] 3 ∧
      parse ⟨⟨[]⟩, [], 0⟩ openSource strictContext =
        (.error (.unterminatedDirective ['b'] 3), strictContext) := by
  obtain ⟨⟨fragments, hs⟩, -, -⟩ :=
    strict_only_rejects ⟨⟨[]⟩, [], 0⟩ openSource.normalizeLineBreaks strictContext
  obtain ⟨-, -, hreject⟩ := strict_only_rejects ⟨⟨[]⟩, [], 0⟩ openSource strictContext
  have he : split .reject openSource.normalizeLineBreaks =
      .error (.unterminatedDirective ['b'] 3) := by
    decide +kernel
  obtain ⟨d, hd, hline⟩ := (hs.rejected _).mp he
  obtain ⟨hx, hn⟩ := Error.unterminatedDirective.inj hline
  have ho := (hs.leavesOpen ['b'] 3).mpr ⟨d, hd, hx.symm, hn.symm⟩
  exact ⟨rfl, ho, ((hreject rfl).2 _ _ ho).1⟩

end MarkdownDirectives
