import Mathlib.Data.List.Chain
import MarkdownDirectives.Proofs.Frame
import MarkdownDirectives.Proofs.Splitting
import MarkdownDirectives.Proofs.StaleBody
import MarkdownDirectives.Proofs.Wrapping

/-!
# Failing directives

A diagnostic quotes texts that come from the directive, and these may hold line feeds. Its first and
its last line belong to the comment and are no tags, and no line of it closes a commented envelope,
as no two dashes stand side by side in the message. The lines between can be raw tags. A failing
directive therefore stays inside its envelope exactly if these lines balance or close nothing.
-/

namespace MarkdownDirectives

/-! ### Closing at the last line -/

namespace TagForm

variable {form : TagForm} {ls : List Text}

theorem openAfter_unclosed (h : ∀ line ∈ ls, form.closes line = false) (depth : Nat) :
    ∃ more, form.openAfter depth ls = some (depth + more) := by
  induction ls generalizing depth with
  | nil => exact ⟨0, rfl⟩
  | cons line ls ih =>
    obtain ⟨hline, hmore⟩ := List.forall_mem_cons.mp h
    simp only [openAfter, hline, Bool.false_eq_true, if_false]
    split
    · obtain ⟨more, hm⟩ := ih hmore (depth + 1)
      refine ⟨more + 1, ?_⟩
      rw [hm]
      congr 1
      omega
    · exact ih hmore depth

/-- Tags around the lines enclose all of them: their own tags balance or close nothing. -/
def Encloses (form : TagForm) (ls : List Text) : Prop :=
  form.Balanced ls ∨ ∀ line ∈ ls, form.closes line = false

instance (form : TagForm) (ls : List Text) : Decidable (form.Encloses ls) :=
  inferInstanceAs (Decidable (_ ∨ _))

theorem openAfter_filter (depth : Nat) (ls : List Text) :
    form.openAfter depth (ls.filter form.isTag) = form.openAfter depth ls := by
  induction ls generalizing depth with
  | nil => rfl
  | cons line ls ih =>
    cases ht : form.isTag line with
    | false => rw [List.filter_cons_of_neg (by simp [ht]), openAfter_skip ht, ih]
    | true =>
      rw [List.filter_cons_of_pos ht]
      simp only [openAfter, ih]

/-- Only the tags among the lines matter. -/
theorem encloses_filter : form.Encloses (ls.filter form.isTag) ↔ form.Encloses ls := by
  refine or_congr ?_ ?_
  · rw [Balanced, openAfter_filter, Balanced]
  · constructor
    · intro h line hl
      cases ht : form.isTag line with
      | false => exact (Bool.or_eq_false_iff.mp ht).2
      | true => exact h line (List.mem_filter.mpr ⟨hl, ht⟩)
    · exact fun h line hl => h line (List.mem_of_mem_filter hl)

/-- The last of some lines closes the envelope if the lines before it balance or close nothing. -/
theorem closingLine?_concat {closing : Text} (hc : form.closes closing = true) :
    closingLine? form (ls ++ [closing]) = some ls.length ↔
      form.Balanced ls ∨ ∀ line ∈ ls, form.closes line = false := by
  cases ho : form.openAfter 0 ls with
  | none =>
    obtain ⟨count, hlt, hcount⟩ := balancedClose?_stop ho
    rw [closingLine?, hcount, Option.some_or, Option.some.injEq]
    constructor
    · intro he
      omega
    · rintro (hb | hu)
      · rw [Balanced, ho] at hb
        cases hb
      · obtain ⟨more, hm⟩ := openAfter_unclosed hu 0
        rw [ho] at hm
        cases hm
  | some depth =>
    cases depth with
    | zero => exact iff_of_true (closingLine?_append hc [] ho) (.inl ho)
    | succ depth =>
      -- too many tags are open for the last line to balance them
      have hopen : balancedClose? form (depth + 1) [closing] = none := by
        simp [balancedClose?, hc]
      have hunbalanced : ¬ form.Balanced ls := by
        rw [Balanced, ho]
        simp
      rw [closingLine?, balancedClose?_pass ho, hopen, Option.map_none, Option.none_or,
        List.findIdx?_append, or_iff_right hunbalanced]
      cases hf : ls.findIdx? form.closes with
      | none =>
        have hu := List.findIdx?_eq_none_iff.mp hf
        simpa [hc] using hu
      | some count =>
        obtain ⟨hlt, hcloses, -⟩ := List.findIdx?_eq_some_iff_getElem.mp hf
        rw [Option.some_or, Option.some.injEq]
        refine iff_of_false (by omega) fun hu => ?_
        rw [hu _ (List.getElem_mem hlt)] at hcloses
        cases hcloses

end TagForm

section

variable {mode : Unterminated} {form : TagForm} {expression : Text} {body : List Text}

theorem lines_wrap (form : TagForm) (hn : '\n' ∉ expression) (hb : ∀ line ∈ body, '\n' ∉ line) :
    Text.lines (form.wrap expression ('\n' :: terminateLines body)) =
      form.openTag expression :: (body ++ [form.closeTag]) := by
  have hopening : '\n' ∉ form.openTag expression :=
    TagForm.not_mem_openTag (by cases form <;> decide) hn
  have hclosing : '\n' ∉ form.closeTag := by cases form <;> decide
  have hnone : ∀ line ∈ ([] : List Text), '\n' ∉ line := fun _ h => absurd h List.not_mem_nil
  have hend : Text.StartsBreak [] := .inl rfl
  have hl := Text.lines_envelope hnone hopening hb hclosing hend
  rw [List.append_nil] at hl
  exact hl

/-- The closing tag after a body ends the envelope, or a closing tag in the body does. -/
theorem exists_closingLine? (form : TagForm) (body : List Text) :
    ∃ before closing after, before <+: body ∧
      body ++ [form.closeTag] = before ++ closing :: after ∧
      closingLine? form (body ++ [form.closeTag]) = some before.length := by
  obtain ⟨count, hcount⟩ : ∃ count, closingLine? form (body ++ [form.closeTag]) = some count := by
    cases hc : closingLine? form (body ++ [form.closeTag]) with
    | some count => exact ⟨count, rfl⟩
    | none =>
      have hu := List.findIdx?_eq_none_iff.mp (Option.or_eq_none_iff.mp hc).2
      have hlast := hu form.closeTag (by simp)
      rw [form.closes_closeTag] at hlast
      cases hlast
  obtain ⟨before, closing, after, hbody, rfl, hcl⟩ := TagForm.of_closingLine? hcount
  have hlength := congrArg List.length hbody
  simp only [List.length_append, List.length_cons, List.length_nil] at hlength
  have hprefix : before <+: body ++ [form.closeTag] := ⟨closing :: after, hbody.symm⟩
  exact ⟨before, closing, after,
    List.prefix_of_prefix_length_le hprefix (List.prefix_append ..) (by omega), hbody, hcount⟩

/-- Whatever stands in the tags, an envelope with their expression is found first. -/
theorem split_wrap_first (hn : '\n' ∉ expression) (he : expression.Unspaced)
    (hb : ∀ line ∈ body, '\n' ∉ line) :
    ∃ count closing after,
      body ++ [form.closeTag] = body.take count ++ closing :: after ∧ count ≤ body.length ∧
      closingLine? form (body ++ [form.closeTag]) = some count ∧
      split mode (form.wrap expression ('\n' :: terminateLines body)) =
        ((blockLines mode (count + 3) 0 after).map fun blocks =>
          .directive (Directive.ofLines form expression 1 (form.openTag expression)
              (body.take count) closing) ::
            Fragment.consText (Block.gap blocks) (Block.gather blocks)) := by
  have ho : openingTag? (form.openTag expression) = some (form, expression) :=
    openingTag?_eq_some_iff.mpr (form.isOpening_openTag he)
  obtain ⟨before, closing, after, hprefix, hbody, hcount⟩ := exists_closingLine? form body
  have htake : body.take before.length = before := (List.prefix_iff_eq_take.mp hprefix).symm
  refine ⟨before.length, closing, after, htake.symm ▸ hbody, hprefix.length_le, hcount, ?_⟩
  have hnumber : 1 + before.length + 2 = before.length + 3 := by omega
  rw [hbody] at hcount
  rw [split_eq_gather, lines_wrap form hn hb, hbody, blockLines_closed ho hcount, htake, hnumber]
  cases blockLines mode (before.length + 3) 0 after <;> rfl

theorem terminateLines_prefix {ls ls' : List Text} (h : ls <+: ls') :
    terminateLines ls <+: terminateLines ls' := by
  obtain ⟨more, rfl⟩ := h
  rw [terminateLines, terminateLines, List.flatMap_append]
  exact List.prefix_append _ _

/-- The lines of a body can be told from its text. -/
theorem eq_of_terminateLines {before : List Text} (h : before <+: body)
    (hb : ∀ line ∈ body, '\n' ∉ line)
    (he : '\n' :: terminateLines before = '\n' :: terminateLines body) : before = body := by
  have hfeeds := congrArg (List.count '\n') (List.cons.inj he).2
  have hbefore : ∀ line ∈ before, '\n' ∉ line := fun line hl => hb line (h.subset hl)
  rw [count_terminateLines hbefore, count_terminateLines hb] at hfeeds
  exact h.eq_of_length hfeeds

/-- A wrapped body is one envelope again exactly if its own tags balance or close nothing. -/
theorem split_wrap_iff (hn : '\n' ∉ expression) (he : expression.Unspaced)
    (hb : ∀ line ∈ body, '\n' ∉ line) :
    split mode (form.wrap expression ('\n' :: terminateLines body)) =
        .ok [.directive (form.wrapped expression ('\n' :: terminateLines body) 1)] ↔
      form.Balanced body ∨ ∀ line ∈ body, form.closes line = false := by
  obtain ⟨count, closing, after, hbody, hle, hcount, hsplit⟩ :=
    split_wrap_first hn he hb
  rw [← TagForm.closingLine?_concat form.closes_closeTag, hcount, Option.some.injEq, hsplit]
  constructor
  · intro h
    obtain ⟨blocks, -, hblocks⟩ := exists_of_map_eq_ok h
    have hd := Fragment.directive.inj (List.cons.inj hblocks).1
    have htake := eq_of_terminateLines (List.take_prefix ..) hb (congrArg Directive.body hd)
    rw [← htake, List.length_take_of_le hle]
  · rintro rfl
    rw [List.take_length, List.append_cancel_left_eq] at hbody
    obtain ⟨rfl, rfl⟩ := List.cons.inj hbody
    rw [List.take_length, TagForm.ofLines_eq_wrapped]
    rfl

end

/-! ### The lines of a diagnostic -/

namespace Text

theorem exists_around_line {t line : Text} (h : line ∈ t.lines) :
    ∃ before after, t = before ++ line ++ after := by
  obtain ⟨first, more, hl⟩ := List.append_of_mem h
  have ht := ofLines_lines t
  rw [hl] at ht
  cases more with
  | nil =>
    rw [ofLines_concat] at ht
    exact ⟨terminateLines first, [], by rw [List.append_nil, ht]⟩
  | cons next more =>
    have hfront : first ++ line :: next :: more = (first ++ [line]) ++ next :: more := by simp
    rw [hfront, ofLines_append (by simp) (by simp), ofLines_concat] at ht
    exact ⟨terminateLines first, '\n' :: ofLines (next :: more), ht.symm⟩

theorem mem_of_mem_trim {t : Text} {c : Char} (h : c ∈ t.trim) : c ∈ t := by
  obtain ⟨left, right, ht, -, -⟩ := exists_trimWhile (p := isBlank) t
  rw [ht]
  simp [show c ∈ trimWhile isBlank t from h]

end Text

namespace TagForm

variable {form : TagForm}

/-- Only blanks can follow a tag, so a line that ends in a bracket ends in the tag. -/
theorem suffix_of_isTag {u : Text} (h : form.isTag (u ++ ['>']) = true) :
    form.endMark <:+ u ++ ['>'] ∨ form.closeTag <:+ u ++ ['>'] := by
  have hend : ∀ {tag after : Text}, Text.IsSpacing after → u ++ ['>'] = tag ++ after →
      tag = u ++ ['>'] := by
    intro tag after ha he
    rcases List.eq_nil_or_concat' after with rfl | ⟨after, last, rfl⟩
    · rw [List.append_nil] at he
      exact he.symm
    · rw [← List.append_assoc] at he
      obtain ⟨-, hlast⟩ := List.append_inj' he rfl
      cases hlast
      exact absurd (ha '>' (by simp)) (by decide)
  rcases Bool.or_eq_true_iff.mp h with ho | hc
  · obtain ⟨expression, hx⟩ := Option.isSome_iff_exists.mp ho
    obtain ⟨-, left, right, after, -, -, ha, he⟩ := opening?_eq_some_iff.mp hx
    rw [← hend ha he]
    exact .inl (List.suffix_append _ _)
  · obtain ⟨after, ha, he⟩ := closes_iff.mp hc
    rw [← hend ha he]
    exact .inr List.suffix_rfl

end TagForm

namespace Diagnostic

/-- The lines of a message other than the first and the last one. -/
def innerLines (message : Text) : List Text := (payload message).lines.tail.dropLast

/-- The tags of the form among the inner lines of a message balance or close nothing. -/
def Contained (form : TagForm) (message : Text) : Prop :=
  form.Balanced (innerLines message) ∨ ∀ line ∈ innerLines message, form.closes line = false

instance (form : TagForm) (message : Text) : Decidable (Contained form message) :=
  inferInstanceAs (Decidable (_ ∨ _))

theorem isTag_comment_start (form : TagForm) (t : Text) :
    form.isTag ("<!-- `".toList ++ t) = false := by
  refine Bool.eq_false_iff.mpr fun h => ?_
  have hp := TagForm.prefix_of_isTag h
  cases form <;> simp [TagForm.openMark] at hp

theorem isTag_comment_end (form : TagForm) (t : Text) :
    form.isTag (t ++ "` -->".toList) = false := by
  refine Bool.eq_false_iff.mpr fun h => ?_
  have hline : t ++ "` -->".toList = (t ++ "` --".toList) ++ ['>'] := by simp
  rw [hline] at h
  rcases TagForm.suffix_of_isTag h with ⟨u, hu⟩ | ⟨u, hu⟩
  · have hr := congrArg List.reverse hu
    cases form <;> simp [TagForm.endMark] at hr
  · have hr := congrArg List.reverse hu
    cases form <;> simp [TagForm.closeTag] at hr

/-- Around the inner lines stand lines that are no tags. -/
theorem body_eq_lines (message : Text) : ∃ first last : List Text,
    body message = '\n' :: terminateLines (first ++ innerLines message ++ last) ∧
      (∀ line ∈ first ++ innerLines message ++ last, '\n' ∉ line) ∧
      ∀ line ∈ first ++ last, ∀ form : TagForm, form.isTag line = false := by
  have hpayload := Text.ofLines_lines (payload message)
  have hfeed : ∀ line ∈ (payload message).lines, '\n' ∉ line := fun line hl =>
    Text.not_mem_of_mem_lines hl
  rw [innerLines, body]
  cases hls : (payload message).lines with
  | nil => exact absurd hls (Text.lines_ne_nil _)
  | cons start more =>
    rw [hls] at hpayload hfeed
    obtain ⟨hstart, hmore⟩ := List.forall_mem_cons.mp hfeed
    rcases List.eq_nil_or_concat' more with rfl | ⟨inner, stop, rfl⟩
    · have hsingle : payload message = start := hpayload.symm
      refine ⟨["<!-- `".toList ++ start ++ "` -->".toList], [], ?_, ?_, ?_⟩
      · rw [hsingle]
        simp [terminateLines]
      · simpa using hstart
      · intro line hl form
        cases List.mem_singleton.mp hl
        rw [List.append_assoc]
        exact isTag_comment_start form _
    · have hjoined : payload message = start ++ '\n' :: (terminateLines inner ++ stop) := by
        rw [← hpayload, ← ofLines_concat]
        exact Text.joinWith_cons (by simp)
      refine ⟨["<!-- `".toList ++ start], [stop ++ "` -->".toList], ?_, ?_, ?_⟩
      · rw [hjoined, List.tail_cons, List.dropLast_concat]
        simp [terminateLines]
      · intro line hl
        rw [List.tail_cons, List.dropLast_concat] at hl
        simp only [List.mem_append, List.mem_singleton] at hl
        rcases hl with (rfl | hl) | rfl
        · simpa using hstart
        · exact hmore line (by simp [hl])
        · simpa using hmore stop (by simp)
      · intro line hl form
        simp only [List.mem_append, List.mem_singleton] at hl
        rcases hl with rfl | rfl
        · exact isTag_comment_start form start
        · exact isTag_comment_end form stop

/-- The lines of the comment around the message change nothing about its tags. -/
theorem contained_iff {form : TagForm} {message : Text} {first last : List Text}
    (h : ∀ line ∈ first ++ last, ∀ form : TagForm, form.isTag line = false) :
    Contained form message ↔ form.Balanced (first ++ innerLines message ++ last) ∨
      ∀ line ∈ first ++ innerLines message ++ last, form.closes line = false := by
  have hnone : ∀ {ls : List Text}, (∀ line ∈ ls, line ∈ first ++ last) →
      ls.filter form.isTag = [] := fun hls =>
    List.filter_eq_nil_iff.mpr fun line hl => by simp [h line (hls line hl) form]
  have hfilter : (first ++ innerLines message ++ last).filter form.isTag =
      (innerLines message).filter form.isTag := by
    rw [List.filter_append, List.filter_append, hnone fun line hl => List.mem_append_left _ hl,
      hnone fun line hl => List.mem_append_right _ hl, List.nil_append, List.append_nil]
  have henclosed : form.Encloses (first ++ innerLines message ++ last) ↔
      form.Encloses (innerLines message) := by
    rw [← TagForm.encloses_filter, hfilter, TagForm.encloses_filter]
  exact henclosed.symm

/-! ### Dashes -/

/-- No two dashes stand side by side. -/
def Dashless (t : Text) : Prop := t.IsChain fun c d => ¬ (c = '-' ∧ d = '-')

theorem head?_separateDashes (t : Text) : (separateDashes t).head? = t.head? := by
  fun_cases separateDashes t <;> rfl

theorem dashless_separateDashes (t : Text) : Dashless (separateDashes t) := by
  fun_induction separateDashes t with
  | case1 rest ih =>
    refine .cons_cons (by decide) (List.isChain_cons.mpr ⟨?_, ih⟩)
    intro d _
    simp
  | case2 c rest hc ih =>
    refine List.isChain_cons.mpr ⟨?_, ih⟩
    rintro d hd ⟨rfl, rfl⟩
    rw [head?_separateDashes] at hd
    obtain ⟨more, rfl⟩ := List.head?_eq_some_iff.mp hd
    exact hc more rfl rfl
  | case3 => exact .nil

theorem mem_separateDashes {t : Text} {c : Char} (h : c ∈ separateDashes t) : c = ' ' ∨ c ∈ t := by
  fun_induction separateDashes t with
  | case1 rest ih =>
    simp only [List.mem_cons] at h ih ⊢
    tauto
  | case2 d rest _ ih =>
    simp only [List.mem_cons] at h ⊢
    tauto
  | case3 => exact absurd h List.not_mem_nil

theorem feed_not_mem_payload {message : Text} (h : '\n' ∉ message) : '\n' ∉ payload message := by
  intro hm
  rw [payload] at hm
  rcases mem_separateDashes hm with hc | hm
  · exact absurd hc (by decide)
  · split at hm
    · exact absurd hm (by decide)
    · exact h (Text.mem_of_mem_trim hm)

/-- A commented closing tag has two dashes side by side, so no line of a message is one. -/
theorem contained_commented (message : Text) : Contained .commented message := by
  refine .inr fun line hl => Bool.eq_false_iff.mpr fun hc => ?_
  have hline : line ∈ (payload message).lines :=
    List.mem_of_mem_tail (List.dropLast_subset _ hl)
  obtain ⟨before, after, hpayload⟩ := Text.exists_around_line hline
  have hall : Dashless (payload message) := dashless_separateDashes _
  rw [hpayload] at hall
  have hdash : Dashless line := hall.left_of_append.right_of_append
  obtain ⟨after, -, rfl⟩ := TagForm.closes_iff.mp hc
  simp [Dashless, TagForm.closeTag] at hdash

/-- A message of a single line has no inner lines. -/
theorem contained_of_not_mem {message : Text} (h : '\n' ∉ message) (form : TagForm) :
    Contained form message := by
  refine .inr fun line hl => ?_
  rw [innerLines, Text.lines_of_not_mem (feed_not_mem_payload h)] at hl
  exact absurd hl List.not_mem_nil

end Diagnostic

/-! ### Failing directives -/

section

variable {mode : Unterminated} {source : Text} {fragments : List Fragment} {d : Directive}
  {world : World} {nested : Text → Eval Text} {context after : Context} {e : Error}

/-- The expression of an envelope that splitting finds can be written in a tag again. -/
theorem expression_of_split (hs : split mode source = .ok fragments)
    (hd : .directive d ∈ fragments) : '\n' ∉ d.expression ∧ d.expression.Unspaced := by
  obtain ⟨front, more, hfragments⟩ := List.append_of_mem hd
  obtain ⟨opening, closing, -, hn, ho, -⟩ :=
    ((splitting_of_split hs).standsBetween front d more hfragments).written
  obtain ⟨he, left, right, after, -, -, -, rfl⟩ := ho
  exact ⟨fun hm => hn (by simp [hm]), he⟩

/-- A failing directive becomes its own tags around the diagnostic. Split again, this is one
envelope with the diagnostic as its body exactly if the tags of its form among the inner lines of
the message balance or close nothing, which holds of commented envelopes and of messages without
line feeds. In any case an envelope with the same form and expression is found first, and its body
is a part of the diagnostic. -/
theorem renderDirective_failed (hs : split mode source = .ok fragments)
    (hd : .directive d ∈ fragments) (hl : d.isLiteral = false) (hx : d.isDiscard = false)
    (he : evaluateText world nested d.expression context = (.error e, after)) :
    renderDirective world nested d context =
        (d.form.wrap d.expression (Diagnostic.body e.message), after) ∧
      (∀ mode', split mode' (d.form.wrap d.expression (Diagnostic.body e.message)) =
          .ok [.directive (d.form.wrapped d.expression (Diagnostic.body e.message) 1)] ↔
        Diagnostic.Contained d.form e.message) ∧
      (d.form = .commented ∨ '\n' ∉ e.message → Diagnostic.Contained d.form e.message) ∧
      ∃ found more,
        split .absorb (d.form.wrap d.expression (Diagnostic.body e.message)) =
            .ok (.directive found :: more) ∧
          found.form = d.form ∧ found.expression = d.expression ∧ found.isTerminated = true ∧
          found.body <+: Diagnostic.body e.message := by
  obtain ⟨hn, hspace⟩ := expression_of_split hs hd
  obtain ⟨first, last, hbody, hfeed, hframe⟩ := Diagnostic.body_eq_lines e.message
  refine ⟨?_, fun mode' => ?_, ?_, ?_⟩
  · have hgenerated := generatedBody_eq he
    rw [renderDirective_evaluated hl hx, hgenerated]
    rfl
  · rw [hbody, split_wrap_iff hn hspace hfeed, Diagnostic.contained_iff hframe]
  · rintro (hform | hmessage)
    · rw [hform]
      exact Diagnostic.contained_commented e.message
    · exact Diagnostic.contained_of_not_mem hmessage d.form
  · obtain ⟨count, closing, rest, -, -, -, hsplit⟩ := split_wrap_first hn hspace hfeed
    obtain ⟨blocks, hblocks⟩ := exists_blockLines_absorb (count + 3) 0 rest
    rw [hblocks] at hsplit
    rw [hbody]
    refine ⟨_, _, hsplit, rfl, rfl, rfl, ?_⟩
    exact List.cons_prefix_cons.mpr ⟨rfl, terminateLines_prefix (List.take_prefix _ _)⟩

/-- An expression that fails with a message whose inner line is a raw closing tag. -/
def quotingExpression : Text := "@ref('a\\n<?!>\\nb')".toList

def quotedTag : Text := "a\n<?!>\nb".toList

/-- An envelope with that expression. -/
def quoting (form : TagForm) : Directive := form.wrapped quotingExpression ['\n'] 1

theorem split_quoting (form : TagForm) :
    split .reject (quoting form).source = .ok [.directive (quoting form)] := by
  cases form <;> decide +kernel

theorem evaluateText_quoting :
    ∃ after, evaluateText emptyWorld (parsePart emptyWorld) quotingExpression stampedContext =
      (.error (.invalidAlias quotedTag), after) := by
  have he : (evaluateText emptyWorld (parsePart emptyWorld) quotingExpression stampedContext).1.map
      (fun _ => ()) = .error (.invalidAlias quotedTag) := by
    decide +kernel
  rcases hr : evaluateText emptyWorld (parsePart emptyWorld) quotingExpression stampedContext with
    ⟨r, after⟩
  rw [hr] at he
  cases r with
  | error e =>
    rw [Except.error.inj he]
    exact ⟨after, rfl⟩
  | ok value => cases he

theorem renderDirective_commentedQuote : ∃ after,
    split .reject (quoting .commented).source = .ok [.directive (quoting .commented)] ∧
      (quoting .commented).isLiteral = false ∧ (quoting .commented).isDiscard = false ∧
      evaluateText emptyWorld (parsePart emptyWorld) quotingExpression stampedContext =
        (.error (.invalidAlias quotedTag), after) ∧
      renderDirective emptyWorld (parsePart emptyWorld) (quoting .commented) stampedContext =
        (TagForm.commented.wrap quotingExpression
          (Diagnostic.body (Error.invalidAlias quotedTag).message), after) ∧
      split .reject (TagForm.commented.wrap quotingExpression
          (Diagnostic.body (Error.invalidAlias quotedTag).message)) =
        .ok [.directive (TagForm.commented.wrapped quotingExpression
          (Diagnostic.body (Error.invalidAlias quotedTag).message) 1)] := by
  obtain ⟨after, he⟩ := evaluateText_quoting
  obtain ⟨hr, hsplit, hcontained, -⟩ := renderDirective_failed (split_quoting .commented)
    (List.mem_singleton_self _) (by decide) (by decide) he
  exact ⟨after, split_quoting .commented, by decide, by decide, he, hr,
    (hsplit .reject).mpr (hcontained (.inl rfl))⟩

/-- The raw tag in the message ends the raw envelope early: what is left of the diagnostic and the
closing tag come after it as a text. -/
theorem renderDirective_rawQuote :
    split .reject (quoting .raw).source = .ok [.directive (quoting .raw)] ∧
      (quoting .raw).isLiteral = false ∧ (quoting .raw).isDiscard = false ∧
      (∃ after, evaluateText emptyWorld (parsePart emptyWorld) quotingExpression stampedContext =
        (.error (.invalidAlias quotedTag), after)) ∧
      split .reject
          (renderDirective emptyWorld (parsePart emptyWorld) (quoting .raw) stampedContext).1 =
        .ok [
          .directive (TagForm.raw.wrapped quotingExpression
            "\n<!-- `Cannot create reference from alias: a\n".toList 1),
          .text "\nb` -->\n<?!>".toList] := by
  refine ⟨split_quoting .raw, by decide, by decide, evaluateText_quoting, ?_⟩
  decide +kernel

end

end MarkdownDirectives
