import MarkdownDirectives.Proofs.Splitting

/-!
# Wrapping

A body that is wrapped in the tags of a form is found again by splitting, with its expression, as
long as its own tags of the form balance: the search for a closing tag passes over it. Tags of the
other form may stand in it as they like. What comes after the closing tag is split as it is alone,
with greater line numbers.
-/

namespace MarkdownDirectives

/-! ### Gathering lines -/

theorem Fragment.consText_consText (t u : Text) (fragments : List Fragment) :
    consText t (consText u fragments) = consText (t ++ u) fragments := by
  cases fragments with
  | nil => cases u <;> cases t <;> simp [consText]
  | cons fragment more =>
    cases fragment with
    | text v => simp [consText]
    | directive d => cases u <;> cases t <;> simp [consText]

theorem Fragment.consText_directive (t : Text) (d : Directive) (more : List Fragment) :
    consText t (.directive d :: more) =
      (if t = [] then [] else [.text t]) ++ .directive d :: more := by
  cases t <;> rfl

/-- Lines in front of a block are gathered into one text. -/
theorem Block.gather_lines (ls : List Text) (block : Block) (more : List Block) :
    gather (ls.map line ++ block :: more) =
      Fragment.consText (terminateLines ls) (gather (block :: more)) := by
  induction ls with
  | nil =>
    cases block with
    | line t =>
      rw [gather]
      exact (Fragment.consText_consText [] _ _).symm
    | directive d => rfl
  | cons t ls ih =>
    have hgap : gap (ls.map line ++ block :: more) = ['\n'] := by cases ls <;> rfl
    rw [List.map_cons, List.cons_append, gather, ih, hgap, Fragment.consText_consText]
    rfl

/-! ### Wrapped bodies -/

namespace TagForm

/-- The envelope that the tags make of a body, on the line `number`. -/
def wrapped (form : TagForm) (expression body : Text) (number : Nat) : Directive where
  source := form.wrap expression body
  expression := expression
  body := body
  form := form
  line := number
  isTerminated := true

theorem ofLines_eq_wrapped (form : TagForm) (expression : Text) (body : List Text) (number : Nat) :
    Directive.ofLines form expression number (form.openTag expression) body form.closeTag =
      form.wrapped expression ('\n' :: terminateLines body) number := by
  have hs := Directive.ofLines_source form expression (form.openTag expression) number body
    form.closeTag
  rw [Directive.ofLines] at hs ⊢
  rw [wrapped, wrap, ← hs]

end TagForm

section

variable {mode : Unterminated} {form : TagForm} {expression : Text}

/-- What the lines of a wrapped body are read as, with lines in front and after. -/
theorem blockLines_wrapped {front body rest : List Text} (he : expression.Unspaced)
    (hb : form.Balanced body) (hf : ∀ line ∈ front, openingTag? line = none) :
    blockLines mode 1 0
        (front ++ form.openTag expression :: (body ++ form.closeTag :: rest)) =
      (blockLines mode (front.length + body.length + 3) 0 rest).map fun blocks =>
        front.map .line ++
          .directive (form.wrapped expression ('\n' :: terminateLines body) (front.length + 1)) ::
            blocks := by
  have ho : openingTag? (form.openTag expression) = some (form, expression) :=
    openingTag?_eq_some_iff.mpr (form.isOpening_openTag he)
  have henv := readsBefore_envelope ho hb (form.closes_closeTag) rest (1 + front.length)
  have hread := (readsBefore_lines hf _ 1).append henv
  have hls : front ++ form.openTag expression :: (body ++ form.closeTag :: rest) =
      (front ++ form.openTag expression :: (body ++ [form.closeTag])) ++ rest := by simp
  have hn : 1 + (front ++ form.openTag expression :: (body ++ [form.closeTag])).length =
      front.length + body.length + 3 := by
    simp only [List.length_append, List.length_cons, List.length_nil]
    omega
  rw [hls, hread.blockLines_append mode, hn, TagForm.ofLines_eq_wrapped, Nat.add_comm 1]
  simp only [List.append_assoc, List.cons_append, List.nil_append]

/-- The fragments of lines, an envelope and further blocks. -/
theorem Block.gather_envelope (front : List Text) (d : Directive) (blocks : List Block) :
    gather (front.map .line ++ .directive d :: blocks) =
      (if terminateLines front = [] then [] else [.text (terminateLines front)]) ++
        .directive d :: Fragment.consText (gap blocks) (gather blocks) := by
  rw [gather_lines, ← Fragment.consText_directive]
  rfl

/-- The same when the further blocks are further down by `lines`. -/
theorem gather_wrapped (front : List Text) (d : Directive) (blocks : List Block) (lines : Nat) :
    Block.gather (front.map .line ++ .directive d :: blocks.map (Block.shift lines)) =
      (if terminateLines front = [] then [] else [.text (terminateLines front)]) ++
        .directive d :: (Block.gather (.line [] :: blocks)).map (Fragment.shift lines) := by
  rw [Block.gather_envelope, ← Block.gather_shift]
  rfl

/-- Splitting undoes wrapping, in any surroundings. -/
theorem split_wrap {front body rest : Text} (hn : '\n' ∉ expression) (he : expression.Unspaced)
    (hfirst : body.head? = some '\n') (hlast : body.getLast? = some '\n')
    (hb : form.Balanced body.lines) (hf : front.EndsLine)
    (hu : ∀ line ∈ front.lines, ∀ form expression, ¬ TagForm.IsOpening form expression line)
    (hr : rest.StartsBreak) :
    split mode (front ++ form.wrap expression body ++ rest) =
      ((split mode rest).mapError
          (Error.shift ((front ++ form.wrap expression body).count '\n'))).map fun fragments =>
        (if front = [] then [] else [.text front]) ++
          .directive (form.wrapped expression body (front.count '\n' + 1)) ::
            fragments.map (Fragment.shift ((front ++ form.wrap expression body).count '\n')) := by
  have hopening : '\n' ∉ form.openTag expression :=
    TagForm.not_mem_openTag (by cases form <;> decide) hn
  have hclosing : '\n' ∉ form.closeTag := by cases form <;> decide
  obtain ⟨front, rfl, hfront⟩ := hf.exists_lines
  obtain ⟨body, rfl, hbody⟩ := Text.exists_body_lines hfirst hlast
  rw [balanced_body hbody] at hb
  have huntagged : ∀ line ∈ front, openingTag? line = none := fun line hl =>
    openingTag?_eq_none_iff.mpr (hu line (by rw [lines_terminateLines hfront]; simp [hl]))
  have hcount : (terminateLines front ++ form.wrap expression ('\n' :: terminateLines body)).count
      '\n' = front.length + body.length + 1 := by
    rw [TagForm.wrap, List.count_append, List.count_append, List.count_append,
      count_terminateLines hfront, List.count_cons, count_terminateLines hbody,
      List.count_eq_zero.mpr hopening, List.count_eq_zero.mpr hclosing]
    simp
    omega
  have hshift : front.length + body.length + 3 = 2 + (front.length + body.length + 1) := by omega
  obtain ⟨more, hmore⟩ : ∃ more, rest.lines = [] :: more := ⟨_, hr.lines_eq⟩
  rw [hcount, count_terminateLines hfront, split_eq_gather, split_eq_gather, TagForm.wrap,
    Text.lines_envelope hfront hopening hbody hclosing hr, hmore,
    List.tail_cons, blockLines_wrapped he hb huntagged, hshift, blockLines_shift,
    blockLines_line rfl]
  cases blockLines mode 2 0 more with
  | error e => rfl
  | ok blocks => exact congrArg Except.ok (gather_wrapped front _ blocks _)

/-- A body that holds an envelope of its form and, of the other form, an opening tag only. -/
def nestedBody : Text := "\n<? inner ?>\n<?!>\n<!--? open ?-->\n".toList

theorem split_nestedBody :
    split .reject ("intro\n".toList ++ TagForm.raw.wrap "a ?> b".toList nestedBody ++
        "\n<? next ?>\n<?!>".toList) =
      .ok [.text "intro\n".toList,
        .directive (TagForm.raw.wrapped "a ?> b".toList nestedBody 2),
        .text ['\n'],
        .directive ⟨"<? next ?>\n<?!>".toList, "next".toList, ['\n'], .raw, 7, true⟩] := by
  have hrest : split .reject "\n<? next ?>\n<?!>".toList =
      .ok [.text ['\n'],
        .directive ⟨"<? next ?>\n<?!>".toList, "next".toList, ['\n'], .raw, 2, true⟩] := by
    decide +kernel
  have hfront : ∀ line ∈ Text.lines "intro\n".toList, openingTag? line = none := by decide
  have h := @split_wrap .reject .raw "a ?> b".toList "intro\n".toList nestedBody
    "\n<? next ?>\n<?!>".toList (by decide) (by decide) (by decide) (by decide) (by decide)
    (by decide) (fun line hl => openingTag?_eq_none_iff.mp (hfront line hl)) (by decide)
  rw [hrest] at h
  exact h

end

end MarkdownDirectives
