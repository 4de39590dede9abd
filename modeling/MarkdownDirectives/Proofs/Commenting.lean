import MarkdownDirectives.Directive.Comment
import MarkdownDirectives.Proofs.Composition
import MarkdownDirectives.Proofs.Rendered

/-!
# Commented documents

A document whose tags are raw can be commented before it is processed or afterwards. Line by line
the commented tags are opening and closing tags where the raw ones are, with the same expressions,
so the same envelopes are found and the same expressions are evaluated. Blank lines are no tags, so
normalizing does not interfere; and where no generated body has a line that begins like a raw tag,
the commented output is the output of the commented document.
-/

namespace MarkdownDirectives

/-! ### Tags in both forms -/

namespace TagForm

theorem opening?_marked (form : TagForm) (t : Text) :
    form.opening? (form.openMark ++ (t ++ form.endMark)) =
      some (Text.trimWhile Text.isSpace t) := by
  have hp : form.openMark.isPrefixOf (form.openMark ++ (t ++ form.endMark)) = true :=
    List.isPrefixOf_iff_prefix.mpr (List.prefix_append _ _)
  rw [opening?, if_pos hp, List.drop_left, dropEndWhile_endMark, dropEnding?_append]
  rfl

theorem closes_marked (form : TagForm) (t : Text) :
    form.closes (form.openMark ++ (t ++ form.endMark)) = false := by
  refine Bool.eq_false_iff.mpr fun hc => ?_
  have hl : Text.dropEndWhile Text.isSpace (form.openMark ++ (t ++ form.endMark)) =
      form.closeTag := by simpa [closes] using hc
  rw [← List.append_assoc, dropEndWhile_endMark] at hl
  have hr := congrArg List.reverse hl
  cases form <;> simp [openMark, endMark, closeTag] at hr

end TagForm

theorem openingTag?_marked (form : TagForm) (t : Text) :
    openingTag? (form.openMark ++ (t ++ form.endMark)) =
      some (form, Text.trimWhile Text.isSpace t) := by
  have ho := form.opening?_marked t
  cases form with
  | raw => simp only [openingTag?, ho]
  | commented => simp only [openingTag?, opening?_raw_of_commented ho, ho, Option.map_some]

theorem openingTag?_closeTag (form : TagForm) : openingTag? form.closeTag = none := by
  cases form <;> decide

/-! ### Commented lines -/

/-- The line with its angle brackets replaced, if it is a tag in one line. -/
def commentedLine (line : Text) : Text := (commentLine? line).getD line

/-- The line is no commented tag, and if it begins like a raw tag, it is one without blanks after
it. -/
def IsRawLine (line : Text) : Prop :=
  TagForm.commented.isTag line = false ∧
    (TagForm.raw.openMark <+: line →
      TagForm.raw.isTag line = true ∧ Text.dropEndWhile Text.isSpace line = line)

instance (line : Text) : Decidable (IsRawLine line) :=
  inferInstanceAs (Decidable (TagForm.commented.isTag line = false ∧
    (TagForm.raw.openMark <+: line →
      TagForm.raw.isTag line = true ∧ Text.dropEndWhile Text.isSpace line = line)))

theorem commentedLine_marked (t : Text) :
    commentedLine (TagForm.raw.openMark ++ (t ++ TagForm.raw.endMark)) =
      TagForm.commented.openMark ++ (t ++ TagForm.commented.endMark) := by
  simp [commentedLine, commentLine?, TagForm.openMark, TagForm.endMark]

theorem commentedLine_closeTag :
    commentedLine TagForm.raw.closeTag = TagForm.commented.closeTag := rfl

/-- Only the marks of the commented form are new in a commented line. -/
theorem not_mem_commentedLine {line : Text} {c : Char}
    (hc : c ∉ "<!--?".toList ++ "-->".toList) (h : c ∉ line) : c ∉ commentedLine line := by
  intro hm
  unfold commentedLine commentLine? at hm
  split at hm
  · next rest =>
    split at hm
    · split at hm
      · exact h hm
      · simp only [Option.getD_some, List.mem_append] at hm
        rcases hm with (hm | hm) | hm
        · exact hc (List.mem_append_left _ hm)
        · exact h (List.mem_cons_of_mem _ (List.mem_cons_of_mem _ (List.dropLast_subset rest hm)))
        · exact hc (List.mem_append_right _ hm)
    · exact h hm
  · exact h hm

theorem unbroken_commentedLine {line : Text} (h : line.Unbroken) :
    (commentedLine line).Unbroken :=
  ⟨not_mem_commentedLine (by decide) h.1, not_mem_commentedLine (by decide) h.2⟩

theorem unbroken_map_commentedLine {ls : List Text} (h : ∀ line ∈ ls, line.Unbroken) :
    ∀ line ∈ ls.map commentedLine, line.Unbroken :=
  List.forall_mem_map.mpr fun line hl => unbroken_commentedLine (h line hl)

theorem commentLine?_eq_none {line : Text} (h : ¬ TagForm.raw.openMark <+: line) :
    commentLine? line = none := by
  unfold commentLine?
  split
  · next rest => exact absurd ⟨rest, rfl⟩ h
  · rfl

theorem commentedLine_eq_self {line : Text} (h : ¬ TagForm.raw.openMark <+: line) :
    commentedLine line = line := by
  rw [commentedLine, commentLine?_eq_none h, Option.getD_none]

/-- A line is an opening tag, a closing tag, or none in either form. -/
theorem IsRawLine.cases {line : Text} (h : IsRawLine line) :
    (∃ t, line = TagForm.raw.openMark ++ (t ++ TagForm.raw.endMark)) ∨
      line = TagForm.raw.closeTag ∨
      ¬ TagForm.raw.openMark <+: line ∧ ∀ form : TagForm, form.isTag line = false := by
  by_cases hp : TagForm.raw.openMark <+: line
  · obtain ⟨htag, hend⟩ := h.2 hp
    rcases Bool.or_eq_true_iff.mp htag with ho | hc
    · obtain ⟨expression, hx⟩ := Option.isSome_iff_exists.mp ho
      obtain ⟨-, left, right, after, -, -, ha, rfl⟩ := TagForm.opening?_eq_some_iff.mp hx
      rw [Text.dropEndWhile_append ha, TagForm.dropEndWhile_endMark] at hend
      refine .inl ⟨left ++ expression ++ right, ?_⟩
      rw [← hend]
      simp only [List.append_assoc]
    · obtain ⟨after, ha, rfl⟩ := TagForm.closes_iff.mp hc
      rw [Text.dropEndWhile_append ha, TagForm.dropEndWhile_closeTag] at hend
      exact .inr (.inl hend.symm)
  · refine .inr (.inr ⟨hp, fun form => ?_⟩)
    cases form with
    | raw => exact Bool.eq_false_iff.mpr fun ht => hp (TagForm.prefix_of_isTag ht)
    | commented => exact h.1

theorem openingTag?_eq_none_of_isTag {line : Text} (h : ∀ form : TagForm, form.isTag line = false) :
    openingTag? line = none := by
  cases ho : openingTag? line with
  | none => rfl
  | some tag =>
    have hopens : tag.1.opens line = true := by
      rw [TagForm.opens, opening?_of_openingTag? ho]
      rfl
    rw [(Bool.or_eq_false_iff.mp (h tag.1)).1] at hopens
    cases hopens

section

variable {line : Text}

/-- A commented line opens an envelope with the expression that the line opens one with. -/
theorem IsRawLine.openingTag?_commentedLine (h : IsRawLine line) :
    openingTag? (commentedLine line) = (openingTag? line).map fun tag => (.commented, tag.2) := by
  rcases h.cases with ⟨t, rfl⟩ | rfl | ⟨hp, htag⟩
  · rw [commentedLine_marked, openingTag?_marked, openingTag?_marked]
    rfl
  · rw [commentedLine_closeTag, openingTag?_closeTag, openingTag?_closeTag]
    rfl
  · rw [commentedLine_eq_self hp, openingTag?_eq_none_of_isTag htag]
    rfl

theorem IsRawLine.form_eq {tag : TagForm × Text} (h : IsRawLine line)
    (ho : openingTag? line = some tag) : tag.1 = .raw := by
  rcases h.cases with ⟨t, rfl⟩ | rfl | ⟨-, htag⟩
  · rw [openingTag?_marked] at ho
    cases ho
    rfl
  · rw [openingTag?_closeTag] at ho
    cases ho
  · rw [openingTag?_eq_none_of_isTag htag] at ho
    cases ho

theorem IsRawLine.closes_commentedLine (h : IsRawLine line) :
    TagForm.commented.closes (commentedLine line) = TagForm.raw.closes line := by
  rcases h.cases with ⟨t, rfl⟩ | rfl | ⟨hp, htag⟩
  · rw [commentedLine_marked, TagForm.closes_marked, TagForm.closes_marked]
  · rw [commentedLine_closeTag, TagForm.closes_closeTag, TagForm.closes_closeTag]
  · rw [commentedLine_eq_self hp, (Bool.or_eq_false_iff.mp (htag .commented)).2,
      (Bool.or_eq_false_iff.mp (htag .raw)).2]

theorem IsRawLine.opens_commentedLine (h : IsRawLine line) :
    TagForm.commented.opens (commentedLine line) = TagForm.raw.opens line := by
  rcases h.cases with ⟨t, rfl⟩ | rfl | ⟨hp, htag⟩
  · rw [commentedLine_marked, TagForm.opens, TagForm.opens, TagForm.opening?_marked,
      TagForm.opening?_marked]
  · rfl
  · rw [commentedLine_eq_self hp, (Bool.or_eq_false_iff.mp (htag .commented)).1,
      (Bool.or_eq_false_iff.mp (htag .raw)).1]

/-- A line that begins like a raw tag is commented as a whole. -/
def IsCommentable (line : Text) : Prop :=
  TagForm.raw.openMark <+: line → (commentLine? line).isSome

theorem isCommentable_marked (t : Text) :
    IsCommentable (TagForm.raw.openMark ++ (t ++ TagForm.raw.endMark)) := by
  intro _
  simp [commentLine?, TagForm.openMark, TagForm.endMark]

theorem isCommentable_closeTag : IsCommentable TagForm.raw.closeTag := fun _ => rfl

theorem isCommentable_nil : IsCommentable [] := fun hp =>
  absurd (List.prefix_nil.mp hp) (by decide)

theorem IsRawLine.isCommentable (h : IsRawLine line) : IsCommentable line := by
  rcases h.cases with ⟨t, rfl⟩ | rfl | ⟨hn, -⟩
  · exact isCommentable_marked t
  · exact isCommentable_closeTag
  · exact fun hp => absurd hp hn

theorem isEmpty_commentedLine (line : Text) : (commentedLine line).isEmpty = line.isEmpty := by
  unfold commentedLine commentLine?
  split
  · split
    · split <;> rfl
    · rfl
  · rfl

theorem isBlankLine_commentedLine (line : Text) :
    Text.isBlankLine (commentedLine line) = Text.isBlankLine line := by
  unfold commentedLine commentLine?
  split
  · split
    · split <;> rfl
    · rfl
  · rfl

end

/-! ### Searching for closing tags -/

theorem balancedClose?_commented {ls : List Text} (h : ∀ line ∈ ls, IsRawLine line) (depth : Nat) :
    balancedClose? .commented depth (ls.map commentedLine) = balancedClose? .raw depth ls := by
  induction ls generalizing depth with
  | nil => rfl
  | cons line ls ih =>
    obtain ⟨hline, hmore⟩ := List.forall_mem_cons.mp h
    simp only [List.map_cons, balancedClose?, hline.closes_commentedLine,
      hline.opens_commentedLine, ih hmore]

theorem closingLine?_commented {ls : List Text} (h : ∀ line ∈ ls, IsRawLine line) :
    closingLine? .commented (ls.map commentedLine) = closingLine? .raw ls := by
  have hfind : (ls.map commentedLine).findIdx? TagForm.commented.closes =
      ls.findIdx? TagForm.raw.closes := by
    induction ls with
    | nil => rfl
    | cons line ls ih =>
      obtain ⟨hline, hmore⟩ := List.forall_mem_cons.mp h
      rw [List.map_cons, List.findIdx?_cons, List.findIdx?_cons, hline.closes_commentedLine,
        ih hmore]
  rw [closingLine?, closingLine?, balancedClose?_commented h, hfind]

/-! ### Commented texts -/

theorem commentTwoLines?_eq_none {line : Text} (h : ¬ TagForm.raw.openMark <+: line)
    (next : Text) : commentTwoLines? line next = none := by
  unfold commentTwoLines?
  split
  · next rest => exact absurd ⟨rest, rfl⟩ h
  · rfl

/-- A line that is commented as a whole does not depend on the line after it. -/
theorem commentLines_cons {line : Text} (h : IsCommentable line) (more : List Text) :
    commentLines (line :: more) = commentedLine line :: commentLines more := by
  cases hc : commentLine? line with
  | some commented =>
    cases more <;> simp only [commentLines, commentedLine, hc, Option.getD_some]
  | none =>
    -- the line does not begin like a raw tag, so it takes no `>` from the line after it
    have hp : ¬ TagForm.raw.openMark <+: line := fun hp => by
      have hs := h hp
      rw [hc] at hs
      cases hs
    cases more with
    | nil => simp only [commentLines, commentedLine, hc, Option.getD_none]
    | cons next rest =>
      simp only [commentLines, commentedLine, hc, commentTwoLines?_eq_none hp, Option.getD_none]

theorem commentLines_eq_map {ls : List Text} (h : ∀ line ∈ ls, IsCommentable line) :
    commentLines ls = ls.map commentedLine := by
  induction ls with
  | nil => rfl
  | cons line ls ih =>
    obtain ⟨hline, hmore⟩ := List.forall_mem_cons.mp h
    rw [commentLines_cons hline, ih hmore, List.map_cons]

theorem commentTags_ofLines {ls : List Text} (hne : ls ≠ []) (hn : ∀ line ∈ ls, '\n' ∉ line)
    (h : ∀ line ∈ ls, IsCommentable line) :
    commentTags (Text.ofLines ls) = Text.ofLines (ls.map commentedLine) := by
  rw [commentTags, Text.lines_ofLines hne hn, commentLines_eq_map h]

theorem commentLines_ne_nil {ls : List Text} (h : ls ≠ []) : commentLines ls ≠ [] := by
  fun_cases commentLines ls <;> simp_all

section

variable {t : Text}

theorem commentTags_line (hn : '\n' ∉ t) (h : IsCommentable t) :
    commentTags t = commentedLine t := by
  rw [commentTags, Text.lines_of_not_mem hn, commentLines_cons h]
  rfl

/-- The first line is commented on its own. -/
theorem commentTags_append (hn : '\n' ∉ t) (h : IsCommentable t) (u : Text) :
    commentTags (t ++ '\n' :: u) = commentedLine t ++ '\n' :: commentTags u := by
  rw [commentTags, Text.lines_append, Text.lines_of_not_mem hn, List.singleton_append,
    commentLines_cons h]
  exact Text.joinWith_cons (commentLines_ne_nil (Text.lines_ne_nil u))

end

/-! ### Commented blocks and fragments -/

/-- The envelope with its tags commented. -/
def Directive.commented (d : Directive) : Directive :=
  { d with source := commentTags d.source, body := commentTags d.body, form := .commented }

def Fragment.commented : Fragment → Fragment
  | text t => .text (commentTags t)
  | directive d => .directive d.commented

def Block.commented : Block → Block
  | line t => .line (commentedLine t)
  | directive d => .directive d.commented

section

variable {expression opening closing : Text} {number : Nat} {body more : List Text}

theorem commentTags_newline (t : Text) : commentTags ('\n' :: t) = '\n' :: commentTags t :=
  commentTags_append List.not_mem_nil isCommentable_nil t

theorem commentTags_terminateLines (hn : ∀ line ∈ body, '\n' ∉ line)
    (h : ∀ line ∈ body, IsCommentable line) :
    commentTags (terminateLines body) = terminateLines (body.map commentedLine) := by
  induction body with
  | nil => rfl
  | cons line body ih =>
    obtain ⟨hline, hbody⟩ := List.forall_mem_cons.mp hn
    obtain ⟨hc, hcs⟩ := List.forall_mem_cons.mp h
    have ht : ∀ (line : Text) ls,
        terminateLines (line :: ls) = line ++ '\n' :: terminateLines ls := by
      simp [terminateLines]
    rw [List.map_cons, ht, ht, commentTags_append hline hc, ih hbody hcs]

theorem Directive.commented_ofLines
    (hn : ∀ line ∈ opening :: (body ++ [closing]), '\n' ∉ line)
    (h : ∀ line ∈ opening :: (body ++ [closing]), IsCommentable line) :
    (Directive.ofLines .raw expression number opening body closing).commented =
      Directive.ofLines .commented expression number (commentedLine opening)
        (body.map commentedLine) (commentedLine closing) := by
  have hsource := commentTags_ofLines (List.cons_ne_nil _ _) hn h
  have hbody := @commentTags_terminateLines body (fun line hl => hn line (by simp [hl]))
    fun line hl => h line (by simp [hl])
  simp only [commented, ofLines, hsource, commentTags_newline, hbody, List.map_cons,
    List.map_append, List.map_nil]

theorem Directive.commented_openEnvelope (hn : ∀ line ∈ opening :: more, '\n' ∉ line)
    (h : ∀ line ∈ opening :: more, IsCommentable line) :
    (openEnvelope .raw expression opening number more).commented =
      openEnvelope .commented expression (commentedLine opening) number
        (more.map commentedLine) := by
  have hsource := commentTags_ofLines (List.cons_ne_nil opening more) hn h
  rw [List.map_cons, ← openEnvelope_source .raw expression opening number,
    ← openEnvelope_source .commented expression (commentedLine opening) number] at hsource
  have hbody : commentTags (openEnvelope .raw expression opening number more).body =
      (openEnvelope .commented expression (commentedLine opening) number
        (more.map commentedLine)).body := by
    cases more with
    | nil => rfl
    | cons line more =>
      have hm := commentTags_ofLines (List.cons_ne_nil line more)
        (List.forall_mem_cons.mp hn).2 (List.forall_mem_cons.mp h).2
      exact (commentTags_newline _).trans (congrArg ('\n' :: ·) hm)
  rw [commented, hsource, hbody]
  rfl

theorem Directive.commented_envelope {after : List Text}
    (hn : ∀ line ∈ opening :: (body ++ closing :: after), '\n' ∉ line)
    (h : ∀ line ∈ opening :: (body ++ closing :: after), IsCommentable line) :
    (envelope .raw expression opening number (body ++ closing :: after) body.length).commented =
      envelope .commented expression (commentedLine opening) number
        ((body ++ closing :: after).map commentedLine) body.length := by
  have hbody : (body.map commentedLine).length = body.length := List.length_map ..
  rw [envelope_append, List.map_append, List.map_cons, ← hbody, envelope_append]
  exact commented_ofLines (fun line hl => hn line (mem_of_mem_envelope after hl))
    fun line hl => h line (mem_of_mem_envelope after hl)

end

/-- An opening tag and the closing tag of its envelope stay where they are. -/
theorem tags_commented {opening expression : Text} {form : TagForm} {more : List Text}
    (h : ∀ line ∈ opening :: more, IsRawLine line)
    (ho : openingTag? opening = some (form, expression)) :
    form = .raw ∧ openingTag? (commentedLine opening) = some (.commented, expression) ∧
      closingLine? .commented (more.map commentedLine) = closingLine? .raw more := by
  obtain ⟨hline, hmore⟩ := List.forall_mem_cons.mp h
  have hc := hline.openingTag?_commentedLine
  rw [ho, Option.map_some] at hc
  exact ⟨hline.form_eq ho, hc, closingLine?_commented hmore⟩

/-- The blocks of commented lines are those of the lines, commented. -/
theorem blockLines_commented {mode : Unterminated} {number skip : Nat} {ls : List Text}
    (hn : ∀ line ∈ ls, '\n' ∉ line) (h : ∀ line ∈ ls, IsRawLine line) :
    blockLines mode number skip (ls.map commentedLine) =
      (blockLines mode number skip ls).map (List.map Block.commented) := by
  fun_induction blockLines mode number skip ls with
  | case1 number skip => simp only [List.map_nil, blockLines, Except.map]
  | case2 number line more skip ih =>
    exact ih (List.forall_mem_cons.mp hn).2 (List.forall_mem_cons.mp h).2
  | case3 number line more ho ih =>
    obtain ⟨hline, hmore⟩ := List.forall_mem_cons.mp h
    have hc := hline.openingTag?_commentedLine
    rw [ho, Option.map_none] at hc
    rw [List.map_cons, blockLines_line hc, ih (List.forall_mem_cons.mp hn).2 hmore]
    cases blockLines mode (number + 1) 0 more <;> rfl
  | case4 number line more form expression ho count hcl ih =>
    obtain ⟨rfl, hc, hccl⟩ := tags_commented h ho
    rw [hcl] at hccl
    obtain ⟨body, closing, after, rfl, rfl, -⟩ := TagForm.of_closingLine? hcl
    have hd := @Directive.commented_envelope expression line closing number body after hn
      fun l hl => (h l hl).isCommentable
    rw [List.map_cons, blockLines_envelope hc hccl, ← hd,
      ih (List.forall_mem_cons.mp hn).2 (List.forall_mem_cons.mp h).2]
    cases blockLines mode (number + 1) (body.length + 1) (body ++ closing :: after) <;> rfl
  | case5 number line more form expression ho hcl hm =>
    subst hm
    obtain ⟨rfl, hc, hccl⟩ := tags_commented h ho
    rw [hcl] at hccl
    rw [List.map_cons, blockLines_reject hc hccl]
    rfl
  | case6 number line more form expression ho hcl hm =>
    subst hm
    obtain ⟨rfl, hc, hccl⟩ := tags_commented h ho
    rw [hcl] at hccl
    have hd := @Directive.commented_openEnvelope expression line number more hn
      fun l hl => (h l hl).isCommentable
    rw [List.map_cons, blockLines_absorb hc hccl, ← hd]
    rfl

/-- What raw lines say of a block. -/
inductive Block.IsRaw : Block → Prop
  | line {t} : IsCommentable t → t.Unbroken → IsRaw (.line t)
  | directive {d ls} : d.form = .raw → d.expression.Unbroken → d.source = Text.ofLines ls →
    ls ≠ [] → (∀ line ∈ ls, IsCommentable line ∧ line.Unbroken) → IsRaw (.directive d)

theorem Reads.isRaw {number : Nat} {ls : List Text} {blocks : List Block}
    (h : Reads number ls blocks) (hls : ∀ line ∈ ls, IsRawLine line ∧ line.Unbroken) :
    ∀ block ∈ blocks, block.IsRaw := by
  induction h with
  | nil => exact fun block hb => absurd hb List.not_mem_nil
  | line _ _ ih =>
    obtain ⟨hline, hmore⟩ := List.forall_mem_cons.mp hls
    exact List.forall_mem_cons.mpr ⟨.line hline.1.isCommentable hline.2, ih hmore⟩
  | @closed number form expression opening body closing after blocks ho _ _ _ ih =>
    obtain ⟨hline, hmore⟩ := List.forall_mem_cons.mp hls
    have henvelope : ∀ line ∈ opening :: (body ++ [closing]),
        IsCommentable line ∧ line.Unbroken := by
      intro line hl
      obtain ⟨hraw, hu⟩ := hls line (mem_of_mem_envelope after hl)
      exact ⟨hraw.isCommentable, hu⟩
    refine List.forall_mem_cons.mpr ⟨?_, ih fun line hl => hmore line (by simp [hl])⟩
    exact .directive (hline.1.form_eq ho) (unbroken_of_openingTag? ho hline.2) rfl
      (List.cons_ne_nil _ _) henvelope
  | @unclosed number form expression opening more ho _ =>
    obtain ⟨hline, -⟩ := List.forall_mem_cons.mp hls
    intro block hb
    cases List.mem_singleton.mp hb
    refine .directive (hline.1.form_eq ho) (unbroken_of_openingTag? ho hline.2)
      (openEnvelope_source form expression opening number more) (List.cons_ne_nil _ _) ?_
    exact fun line hl => ⟨(hls line hl).1.isCommentable, (hls line hl).2⟩

theorem Fragment.commented_consText {t t' : Text} {fragments : List Fragment}
    (he : t'.isEmpty = t.isEmpty) (ht : commentTags t = t')
    (h : ∀ u, .text u ∈ fragments → commentTags (t ++ u) = t' ++ commentTags u) :
    (consText t fragments).map commented = consText t' (fragments.map commented) := by
  cases fragments with
  | nil =>
    simp only [consText, List.map_nil, he]
    split
    · rfl
    · rw [List.map_singleton, commented, ht]
  | cons fragment more =>
    cases fragment with
    | text u =>
      simp only [consText, List.map_cons, commented, h u (List.mem_cons_self ..)]
    | directive d =>
      simp only [consText, List.map_cons, commented, he]
      split
      · rfl
      · rw [List.map_cons, List.map_cons, commented, commented, ht]

theorem Block.commented_consText {t : Text} (hn : '\n' ∉ t) (h : IsCommentable t)
    (blocks : List Block) :
    (Fragment.consText (t ++ gap blocks) (gather blocks)).map Fragment.commented =
      Fragment.consText (commentedLine t ++ gap (blocks.map commented))
        ((gather blocks).map Fragment.commented) := by
  have hl := commentTags_line hn h
  have hm := commentTags_append hn h
  cases blocks with
  | nil =>
    have hgap : ∀ u : Text, u ++ gap [] = u := List.append_nil
    rw [List.map_nil, hgap, hgap]
    exact Fragment.commented_consText (isEmpty_commentedLine t) hl
      fun u hu => absurd hu List.not_mem_nil
  | cons block more =>
    have he : ∀ u : Text, (u ++ ['\n']).isEmpty = false := fun u => by simp
    refine Fragment.commented_consText ((he _).trans (he t).symm) (hm []) fun u _ => ?_
    simpa [gap] using hm u

/-- The fragments of commented blocks are those of the blocks, commented. -/
theorem Block.gather_commented {blocks : List Block} (h : ∀ block ∈ blocks, block.IsRaw) :
    gather (blocks.map commented) = (gather blocks).map Fragment.commented := by
  induction blocks with
  | nil => rfl
  | cons block more ih =>
    obtain ⟨hblock, hmore⟩ := List.forall_mem_cons.mp h
    cases hblock with
    | @line t hc hu =>
      rw [gather, commented_consText hu.1 hc, List.map_cons, ← ih hmore]
      rfl
    | @directive d ls _ _ _ _ _ =>
      have hgap := commented_consText List.not_mem_nil isCommentable_nil more
      rw [← ih hmore] at hgap
      exact congrArg (.directive d.commented :: ·) hgap.symm

/-! ### Commenting and splitting -/

/-- No line of the text is a commented tag, and every line that begins like a raw tag is one,
without blanks after it. -/
structure Text.IsRaw (t : Text) : Prop where
  unreturned : '\r' ∉ t
  lines : ∀ line ∈ t.lines, IsRawLine line

theorem isRawLine_nil : IsRawLine [] :=
  ⟨rfl, fun hp => absurd (List.prefix_nil.mp hp) (by decide)⟩

theorem unbroken_of_mem_lines {t line : Text} (h : '\r' ∉ t) (hl : line ∈ t.lines) :
    line.Unbroken := by
  rw [← Text.rows_of_not_mem h] at hl
  exact Text.unbroken_of_mem_rows hl

theorem lines_commentTags {t : Text} (h : ∀ line ∈ t.lines, IsCommentable line) :
    (commentTags t).lines = t.lines.map commentedLine := by
  have hne : t.lines.map commentedLine ≠ [] := fun he =>
    Text.lines_ne_nil t (List.map_eq_nil_iff.mp he)
  rw [commentTags, commentLines_eq_map h]
  exact Text.lines_ofLines hne (List.forall_mem_map.mpr fun line hl =>
    not_mem_commentedLine (by decide) (Text.not_mem_of_mem_lines hl))

namespace Text.IsRaw

variable {t : Text}

theorem commentable (h : t.IsRaw) : ∀ line ∈ t.lines, IsCommentable line := fun line hl =>
  (h.lines line hl).isCommentable

theorem normalizeLineBreaks (h : t.IsRaw) : t.normalizeLineBreaks.IsRaw where
  unreturned := Text.not_mem_normalizeLineBreaks t
  lines := by
    intro line hl
    rw [Text.lines_normalizeLineBreaks, Text.rows_of_not_mem h.unreturned] at hl
    rcases Text.mem_of_mem_normalizeLines hl with rfl | hl
    · exact isRawLine_nil
    · exact h.lines line hl

theorem blockLines_commentTags (h : t.IsRaw) (mode : Unterminated) :
    blockLines mode 1 0 (commentTags t).lines =
      (blockLines mode 1 0 t.lines).map (List.map Block.commented) := by
  rw [lines_commentTags h.commentable]
  exact blockLines_commented (fun line hl => Text.not_mem_of_mem_lines hl) h.lines

/-- What the text is read as consists of raw blocks. -/
theorem blocks (h : t.IsRaw) {mode : Unterminated} {blocks : List Block}
    (hb : blockLines mode 1 0 t.lines = .ok blocks) : ∀ block ∈ blocks, block.IsRaw :=
  (reads_of_blockLines hb).isRaw fun line hl =>
    ⟨h.lines line hl, unbroken_of_mem_lines h.unreturned hl⟩

theorem form_eq (h : t.IsRaw) {mode : Unterminated} {fragments : List Fragment}
    (hs : split mode t = .ok fragments) {d : Directive} (hd : .directive d ∈ fragments) :
    d.form = .raw := by
  rw [split_eq_gather] at hs
  obtain ⟨blocks, hb, rfl⟩ := exists_of_map_eq_ok hs
  cases h.blocks hb _ (Block.mem_gather.mp hd) with
  | directive hform _ _ _ _ => exact hform

end Text.IsRaw

theorem split_commentTags {t : Text} (h : t.IsRaw) (mode : Unterminated) :
    split mode (commentTags t) = (split mode t).map (List.map Fragment.commented) := by
  rw [split_eq_gather, split_eq_gather, h.blockLines_commentTags mode]
  cases hb : blockLines mode 1 0 t.lines with
  | error e => rfl
  | ok blocks => exact congrArg Except.ok (Block.gather_commented (h.blocks hb))

/-! ### Commenting and normalizing -/

theorem commentedLine_nil : commentedLine [] = [] := rfl

theorem squeezeBlankLines_commented (b : Bool) (ls : List Text) :
    Text.squeezeBlankLines b (ls.map commentedLine) =
      (Text.squeezeBlankLines b ls).map commentedLine := by
  fun_induction Text.squeezeBlankLines b ls with
  | case1 b => rfl
  | case2 b line => rfl
  | case3 line next more hb ih =>
    simpa [Text.squeezeBlankLines, isBlankLine_commentedLine, hb] using ih
  | case4 b line next more hb hn ih =>
    simpa [Text.squeezeBlankLines, isBlankLine_commentedLine, commentedLine_nil, hb, hn] using ih
  | case5 b line next more hb ih =>
    simpa [Text.squeezeBlankLines, isBlankLine_commentedLine, hb] using ih

theorem normalizeLines_commented (ls : List Text) :
    Text.normalizeLines (ls.map commentedLine) = (Text.normalizeLines ls).map commentedLine := by
  cases ls with
  | nil => rfl
  | cons line ls => exact congrArg (commentedLine line :: ·) (squeezeBlankLines_commented false ls)

/-- The rows of the second text are those of the first one, commented as a whole each. -/
structure Text.CommentedAs (t t' : Text) : Prop where
  commentable : ∀ row ∈ t.rows, IsCommentable row
  rows : t'.rows = t.rows.map commentedLine

theorem Text.CommentedAs.normalizeLineBreaks {t t' : Text} (h : t.CommentedAs t') :
    t'.normalizeLineBreaks = commentTags t.normalizeLineBreaks := by
  have hne := Text.normalizeLines_ne_nil (Text.rows_ne_nil t)
  have ht' : t'.normalizeLineBreaks = Text.ofLines (Text.normalizeLines t'.rows) := rfl
  have ht : t.normalizeLineBreaks = Text.ofLines (Text.normalizeLines t.rows) := rfl
  have hmem : ∀ row ∈ Text.normalizeLines t.rows, '\n' ∉ row ∧ IsCommentable row := by
    intro row hr
    rcases Text.mem_of_mem_normalizeLines hr with rfl | hr
    · exact ⟨List.not_mem_nil, isCommentable_nil⟩
    · exact ⟨(Text.unbroken_of_mem_rows hr).1, h.commentable row hr⟩
  rw [ht', ht, h.rows, normalizeLines_commented,
    commentTags_ofLines hne (fun row hr => (hmem row hr).1) fun row hr => (hmem row hr).2]

theorem commentedAs_commentTags {ls : List Text} (hne : ls ≠ [])
    (h : ∀ line ∈ ls, IsCommentable line ∧ line.Unbroken) :
    (Text.ofLines ls).CommentedAs (commentTags (Text.ofLines ls)) := by
  have hu := unbroken_map_commentedLine fun line hl => (h line hl).2
  have hrows := Text.rows_ofLines_unbroken hne fun line hl => (h line hl).2
  refine ⟨fun row hr => ?_, ?_⟩
  · rw [hrows] at hr
    exact (h row hr).1
  · rw [commentTags_ofLines hne (fun line hl => (h line hl).2.1) fun line hl => (h line hl).1,
      hrows, Text.rows_ofLines_unbroken (by simpa using hne) hu]

theorem Text.IsRaw.commentedAs {t : Text} (h : t.IsRaw) : t.CommentedAs (commentTags t) := by
  have hc := commentedAs_commentTags (Text.lines_ne_nil t) fun line hl =>
    ⟨h.commentable line hl, unbroken_of_mem_lines h.unreturned hl⟩
  rwa [Text.ofLines_lines] at hc

theorem commentedAs_line {t : Text} (hu : t.Unbroken) (h : IsCommentable t) :
    t.CommentedAs (commentedLine t) := by
  constructor
  · rw [hu.rows]
    exact fun row hr => List.mem_singleton.mp hr ▸ h
  · rw [hu.rows, (unbroken_commentedLine hu).rows]
    rfl

theorem commentedAs_newline : Text.CommentedAs ['\n'] ['\n'] := by
  have hrows : Text.rows ['\n'] = [[], []] := rfl
  refine ⟨fun row hr => ?_, rfl⟩
  rw [hrows] at hr
  have hnil : row = [] := by simpa using hr
  exact hnil ▸ isCommentable_nil

/-- Texts that are commented one by one are commented together. -/
theorem commentedAs_ofLines {ts ts' : List Text} (h : List.Forall₂ Text.CommentedAs ts ts')
    (hne : ts ≠ []) (hs : Text.Sealed ts) (hs' : Text.Sealed ts') :
    (Text.ofLines ts).CommentedAs (Text.ofLines ts') := by
  have hrows : ts'.flatMap Text.rows = (ts.flatMap Text.rows).map commentedLine ∧
      ∀ row ∈ ts.flatMap Text.rows, IsCommentable row := by
    clear hne hs hs'
    induction h with
    | nil => exact ⟨rfl, fun row hr => absurd hr List.not_mem_nil⟩
    | cons ht _ ih =>
      refine ⟨?_, fun row hr => ?_⟩
      · rw [List.flatMap_cons, List.flatMap_cons, List.map_append, ht.rows, ih.1]
      · rw [List.flatMap_cons, List.mem_append] at hr
        exact hr.elim (ht.commentable row) (ih.2 row)
  have hne' : ts' ≠ [] := by
    rintro rfl
    cases h
    exact hne rfl
  constructor
  · rw [Text.rows_ofLines hne hs]
    exact hrows.2
  · rw [Text.rows_ofLines hne hs, Text.rows_ofLines hne' hs', hrows.1]

/-! ### Commenting and rendering -/

/-- No line of the text begins like a raw tag. -/
def Text.Unmarked (t : Text) : Prop :=
  ∀ line ∈ t.normalizeLineBreaks.lines, ¬ TagForm.raw.openMark <+: line

instance (t : Text) : Decidable t.Unmarked :=
  inferInstanceAs
    (Decidable (∀ line ∈ t.normalizeLineBreaks.lines, ¬ TagForm.raw.openMark <+: line))

theorem Text.Unmarked.row {t row : Text} (h : t.Unmarked) (hr : row ∈ t.rows) :
    ¬ TagForm.raw.openMark <+: row := by
  intro hp
  have hv : Text.isBlankLine row = false := by
    obtain ⟨rest, rfl⟩ := hp
    rfl
  refine h row ?_ hp
  rw [Text.lines_normalizeLineBreaks]
  exact Text.mem_normalizeLines hr hv

theorem commentedAs_wrap {expression inner body : Text} (hx : expression.Unbroken)
    (hi : body = '\n' :: (inner ++ ['\n'])) (hb : body.Unmarked) :
    (TagForm.raw.wrap expression body).CommentedAs (TagForm.commented.wrap expression body) := by
  obtain ⟨front, hrows, hwrap⟩ := exists_rows_wrap hi
  have hfront : ∀ row ∈ front, ¬ TagForm.raw.openMark <+: row := fun row hr =>
    hb.row (hrows ▸ List.mem_cons_of_mem _ (List.mem_append_left _ hr))
  have hopen : ∀ form : TagForm, form.openTag expression =
      form.openMark ++ (' ' :: expression ++ [' '] ++ form.endMark) := by
    intro form
    simp [TagForm.openTag]
  constructor
  · intro row hr
    rw [hwrap .raw hx] at hr
    simp only [List.mem_cons, List.mem_append, List.not_mem_nil, or_false] at hr
    rcases hr with rfl | hr | rfl
    · rw [hopen]
      exact isCommentable_marked _
    · exact fun hp => absurd hp (hfront row hr)
    · exact isCommentable_closeTag
  · have hf : front.map commentedLine = front :=
      (List.map_congr_left fun row hr => commentedLine_eq_self (hfront row hr)).trans
        (List.map_id front)
    rw [hwrap .raw hx, hwrap .commented hx, List.map_cons, List.map_append, hf, hopen, hopen,
      commentedLine_marked]
    rfl

section

variable {world : World} {nested : Text → Eval Text} {context : Context}

theorem renderDirective_commented {d : Directive} (h : Block.IsRaw (.directive d))
    (hb : d.isLiteral = false → d.isDiscard = false →
      (generatedBody world nested d.expression context).1.Unmarked) :
    (renderDirective world nested d context).1.CommentedAs
        (renderDirective world nested d.commented context).1 ∧
      (renderDirective world nested d.commented context).2 =
        (renderDirective world nested d context).2 := by
  cases h with
  | @directive _ ls hform hx hsource hne hls =>
    have hlit : d.commented.isLiteral = d.isLiteral := rfl
    have hdis : d.commented.isDiscard = d.isDiscard := rfl
    cases hl : d.isLiteral with
    | true =>
      rw [renderDirective_literal hl, renderDirective_literal (hlit.trans hl)]
      refine ⟨?_, rfl⟩
      rw [Directive.commented, hsource]
      exact commentedAs_commentTags hne hls
    | false =>
      cases hd : d.isDiscard with
      | true =>
        rw [renderDirective_discard hl hd,
          renderDirective_discard (hlit.trans hl) (hdis.trans hd)]
        exact ⟨commentedAs_newline, rfl⟩
      | false =>
        obtain ⟨inner, hi⟩ := @exists_generatedBody_eq world nested d.expression context
        rw [renderDirective_evaluated hl hd,
          renderDirective_evaluated (hlit.trans hl) (hdis.trans hd), hform]
        exact ⟨commentedAs_wrap hx hi (hb hl hd), rfl⟩

theorem renderBlocks_commented {blocks : List Block} (h : ∀ block ∈ blocks, block.IsRaw)
    (hb : ∀ p ∈ evaluations world nested (Block.gather blocks) context,
      (generatedBody world nested p.1.expression p.2).1.Unmarked) :
    List.Forall₂ Text.CommentedAs (renderBlocks world nested blocks context).1
        (renderBlocks world nested (blocks.map Block.commented) context).1 ∧
      (renderBlocks world nested (blocks.map Block.commented) context).2 =
        (renderBlocks world nested blocks context).2 := by
  induction blocks generalizing context with
  | nil => exact ⟨.nil, rfl⟩
  | cons block more ih =>
    obtain ⟨hblock, hmore⟩ := List.forall_mem_cons.mp h
    cases block with
    | line t =>
      rw [Block.gather, evaluations_consText] at hb
      obtain ⟨htexts, hcontext⟩ := ih hmore hb
      cases hblock with
      | line hc hu => exact ⟨.cons (commentedAs_line hu hc) htexts, hcontext⟩
    | directive d =>
      rw [evaluations_directive] at hb
      have hd : d.isLiteral = false → d.isDiscard = false →
          (generatedBody world nested d.expression context).1.Unmarked := by
        intro hl hdis
        rw [hl, hdis] at hb
        exact hb (d, context) (List.mem_append_left _ (List.mem_singleton.mpr rfl))
      obtain ⟨hfirst, hmiddle⟩ := renderDirective_commented hblock hd
      obtain ⟨htexts, hcontext⟩ := ih hmore fun p hp => hb p (List.mem_append_right _ hp)
      rw [List.map_cons, renderBlocks_cons, renderBlocks_cons]
      have hmiddle' : (renderBlock world nested (Block.commented (.directive d)) context).2 =
          (renderDirective world nested d context).2 := hmiddle
      simp only [hmiddle']
      exact ⟨.cons hfirst htexts, hcontext⟩

/-- The joined texts of commented blocks are those of the blocks, commented. -/
theorem Text.IsRaw.rendered {t : Text} {mode : Unterminated} {blocks : List Block} (h : t.IsRaw)
    (hbs : blockLines mode 1 0 t.lines = .ok blocks)
    (hb : ∀ p ∈ evaluations world nested (Block.gather blocks) context,
      (generatedBody world nested p.1.expression p.2).1.Unmarked) :
    (Text.ofLines (renderBlocks world nested blocks context).1).CommentedAs
        (Text.ofLines (renderBlocks world nested (blocks.map Block.commented) context).1) ∧
      (renderBlocks world nested (blocks.map Block.commented) context).2 =
        (renderBlocks world nested blocks context).2 := by
  have hc := h.blockLines_commentTags mode
  rw [hbs, lines_commentTags h.commentable] at hc
  have hu : ∀ line ∈ t.lines, line.Unbroken := fun line hl => unbroken_of_mem_lines h.unreturned hl
  have hne := @renderBlocks_ne_nil world nested _ (blockLines_ne_nil hbs) context
  have hs := @renderBlocks_sealed world nested _ ((reads_of_blockLines hbs).sealed hu) context
  -- no rendered text ends in a `CR`, so the rows of the texts are those of the joined text
  have hu' := unbroken_map_commentedLine hu
  have hs' := @renderBlocks_sealed world nested _ ((reads_of_blockLines hc).sealed hu') context
  obtain ⟨htexts, hcontext⟩ := renderBlocks_commented (h.blocks hbs) hb
  exact ⟨commentedAs_ofLines htexts hne hs hs', hcontext⟩

end

/-- A text with raw tags may be commented before it is processed or afterwards. The same envelopes
are found in it, and all of them were raw. -/
theorem render_commentTags {world : World} {source : Text} {context : Context} (h : source.IsRaw)
    (hb : ∀ fragments,
      split context.options.unterminated source.normalizeLineBreaks = .ok fragments →
        ∀ p ∈ evaluations world (parsePart world) fragments context,
          (generatedBody world (parsePart world) p.1.expression p.2).1.Unmarked) :
    render world (parsePart world) (commentTags source) false context =
        ((render world (parsePart world) source false context).1.map commentTags,
          (render world (parsePart world) source false context).2) ∧
      ∀ mode, split mode (commentTags source) =
          (split mode source).map (List.map Fragment.commented) ∧
        ∀ fragments, split mode source = .ok fragments →
          ∀ d, .directive d ∈ fragments → d.form = .raw := by
  refine ⟨?_, fun mode => ⟨split_commentTags h mode, fun fragments hs d hd => h.form_eq hs hd⟩⟩
  have hn := h.normalizeLineBreaks
  have hc := hn.blockLines_commentTags context.options.unterminated
  rw [← h.commentedAs.normalizeLineBreaks] at hc
  cases hbs : blockLines context.options.unterminated 1 0 source.normalizeLineBreaks.lines with
  | error e =>
    rw [hbs] at hc
    rw [render_of_blocks_error hbs, render_of_blocks_error hc]
    rfl
  | ok blocks =>
    rw [hbs] at hc
    obtain ⟨htexts, hcontext⟩ := hn.rendered hbs (hb _ (split_of_blockLines hbs))
    rw [render_of_blocks hbs, render_of_blocks hc]
    simp only [Bool.false_eq_true, if_false, List.append_nil, htexts.normalizeLineBreaks, hcontext]
    rfl

/-- An envelope with a stale body, a literal one around another one, a discarded one, a lone closing
tag and an envelope without one. -/
def rawSource : Text :=
  "# One\n<? @alias('a') ?>\nstale\n<?!>\n\n\n<? ?>\n<? kept ?>\n<?!>\n<?!>\n".toList ++
    "<? ! ?>\ngone\n<?!>\n<?!>\n<? 1 ?>".toList

def rawFragments : List Fragment :=
  [.text "# One\n".toList,
    .directive ⟨"<? @alias('a') ?>\nstale\n<?!>".toList, "@alias('a')".toList,
      "\nstale\n".toList, .raw, 2, true⟩,
    .text "\n\n".toList,
    .directive ⟨"<? ?>\n<? kept ?>\n<?!>\n<?!>".toList, [], "\n<? kept ?>\n<?!>\n".toList,
      .raw, 6, true⟩,
    .text "\n".toList,
    .directive ⟨"<? ! ?>\ngone\n<?!>".toList, ['!'], "\ngone\n".toList, .raw, 10, true⟩,
    .text "\n<?!>\n".toList,
    .directive ⟨"<? 1 ?>".toList, ['1'], [], .raw, 14, false⟩]

def commentedOutput : Text :=
  "# One\n<!--? @alias('a') ?-->\nlink-1\n<!--?!-->\n\n<!--? ?-->\n<!--? kept ?-->\n".toList ++
    "<!--?!-->\n<!--?!-->\n\n<!--?!-->\n<!--? 1 ?-->\n1\n<!--?!-->".toList

theorem rawSource_isRaw : rawSource.IsRaw where
  unreturned := by decide
  lines := by decide +kernel

theorem rawSource_bodies (fragments : List Fragment)
    (hf : split partContext.options.unterminated rawSource.normalizeLineBreaks = .ok fragments) :
    ∀ p ∈ evaluations partWorld (parsePart partWorld) fragments partContext,
      (generatedBody partWorld (parsePart partWorld) p.1.expression p.2).1.Unmarked := by
  have hs : split partContext.options.unterminated rawSource.normalizeLineBreaks =
      .ok rawFragments := by
    decide +kernel
  obtain rfl : rawFragments = fragments := Except.ok.inj (hs.symm.trans hf)
  decide +kernel

theorem renderPart_rawSource :
    rawSource.IsRaw ∧
      (renderPart rawSource partContext).1.map commentTags = .ok commentedOutput ∧
      renderPart (commentTags rawSource) partContext =
        (.ok commentedOutput, (renderPart rawSource partContext).2) := by
  have hr : (renderPart rawSource partContext).1.map commentTags = .ok commentedOutput := by
    decide +kernel
  have hc : renderPart (commentTags rawSource) partContext =
      ((renderPart rawSource partContext).1.map commentTags,
        (renderPart rawSource partContext).2) :=
    (render_commentTags rawSource_isRaw rawSource_bodies).1
  rw [hr] at hc
  exact ⟨rawSource_isRaw, hr, hc⟩

end MarkdownDirectives
