import Mathlib.Data.List.Forall2
import MarkdownDirectives.Proofs.Commenting

/-!
# What commenting does to the lines of any text

Commenting looks for lines that begin and end like a raw tag, and splitting for raw tags with blanks
after them. A tag without blanks is rewritten as it should be. A tag with blanks after it is left,
a line that only looks like a tag is rewritten, and a line that begins like a tag takes a lone
bracket on the next line for its end. Apart from these three the lines are rewritten as the tags
among them ask for.
-/

namespace MarkdownDirectives

/-! ### The cases of commenting -/

/-- The lines that lines are commented to. -/
inductive CommentsTo : List Text → List Text → Prop
  | nil : CommentsTo [] []
  | marked {line line' more more'} : commentLine? line = some line' → CommentsTo more more' →
    CommentsTo (line :: more) (line' :: more')
  | left {line more more'} : commentLine? line = none →
    (TagForm.raw.openMark <+: line → more.head? ≠ some ['>']) → CommentsTo more more' →
    CommentsTo (line :: more) (line :: more')
  | divided {rest more more'} : commentLine? (TagForm.raw.openMark ++ rest) = none →
    CommentsTo more more' →
    CommentsTo ((TagForm.raw.openMark ++ rest) :: ['>'] :: more)
      ((TagForm.commented.openMark ++ rest) :: "-->".toList :: more')

theorem commentTwoLines?_eq_some_iff {line next line' : Text} :
    commentTwoLines? line next = some line' ↔ next = ['>'] ∧
      ∃ rest, line = TagForm.raw.openMark ++ rest ∧
        line' = TagForm.commented.openMark ++ rest := by
  unfold commentTwoLines?
  split
  · next rest =>
    constructor
    · intro h
      cases h
      exact ⟨rfl, rest, rfl, rfl⟩
    · rintro ⟨-, rest', hrest, rfl⟩
      cases hrest
      rfl
  · next hne =>
    refine iff_of_false nofun ?_
    rintro ⟨rfl, rest, rfl, -⟩
    exact hne rest rfl rfl

theorem commentsTo_commentLines (ls : List Text) : CommentsTo ls (commentLines ls) := by
  fun_induction commentLines ls with
  | case1 => exact .nil
  | case2 line more line' hc ih => exact .marked hc ih
  | case3 line hc => exact .left hc (fun _ => nofun) .nil
  | case4 line hc next rest line' htwo ih =>
    obtain ⟨rfl, inner, rfl, rfl⟩ := commentTwoLines?_eq_some_iff.mp htwo
    exact .divided hc ih
  | case5 line hc next rest htwo ih =>
    refine .left hc (fun hp hnext => ?_) ih
    obtain ⟨inner, rfl⟩ := hp
    cases hnext
    cases htwo

/-! ### Lines that look like tags -/

/-- The line begins and ends like a raw tag, whatever stands between. -/
def LooksTagged (line : Text) : Prop :=
  ∃ inner c, c ≠ '-' ∧ line = TagForm.raw.openMark ++ (inner ++ [c, '>'])

theorem commentLine?_eq_some_iff {line line' : Text} :
    commentLine? line = some line' ↔ ∃ inner c, c ≠ '-' ∧
      line = TagForm.raw.openMark ++ (inner ++ [c, '>']) ∧
      line' = TagForm.commented.openMark ++ (inner ++ [c] ++ "-->".toList) := by
  constructor
  · intro h
    unfold commentLine? at h
    split at h
    · next rest =>
      split at h
      · next c inner hr =>
        split at h
        · cases h
        · next hc =>
          have hrest : rest = inner.reverse ++ [c, '>'] := by
            have hrr := congrArg List.reverse hr
            rw [List.reverse_reverse] at hrr
            simpa using hrr
          have hlast : rest.dropLast = inner.reverse ++ [c] := by
            rw [hrest, List.append_cons, List.dropLast_concat]
          cases h
          refine ⟨inner.reverse, c, hc, by rw [hrest]; rfl, ?_⟩
          rw [hlast, List.append_assoc]
          rfl
      · cases h
    · cases h
  · rintro ⟨inner, c, hc, rfl, rfl⟩
    simp [commentLine?, TagForm.openMark, hc]

theorem commentLine?_eq_none_iff {line : Text} :
    commentLine? line = none ↔ ¬ LooksTagged line := by
  constructor
  · rintro h ⟨inner, c, hc, hline⟩
    rw [commentLine?_eq_some_iff.mpr ⟨inner, c, hc, hline, rfl⟩] at h
    cases h
  · intro h
    refine Option.eq_none_iff_forall_ne_some.mpr fun line' hs => ?_
    obtain ⟨inner, c, hc, hline, -⟩ := commentLine?_eq_some_iff.mp hs
    exact h ⟨inner, c, hc, hline⟩

theorem LooksTagged.openMark {line : Text} (h : LooksTagged line) :
    TagForm.raw.openMark <+: line := by
  obtain ⟨inner, c, -, rfl⟩ := h
  exact List.prefix_append ..

theorem LooksTagged.dropEndWhile {line : Text} (h : LooksTagged line) :
    Text.dropEndWhile Text.isSpace line = line := by
  obtain ⟨inner, c, -, rfl⟩ := h
  have hline : TagForm.raw.openMark ++ (inner ++ [c, '>']) =
      (TagForm.raw.openMark ++ (inner ++ [c])) ++ ['>'] := by simp
  rw [hline]
  exact Text.dropEndWhile_concat (by decide)

/-- The commented mark does not begin like a raw one. -/
theorem not_openMark_commented (t : Text) :
    ¬ TagForm.raw.openMark <+: TagForm.commented.openMark ++ t := by
  rintro ⟨more, h⟩
  cases h

theorem not_isTag_of_not_openMark {form : TagForm} {line : Text} (h : ¬ form.openMark <+: line) :
    form.isTag line = false :=
  Bool.eq_false_iff.mpr fun ht => h (TagForm.prefix_of_isTag ht)

/-- A raw tag with nothing after it. -/
def IsBareTag (line : Text) : Prop :=
  TagForm.raw.isTag line = true ∧ Text.dropEndWhile Text.isSpace line = line

instance (line : Text) : Decidable (IsBareTag line) := inferInstanceAs (Decidable (_ ∧ _))

theorem IsBareTag.isRawLine {line : Text} (h : IsBareTag line) : IsRawLine line := by
  refine ⟨not_isTag_of_not_openMark ?_, fun _ => h⟩
  obtain ⟨more, rfl⟩ := TagForm.prefix_of_isTag h.1
  rintro ⟨rest, hrest⟩
  cases hrest

/-- Commenting sees a raw tag exactly if nothing stands after it. -/
theorem looksTagged_iff_of_isTag {line : Text} (h : TagForm.raw.isTag line = true) :
    LooksTagged line ↔ IsBareTag line := by
  constructor
  · exact fun hl => ⟨h, hl.dropEndWhile⟩
  · intro hbare
    have hs := hbare.isRawLine.isCommentable (TagForm.prefix_of_isTag h)
    by_contra hn
    rw [commentLine?_eq_none_iff.mpr hn] at hs
    cases hs

/-! ### Lines rewritten as they should be -/

/-- What commenting is to make of a line: the tag of the other form if it is a raw one, and the same
line otherwise. -/
structure Recommented (line line' : Text) : Prop where
  opening : ∀ expression, openingTag? line = some (.raw, expression) →
    openingTag? line' = some (.commented, expression)
  closing : TagForm.raw.closes line = true → TagForm.commented.closes line' = true
  other : TagForm.raw.isTag line = false → line' = line

/-- A line, in front of others, that commenting and splitting see alike: a raw tag without blanks
after it, or a line that does not pass for a tag alone or with the line after it. -/
structure IsPlain (line : Text) (after : List Text) : Prop where
  tag : TagForm.raw.isTag line = true → Text.dropEndWhile Text.isSpace line = line
  other : TagForm.raw.isTag line = false → TagForm.raw.openMark <+: line →
    ¬ LooksTagged line ∧ after.head? ≠ some ['>']

section

variable {line line' rest : Text} {after : List Text}

theorem raw_isTag_of_openingTag? {expression : Text}
    (h : openingTag? line = some (.raw, expression)) : TagForm.raw.isTag line = true := by
  have ho : TagForm.raw.opens line = true := by
    rw [TagForm.opens, opening?_of_openingTag? h]
    rfl
  rw [TagForm.isTag, ho, Bool.true_or]

theorem IsBareTag.recommented (h : IsBareTag line) (hc : commentLine? line = some line') :
    Recommented line line' := by
  have hline : commentedLine line = line' := by rw [commentedLine, hc, Option.getD_some]
  constructor
  · intro expression ho
    rw [← hline, h.isRawLine.openingTag?_commentedLine, ho]
    rfl
  · intro hcl
    rw [← hline, h.isRawLine.closes_commentedLine, hcl]
  · intro ht
    rw [h.1] at ht
    cases ht

theorem recommented_marked_iff (hc : commentLine? line = some line') :
    Recommented line line' ↔ TagForm.raw.isTag line = true := by
  constructor
  · intro h
    by_contra ht
    obtain ⟨inner, c, -, rfl, rfl⟩ := commentLine?_eq_some_iff.mp hc
    have he := h.other (Bool.eq_false_iff.mpr ht)
    cases he
  · intro ht
    obtain ⟨inner, c, hdash, hline, -⟩ := commentLine?_eq_some_iff.mp hc
    exact ((looksTagged_iff_of_isTag ht).mp ⟨inner, c, hdash, hline⟩).recommented hc

theorem isPlain_marked_iff (hl : LooksTagged line) :
    IsPlain line after ↔ TagForm.raw.isTag line = true := by
  constructor
  · intro h
    by_contra ht
    exact (h.other (Bool.eq_false_iff.mpr ht) hl.openMark).1 hl
  · intro ht
    refine ⟨fun _ => hl.dropEndWhile, fun hf => ?_⟩
    rw [ht] at hf
    cases hf

theorem recommented_self_iff : Recommented line line ↔ TagForm.raw.isTag line = false := by
  constructor
  · intro h
    refine Bool.eq_false_iff.mpr fun ht => ?_
    rcases Bool.or_eq_true_iff.mp ht with ho | hc
    · obtain ⟨expression, hx⟩ := Option.isSome_iff_exists.mp ho
      have hraw := openingTag?_eq_some_iff.mpr (TagForm.opening?_eq_some_iff.mp hx)
      have hcommented := h.opening expression hraw
      rw [hraw] at hcommented
      cases hcommented
    · obtain ⟨after, -, hline⟩ := TagForm.closes_iff.mp hc
      obtain ⟨after', -, hline'⟩ := TagForm.closes_iff.mp (h.closing hc)
      rw [hline] at hline'
      cases hline'
  · intro ht
    refine ⟨fun expression ho => ?_, fun hc => ?_, fun _ => rfl⟩
    · rw [raw_isTag_of_openingTag? ho] at ht
      cases ht
    · rw [(Bool.or_eq_false_iff.mp ht).2] at hc
      cases hc

theorem isPlain_left_iff (hl : ¬ LooksTagged line)
    (hnext : TagForm.raw.openMark <+: line → after.head? ≠ some ['>']) :
    IsPlain line after ↔ TagForm.raw.isTag line = false := by
  constructor
  · intro h
    exact Bool.eq_false_iff.mpr fun ht => hl ((looksTagged_iff_of_isTag ht).mpr ⟨ht, h.tag ht⟩)
  · intro ht
    refine ⟨fun hr => ?_, fun _ hp => ⟨hl, hnext hp⟩⟩
    rw [ht] at hr
    cases hr

/-- The end of a raw tag is not that of a commented one, so a tag that loses its first bracket to
the mark is none. -/
theorem not_recommented_divided :
    ¬ Recommented (TagForm.raw.openMark ++ rest) (TagForm.commented.openMark ++ rest) := by
  intro h
  cases ht : TagForm.raw.isTag (TagForm.raw.openMark ++ rest) with
  | false => cases h.other ht
  | true =>
    rcases Bool.or_eq_true_iff.mp ht with ho | hc
    · obtain ⟨expression, hx⟩ := Option.isSome_iff_exists.mp ho
      have hraw := TagForm.opening?_eq_some_iff.mp hx
      have hcommented := h.opening expression (openingTag?_eq_some_iff.mpr hraw)
      obtain ⟨-, left, right, after, -, -, ha, hline⟩ := hraw
      obtain ⟨-, left', right', after', -, -, ha', hline'⟩ :=
        openingTag?_eq_some_iff.mp hcommented
      have hrest : rest = (left ++ expression ++ right) ++ TagForm.raw.endMark ++ after := by
        rw [List.append_assoc, List.append_assoc] at hline
        rw [List.append_assoc]
        exact List.append_cancel_left hline
      have hrest' : rest =
          (left' ++ expression ++ right') ++ TagForm.commented.endMark ++ after' := by
        rw [List.append_assoc, List.append_assoc] at hline'
        rw [List.append_assoc]
        exact List.append_cancel_left hline'
      have hcut := congrArg (Text.dropEndWhile Text.isSpace) (hrest.symm.trans hrest')
      rw [Text.dropEndWhile_append ha, Text.dropEndWhile_append ha', TagForm.dropEndWhile_endMark,
        TagForm.dropEndWhile_endMark] at hcut
      have hr := congrArg List.reverse hcut
      simp [TagForm.endMark] at hr
    · obtain ⟨after, -, hline⟩ := TagForm.closes_iff.mp hc
      obtain ⟨after', -, hline'⟩ := TagForm.closes_iff.mp (h.closing hc)
      have hrest : rest = '!' :: '>' :: after := List.append_cancel_left (hline.trans rfl)
      rw [hrest] at hline'
      cases hline'

theorem not_isPlain_divided (hl : ¬ LooksTagged (TagForm.raw.openMark ++ rest)) :
    ¬ IsPlain (TagForm.raw.openMark ++ rest) (['>'] :: after) := by
  intro h
  cases ht : TagForm.raw.isTag (TagForm.raw.openMark ++ rest) with
  | false => exact (h.other ht (List.prefix_append ..)).2 rfl
  | true => exact hl ((looksTagged_iff_of_isTag ht).mpr ⟨ht, h.tag ht⟩)

end

/-- What commenting makes of a line whatever stands around it. -/
structure CommentedAlone (line line' : Text) : Prop where
  tag : IsBareTag line → Recommented line line'
  other : ¬ TagForm.raw.openMark <+: line → line ≠ ['>'] → line' = line

/-! ### All lines of a text -/

theorem forall_suffix_cons_iff {P : Text → List Text → Prop} {line : Text} {more : List Text} :
    (∀ l after, l :: after <:+ line :: more → P l after) ↔
      P line more ∧ ∀ l after, l :: after <:+ more → P l after := by
  constructor
  · intro h
    exact ⟨h line more List.suffix_rfl,
      fun l after hs => h l after (hs.trans (List.suffix_cons ..))⟩
  · rintro ⟨hline, hmore⟩ l after hs
    rcases List.suffix_cons_iff.mp hs with he | hs
    · cases he
      exact hline
    · exact hmore l after hs

theorem forall_suffix_nil {P : Text → List Text → Prop} :
    ∀ l after, l :: after <:+ [] → P l after := fun _ _ hs =>
  absurd (List.suffix_nil.mp hs) (List.cons_ne_nil _ _)

namespace CommentsTo

variable {ls ls' : List Text}

theorem feed_not_mem (h : CommentsTo ls ls') (hn : ∀ line ∈ ls, '\n' ∉ line) :
    ∀ line ∈ ls', '\n' ∉ line := by
  induction h with
  | nil => exact hn
  | @marked line line' more more' hc _ ih =>
    obtain ⟨hline, hmore⟩ := List.forall_mem_cons.mp hn
    have hfeed := not_mem_commentedLine (by decide) hline
    rw [commentedLine, hc] at hfeed
    exact List.forall_mem_cons.mpr ⟨hfeed, ih hmore⟩
  | left _ _ _ ih =>
    obtain ⟨hline, hmore⟩ := List.forall_mem_cons.mp hn
    exact List.forall_mem_cons.mpr ⟨hline, ih hmore⟩
  | divided _ _ ih =>
    obtain ⟨hline, hnext⟩ := List.forall_mem_cons.mp hn
    obtain ⟨-, hmore⟩ := List.forall_mem_cons.mp hnext
    refine List.forall_mem_cons.mpr ⟨?_, List.forall_mem_cons.mpr ⟨by decide, ih hmore⟩⟩
    simpa [TagForm.openMark] using hline

/-- No line becomes a lone bracket. -/
theorem head?_eq (h : CommentsTo ls ls') (hb : ls'.head? = some ['>']) : ls.head? = some ['>'] := by
  cases h with
  | nil => exact hb
  | marked hc _ =>
    obtain ⟨inner, c, -, -, rfl⟩ := commentLine?_eq_some_iff.mp hc
    cases hb
  | left _ _ _ => exact hb
  | divided _ _ => cases hb

/-- Lines that are commented already are left. -/
theorem again (h : CommentsTo ls ls') : commentLines ls' = ls' := by
  have hleft : ∀ {line more}, ¬ TagForm.raw.openMark <+: line → commentLines more = more →
      commentLines (line :: more) = line :: more := by
    intro line more hp hm
    rw [commentLines_cons (fun h => absurd h hp), commentedLine_eq_self hp, hm]
  induction h with
  | nil => rfl
  | marked hc _ ih =>
    obtain ⟨inner, c, -, -, rfl⟩ := commentLine?_eq_some_iff.mp hc
    exact hleft (not_openMark_commented _) ih
  | @left line more more' hc hnext hm ih =>
    cases more' with
    | nil => simp only [commentLines, hc]
    | cons next rest =>
      have htwo : commentTwoLines? line next = none := by
        refine Option.eq_none_iff_forall_ne_some.mpr fun line' hs => ?_
        obtain ⟨rfl, inner, rfl, -⟩ := commentTwoLines?_eq_some_iff.mp hs
        exact hnext (List.prefix_append ..) (hm.head?_eq rfl)
      simp only [commentLines, hc, htwo, ih]
  | divided _ _ ih =>
    have hend : ¬ TagForm.raw.openMark <+: "-->".toList := by decide
    exact hleft (not_openMark_commented _) (hleft hend ih)

theorem commentedAlone (h : CommentsTo ls ls') : List.Forall₂ CommentedAlone ls ls' := by
  induction h with
  | nil => exact .nil
  | marked hc _ ih =>
    refine .cons ⟨fun hb => hb.recommented hc, fun hp => ?_⟩ ih
    obtain ⟨inner, c, -, rfl, -⟩ := commentLine?_eq_some_iff.mp hc
    exact absurd (List.prefix_append ..) hp
  | left hc _ _ ih =>
    refine .cons ⟨fun hb => ?_, fun _ _ => rfl⟩ ih
    exact absurd ((looksTagged_iff_of_isTag hb.1).mpr hb) (commentLine?_eq_none_iff.mp hc)
  | divided hc _ ih =>
    refine .cons ⟨fun hb => ?_, fun hp => absurd (List.prefix_append ..) hp⟩
      (.cons ⟨fun hb => absurd hb (by decide), fun _ hne => absurd rfl hne⟩ ih)
    exact absurd ((looksTagged_iff_of_isTag hb.1).mpr hb) (commentLine?_eq_none_iff.mp hc)

theorem recommented_iff (h : CommentsTo ls ls') :
    List.Forall₂ Recommented ls ls' ↔ ∀ line after, line :: after <:+ ls → IsPlain line after := by
  induction h with
  | nil => exact iff_of_true .nil forall_suffix_nil
  | @marked line _ _ _ hc _ ih =>
    have hl : LooksTagged line := by
      by_contra hn
      rw [commentLine?_eq_none_iff.mpr hn] at hc
      cases hc
    rw [List.forall₂_cons, forall_suffix_cons_iff, ih, recommented_marked_iff hc,
      isPlain_marked_iff hl]
  | left hc hnext _ ih =>
    rw [List.forall₂_cons, forall_suffix_cons_iff, ih, recommented_self_iff,
      isPlain_left_iff (commentLine?_eq_none_iff.mp hc) hnext]
  | divided hc _ ih =>
    refine iff_of_false (fun hall => ?_) fun hall => ?_
    · exact not_recommented_divided (List.forall₂_cons.mp hall).1
    · exact not_isPlain_divided (commentLine?_eq_none_iff.mp hc)
        (forall_suffix_cons_iff.mp hall).1

/-- A raw tag stays exactly if blanks stand after it and no lone bracket is taken for its end. -/
theorem untagged_iff (h : CommentsTo ls ls') :
    (∀ line ∈ ls', TagForm.raw.isTag line = false) ↔
      ∀ line after, line :: after <:+ ls → TagForm.raw.isTag line = true →
        Text.dropEndWhile Text.isSpace line = line ∨ after.head? = some ['>'] := by
  have hcommented : ∀ t, TagForm.raw.isTag (TagForm.commented.openMark ++ t) = false := fun t =>
    not_isTag_of_not_openMark (not_openMark_commented t)
  induction h with
  | nil => exact iff_of_true (fun _ h => absurd h List.not_mem_nil) forall_suffix_nil
  | marked hc _ ih =>
    obtain ⟨inner, c, hdash, rfl, rfl⟩ := commentLine?_eq_some_iff.mp hc
    have hl : LooksTagged (TagForm.raw.openMark ++ (inner ++ [c, '>'])) := ⟨inner, c, hdash, rfl⟩
    rw [List.forall_mem_cons, forall_suffix_cons_iff]
    exact and_congr (iff_of_true (hcommented _) fun _ => .inl hl.dropEndWhile) ih
  | @left line more more' hc hnext _ ih =>
    rw [List.forall_mem_cons, forall_suffix_cons_iff]
    refine and_congr ⟨fun hf ht => ?_, fun hall => ?_⟩ ih
    · rw [hf] at ht
      cases ht
    · refine Bool.eq_false_iff.mpr fun ht => ?_
      rcases hall ht with hbare | hb
      · exact commentLine?_eq_none_iff.mp hc ((looksTagged_iff_of_isTag ht).mpr ⟨ht, hbare⟩)
      · exact hnext (TagForm.prefix_of_isTag ht) hb
  | divided hc _ ih =>
    have hend : TagForm.raw.isTag "-->".toList = false := by decide
    have hbracket : TagForm.raw.isTag ['>'] ≠ true := by decide
    rw [List.forall_mem_cons, List.forall_mem_cons, forall_suffix_cons_iff, forall_suffix_cons_iff]
    exact and_congr (iff_of_true (hcommented _) fun _ => .inr rfl)
      (and_congr (iff_of_true hend fun ht => absurd ht hbracket) ih)

end CommentsTo

theorem lines_commentTags_eq (t : Text) : (commentTags t).lines = commentLines t.lines := by
  have hn := (commentsTo_commentLines t.lines).feed_not_mem fun line hl =>
    Text.not_mem_of_mem_lines hl
  rw [commentTags, Text.lines_ofLines (commentLines_ne_nil (Text.lines_ne_nil t)) hn]

/-- Commenting keeps the number of lines, and twice is as much as once. Raw tags without blanks
after them become the commented tags, and lines that begin otherwise stay. All lines are rewritten
as they should be exactly if each of them is plain. -/
theorem commentTags_lines (t : Text) :
    (commentTags t).lines.length = t.lines.length ∧
      commentTags (commentTags t) = commentTags t ∧
      List.Forall₂ CommentedAlone t.lines (commentTags t).lines ∧
      (List.Forall₂ Recommented t.lines (commentTags t).lines ↔
        ∀ line after, line :: after <:+ t.lines → IsPlain line after) ∧
      ((∀ line ∈ (commentTags t).lines, TagForm.raw.isTag line = false) ↔
        ∀ line after, line :: after <:+ t.lines → TagForm.raw.isTag line = true →
          Text.dropEndWhile Text.isSpace line = line ∨ after.head? = some ['>']) := by
  have hc := commentsTo_commentLines t.lines
  have halone := hc.commentedAlone
  rw [lines_commentTags_eq]
  refine ⟨halone.length_eq.symm, ?_, halone, hc.recommented_iff, hc.untagged_iff⟩
  rw [commentTags, lines_commentTags_eq, hc.again]
  rfl

theorem IsRawLine.isPlain {line : Text} (h : IsRawLine line) (after : List Text) :
    IsPlain line after where
  tag := fun ht => (h.2 (TagForm.prefix_of_isTag ht)).2
  other := fun ht hp => by
    rw [(h.2 hp).1] at ht
    cases ht

/-- Raw tags around a line that begins like a commented one. -/
def mixedTags : Text := "<? {{ name }} ?>\n<!-- mdon -->\n<?!>\n\n<??>\n".toList

theorem commentTags_mixedTags :
    List.Forall₂ Recommented mixedTags.lines (commentTags mixedTags).lines ∧
      ∀ line ∈ (commentTags mixedTags).lines, TagForm.raw.isTag line = false := by
  have hraw : ∀ line ∈ mixedTags.lines, IsRawLine line := by decide
  have hmem : ∀ {line after}, line :: after <:+ mixedTags.lines → IsRawLine line := fun hs =>
    hraw _ (hs.subset (List.mem_cons_self ..))
  obtain ⟨-, -, -, hplain, huntagged⟩ := commentTags_lines mixedTags
  refine ⟨hplain.mpr fun line after hs => (hmem hs).isPlain after, huntagged.mpr ?_⟩
  exact fun line after hs ht => .inl (((hmem hs).isPlain after).tag ht)

/-- A tag with a blank after it stays raw, and two lines that are no tags are rewritten. -/
theorem commentTags_mistaken :
    openingTag? "<? 1 ?> ".toList = some (.raw, ['1']) ∧
      commentTags "<? 1 ?> \n<?!>".toList = "<? 1 ?> \n<!--?!-->".toList ∧
      TagForm.raw.isTag "<?php>".toList = false ∧
      commentTags "<?php>".toList = "<!--?php-->".toList ∧
      TagForm.raw.isTag "<?abc".toList = false ∧
      commentTags "<?abc\n>".toList = "<!--?abc\n-->".toList := by
  decide

end MarkdownDirectives
