import Mathlib.Data.List.DropRight
import MarkdownDirectives.Directive.Fragment
import MarkdownDirectives.Proofs.LineBreaks

/-!
# Tag lines

A tag written for an expression is read back as the same tag of the same form with the same
expression, provided that no space stands at an end of the expression, and the expression of a tag
line is of that kind. Blank lines are no tags, so squeezing keeps the tags of a list of lines in
their order. Lines whose tags of a form are balanced are passed over by the search for a closing
tag.
-/

namespace MarkdownDirectives

/-! ### Trimming -/

namespace Text

variable {p : Char → Bool}

theorem dropEndWhile_eq_rdropWhile (t : Text) : dropEndWhile p t = t.rdropWhile p := by
  induction t with
  | nil => rfl
  | cons c t ih =>
    rw [dropEndWhile, ih]
    simp only [List.rdropWhile, List.reverse_cons, List.dropWhile_append]
    cases h : List.dropWhile p t.reverse with
    | nil => cases hc : p c <;> simp [hc]
    | cons d kept =>
      obtain ⟨e, rest, hr⟩ := List.exists_cons_of_ne_nil (by simp : (d :: kept).reverse ≠ [])
      rw [hr]
      simp [← hr]

theorem mem_of_mem_dropEndWhile {t : Text} {c : Char} (h : c ∈ dropEndWhile p t) : c ∈ t := by
  rw [dropEndWhile_eq_rdropWhile] at h
  exact (List.rdropWhile_prefix p t).subset h

theorem dropEndWhile_concat {t : Text} {c : Char} (h : p c = false) :
    dropEndWhile p (t ++ [c]) = t ++ [c] := by
  rw [dropEndWhile_eq_rdropWhile, List.rdropWhile_concat_neg p t c (by simp [h])]

theorem dropWhile_eq_self {t : Text} (h : ∀ c, t.head? = some c → p c = false) :
    t.dropWhile p = t := by
  cases t with
  | nil => rfl
  | cons c t => rw [List.dropWhile_cons_of_neg (by simp [h c rfl])]

theorem head?_dropWhile {t : Text} {c : Char} (h : (t.dropWhile p).head? = some c) :
    p c = false := by
  induction t with
  | nil => simp at h
  | cons d t ih =>
    cases hd : p d with
    | true =>
      rw [List.dropWhile_cons_of_pos hd] at h
      exact ih h
    | false =>
      rw [List.dropWhile_cons_of_neg (by simp [hd])] at h
      simpa [← Option.some.inj h] using hd

theorem head?_dropEndWhile {t : Text} {c : Char} (h : (dropEndWhile p t).head? = some c) :
    t.head? = some c := by
  rw [dropEndWhile_eq_rdropWhile] at h
  obtain ⟨more, hm⟩ := List.rdropWhile_prefix p t
  rw [← hm, List.head?_append, h]
  rfl

/-- A trimmed text has nothing more to trim. -/
theorem trimWhile_idem (t : Text) : trimWhile p (trimWhile p t) = trimWhile p t := by
  have hd : (trimWhile p t).dropWhile p = trimWhile p t :=
    dropWhile_eq_self fun c hc => head?_dropWhile (head?_dropEndWhile hc)
  rw [trimWhile, hd, trimWhile, dropEndWhile_eq_rdropWhile, dropEndWhile_eq_rdropWhile]
  exact List.rdropWhile_idempotent p _

theorem dropEndWhile_append {tail : Text} (h : ∀ c ∈ tail, p c = true) (t : Text) :
    dropEndWhile p (t ++ tail) = dropEndWhile p t := by
  have hr : ∀ c ∈ tail.reverse, p c = true := fun c hc => h c (List.mem_reverse.mp hc)
  rw [dropEndWhile_eq_rdropWhile, dropEndWhile_eq_rdropWhile, List.rdropWhile, List.reverse_append,
    List.dropWhile_append_of_pos hr]
  rfl

/-- What is dropped at the end is a run of dropped characters. -/
theorem exists_dropEndWhile (t : Text) :
    ∃ tail, t = dropEndWhile p t ++ tail ∧ ∀ c ∈ tail, p c = true := by
  refine ⟨t.rtakeWhile p, ?_, fun c hc => List.mem_rtakeWhile_imp hc⟩
  rw [dropEndWhile_eq_rdropWhile, List.rdropWhile_append_rtakeWhile]

theorem exists_trimWhile (t : Text) :
    ∃ left right, t = left ++ trimWhile p t ++ right ∧ (∀ c ∈ left, p c = true) ∧
      ∀ c ∈ right, p c = true := by
  obtain ⟨right, hr, hp⟩ := exists_dropEndWhile (p := p) (t.dropWhile p)
  refine ⟨t.takeWhile p, right, ?_, fun c hc => List.mem_takeWhile_imp hc, hp⟩
  rw [List.append_assoc, trimWhile, ← hr, List.takeWhile_append_dropWhile]

/-- What is put around a trimmed text is trimmed again. -/
theorem trimWhile_padded {left t right : Text} (hl : ∀ c ∈ left, p c = true)
    (hr : ∀ c ∈ right, p c = true) (ht : trimWhile p t = t) :
    trimWhile p (left ++ t ++ right) = t := by
  rw [trimWhile, List.append_assoc, List.dropWhile_append_of_pos hl]
  cases t with
  | nil =>
    have hd : right.dropWhile p = [] := List.dropWhile_eq_nil_iff.mpr hr
    rw [List.nil_append, hd]
    rfl
  | cons c t =>
    have hc : ∀ d, (c :: t).head? = some d → p d = false := fun d hd => by
      rw [← ht] at hd
      exact head?_dropWhile (head?_dropEndWhile hd)
    have hd : (c :: t ++ right).dropWhile p = c :: t ++ right := dropWhile_eq_self hc
    rw [hd, dropEndWhile_append hr]
    rwa [trimWhile, dropWhile_eq_self hc] at ht

theorem trimWhile_eq_self_iff {t : Text} :
    trimWhile p t = t ↔ (∀ c ∈ t.head?, p c = false) ∧ ∀ c ∈ t.getLast?, p c = false := by
  have hlast : dropEndWhile p t = t ↔ ∀ c ∈ t.getLast?, p c = false := by
    rw [dropEndWhile_eq_rdropWhile, List.rdropWhile_eq_self_iff]
    constructor
    · intro h c hc
      obtain ⟨hne, rfl⟩ := List.mem_getLast?_eq_getLast hc
      simpa using h hne
    · intro h hne
      have hc := h _ (List.getLast?_eq_some_getLast hne)
      simp [hc]
  constructor
  · intro h
    have hh : ∀ c ∈ t.head?, p c = false := fun c hc => by
      rw [← h] at hc
      exact head?_dropWhile (head?_dropEndWhile hc)
    rw [trimWhile, dropWhile_eq_self hh] at h
    exact ⟨hh, hlast.mp h⟩
  · intro h
    rw [trimWhile, dropWhile_eq_self h.1]
    exact hlast.mpr h.2

/-- A run of spaces and tabs. -/
def IsSpacing (t : Text) : Prop := ∀ c ∈ t, isSpace c = true

/-- No space or tab stands at an end of the text. -/
def Unspaced (t : Text) : Prop :=
  (∀ c ∈ t.head?, isSpace c = false) ∧ ∀ c ∈ t.getLast?, isSpace c = false

instance (t : Text) : Decidable t.IsSpacing :=
  List.decidableBAll (fun c => isSpace c = true) t

instance (t : Text) : Decidable t.Unspaced :=
  @instDecidableAnd _ _ (Option.decidableForallMem t.head?) (Option.decidableForallMem t.getLast?)

theorem unspaced_iff {t : Text} : t.Unspaced ↔ trimWhile isSpace t = t :=
  trimWhile_eq_self_iff.symm

end Text

/-! ### Blank lines -/

theorem Text.not_mem_of_isBlankLine {line : Text} {c : Char} (h : Text.isBlankLine line = true)
    (hc : Text.isBlank c = false) : c ∉ line := by
  intro hm
  have hb := List.all_eq_true.mp h c hm
  rw [hc] at hb
  exact absurd hb (by decide)

namespace TagForm

/-- Whether a line is a tag of the form. -/
def isTag (form : TagForm) (line : Text) : Bool := form.opens line || form.closes line

theorem mem_of_opens {form : TagForm} {line : Text} (h : form.opens line = true) : '<' ∈ line := by
  unfold opens opening? at h
  split at h
  · next hp =>
    obtain ⟨rest, rfl⟩ := List.isPrefixOf_iff_prefix.mp hp
    cases form <;> simp [openMark]
  · simp at h

theorem mem_of_closes {form : TagForm} {line : Text} (h : form.closes line = true) :
    '<' ∈ line := by
  have hl : Text.dropEndWhile Text.isSpace line = form.closeTag := by simpa [closes] using h
  apply Text.mem_of_mem_dropEndWhile (p := Text.isSpace)
  rw [hl]
  cases form <;> simp [closeTag]

theorem isTag_of_isBlankLine {form : TagForm} {line : Text} (h : Text.isBlankLine line = true) :
    form.isTag line = false := by
  have hn : '<' ∉ line := Text.not_mem_of_isBlankLine h (by decide)
  cases ho : form.opens line with
  | true => exact absurd (mem_of_opens ho) hn
  | false =>
    cases hc : form.closes line with
    | true => exact absurd (mem_of_closes hc) hn
    | false => simp [isTag, ho, hc]

/-! ### Reading a written tag -/

theorem closes_closeTag (form : TagForm) : form.closes form.closeTag = true := by
  cases form <;> decide

theorem dropEnding?_append (ending t : Text) : dropEnding? ending (t ++ ending) = some t := by
  have hs : ending.isSuffixOf (t ++ ending) = true :=
    List.isSuffixOf_iff_suffix.mpr (List.suffix_append t ending)
  have hl : (t ++ ending).length - ending.length = t.length := by simp
  rw [dropEnding?, if_pos hs, hl, List.take_left]

theorem dropEndWhile_endMark (form : TagForm) (t : Text) :
    Text.dropEndWhile Text.isSpace (t ++ form.endMark) = t ++ form.endMark := by
  obtain ⟨mark, hm⟩ : ∃ mark, form.endMark = mark ++ ['>'] := by
    cases form
    · exact ⟨['?'], rfl⟩
    · exact ⟨['?', '-', '-'], rfl⟩
  rw [hm, ← List.append_assoc]
  exact Text.dropEndWhile_concat (by decide)

/-- An opening tag line: the expression stands between the marks, with spaces and tabs around it and
after the tag. -/
def IsOpening (form : TagForm) (expression line : Text) : Prop :=
  expression.Unspaced ∧ ∃ left right after, Text.IsSpacing left ∧ Text.IsSpacing right ∧
    Text.IsSpacing after ∧
    line = form.openMark ++ (left ++ expression ++ right) ++ form.endMark ++ after

/-- A closing tag line: spaces and tabs may follow the tag. -/
def IsClosing (form : TagForm) (line : Text) : Prop :=
  ∃ after, Text.IsSpacing after ∧ line = form.closeTag ++ after

/-- The lines that are read as opening tags are those that look like one. -/
theorem opening?_eq_some_iff {form : TagForm} {line expression : Text} :
    form.opening? line = some expression ↔ form.IsOpening expression line := by
  constructor
  · intro h
    unfold opening? at h
    split at h
    · next hp =>
      obtain ⟨rest, rfl⟩ := List.isPrefixOf_iff_prefix.mp hp
      rw [List.drop_left] at h
      obtain ⟨inner, hi, rfl⟩ := Option.map_eq_some_iff.mp h
      unfold dropEnding? at hi
      split at hi
      · next hs =>
        obtain ⟨start, hstart⟩ := List.isSuffixOf_iff_suffix.mp hs
        obtain ⟨after, hrest, hafter⟩ := Text.exists_dropEndWhile (p := Text.isSpace) rest
        have hinner : start = inner := by
          rw [← hstart] at hi
          simpa using hi
        obtain ⟨left, right, htrim, hleft, hright⟩ :=
          Text.exists_trimWhile (p := Text.isSpace) inner
        refine ⟨Text.unspaced_iff.mpr (Text.trimWhile_idem inner), left, right, after, hleft,
          hright, hafter, ?_⟩
        rw [← htrim, hrest, ← hstart, hinner]
        simp only [List.append_assoc]
      · cases hi
    · cases h
  · rintro ⟨hx, left, right, after, hleft, hright, hafter, rfl⟩
    have hline : form.openMark ++ (left ++ expression ++ right) ++ form.endMark ++ after =
        form.openMark ++ ((left ++ expression ++ right) ++ form.endMark ++ after) := by
      simp only [List.append_assoc]
    have hp : form.openMark.isPrefixOf
        (form.openMark ++ ((left ++ expression ++ right) ++ form.endMark ++ after)) = true :=
      List.isPrefixOf_iff_prefix.mpr (List.prefix_append _ _)
    rw [hline, opening?, if_pos hp, List.drop_left, Text.dropEndWhile_append hafter,
      dropEndWhile_endMark, dropEnding?_append, Option.map_some,
      Text.trimWhile_padded hleft hright (Text.unspaced_iff.mp hx)]

theorem dropEndWhile_closeTag (form : TagForm) :
    Text.dropEndWhile Text.isSpace form.closeTag = form.closeTag := by
  cases form <;> decide

theorem closes_iff {form : TagForm} {line : Text} :
    form.closes line = true ↔ form.IsClosing line := by
  have hc : form.closes line = true ↔ Text.dropEndWhile Text.isSpace line = form.closeTag := by
    simp [closes]
  rw [hc]
  constructor
  · intro h
    obtain ⟨after, hl, hafter⟩ := Text.exists_dropEndWhile (p := Text.isSpace) line
    exact ⟨after, hafter, h ▸ hl⟩
  · rintro ⟨after, hafter, rfl⟩
    rw [Text.dropEndWhile_append hafter, dropEndWhile_closeTag]

theorem isOpening_openTag (form : TagForm) {expression : Text} (h : expression.Unspaced) :
    form.IsOpening expression (form.openTag expression) := by
  have hspace : Text.IsSpacing [' '] := by decide
  refine ⟨h, [' '], [' '], [], hspace, hspace, fun c hc => absurd hc List.not_mem_nil, ?_⟩
  simp [openTag]

/-- Only the expression brings further characters into a written tag. -/
theorem not_mem_openTag {form : TagForm} {expression : Text} {c : Char} (hc : c ∉ form.openTag [])
    (h : c ∉ expression) : c ∉ form.openTag expression := by
  intro hm
  simp only [openTag, List.mem_append, List.mem_cons] at hm hc
  tauto

/-- What an opening tag line says of its expression. -/
theorem of_opening? {form : TagForm} {line expression : Text}
    (h : form.opening? line = some expression) :
    Text.trimWhile Text.isSpace expression = expression ∧ ∀ c ∈ expression, c ∈ line := by
  obtain ⟨hx, left, right, after, -, -, -, rfl⟩ := opening?_eq_some_iff.mp h
  refine ⟨Text.unspaced_iff.mp hx, fun c hc => ?_⟩
  simp only [List.mem_append]
  exact .inl (.inl (.inr (.inl (.inr hc))))

/-- Opening and closing tags begin with the same mark. -/
theorem prefix_of_isTag {form : TagForm} {line : Text} (h : form.isTag line = true) :
    form.openMark <+: line := by
  rcases Bool.or_eq_true_iff.mp h with ho | hc
  · obtain ⟨expression, hx⟩ := Option.isSome_iff_exists.mp ho
    obtain ⟨-, left, right, after, -, -, -, rfl⟩ := opening?_eq_some_iff.mp hx
    simp only [List.append_assoc]
    exact List.prefix_append _ _
  · obtain ⟨after, -, rfl⟩ := closes_iff.mp hc
    refine List.IsPrefix.trans ?_ (List.prefix_append _ _)
    cases form <;> decide

/-- A tag begins with an angle bracket. -/
theorem isTag_cons {form : TagForm} {c : Char} (hc : c ≠ '<') (line : Text) :
    form.isTag (c :: line) = false := by
  have ho : form.opens (c :: line) = false := by
    cases form <;> simp [opens, opening?, openMark, Ne.symm hc]
  have hcl : form.closes (c :: line) = false := by
    refine Bool.eq_false_iff.mpr fun h => hc ?_
    have hl : Text.dropEndWhile Text.isSpace (c :: line) = form.closeTag := by
      simpa [closes] using h
    have hh : (c :: line).head? = some '<' := by
      apply Text.head?_dropEndWhile (p := Text.isSpace)
      rw [hl]
      cases form <;> rfl
    exact Option.some.inj hh
  simp [isTag, ho, hcl]

end TagForm

theorem opening?_of_openingTag? {form : TagForm} {line expression : Text}
    (h : openingTag? line = some (form, expression)) : form.opening? line = some expression := by
  unfold openingTag? at h
  split at h
  · next hr =>
    cases h
    exact hr
  · obtain ⟨e, he, hf⟩ := Option.map_eq_some_iff.mp h
    cases hf
    exact he

theorem unbroken_of_openingTag? {form : TagForm} {line expression : Text}
    (h : openingTag? line = some (form, expression)) (hu : line.Unbroken) :
    expression.Unbroken := by
  have hc := (TagForm.of_opening? (opening?_of_openingTag? h)).2
  exact ⟨fun hm => hu.1 (hc _ hm), fun hm => hu.2 (hc _ hm)⟩

/-- No line is an opening tag of both forms. -/
theorem opening?_raw_of_commented {line expression : Text}
    (h : TagForm.commented.opening? line = some expression) :
    TagForm.raw.opening? line = none := by
  obtain ⟨-, left, right, after, -, -, -, rfl⟩ := TagForm.opening?_eq_some_iff.mp h
  rfl

theorem openingTag?_eq_some_iff {form : TagForm} {line expression : Text} :
    openingTag? line = some (form, expression) ↔ form.IsOpening expression line := by
  rw [← TagForm.opening?_eq_some_iff]
  constructor
  · exact opening?_of_openingTag?
  · intro h
    cases form with
    | raw => simp only [openingTag?, h]
    | commented => simp only [openingTag?, opening?_raw_of_commented h, h, Option.map_some]

theorem openingTag?_eq_none_iff {line : Text} :
    openingTag? line = none ↔ ∀ form expression, ¬ TagForm.IsOpening form expression line := by
  rw [Option.eq_none_iff_forall_ne_some]
  constructor
  · intro h form expression ho
    exact h _ (openingTag?_eq_some_iff.mpr ho)
  · intro h tag ht
    exact h tag.1 tag.2 (openingTag?_eq_some_iff.mp ht)

theorem openingTag?_openTag (form : TagForm) {expression : Text}
    (h : Text.trimWhile Text.isSpace expression = expression) :
    openingTag? (form.openTag expression) = some (form, expression) :=
  openingTag?_eq_some_iff.mpr (form.isOpening_openTag (Text.unspaced_iff.mpr h))

theorem openingTag?_of_isBlankLine {line : Text} (h : Text.isBlankLine line = true) :
    openingTag? line = none := by
  cases ho : openingTag? line with
  | none => rfl
  | some tag =>
    obtain ⟨form, expression⟩ := tag
    have hf : form.opens line = true := by
      rw [TagForm.opens, opening?_of_openingTag? ho]
      rfl
    exact absurd (TagForm.mem_of_opens hf) (Text.not_mem_of_isBlankLine h (by decide))

theorem not_isBlankLine_of_openingTag? {line : Text} {tag : TagForm × Text}
    (h : openingTag? line = some tag) : Text.isBlankLine line = false := by
  cases hb : Text.isBlankLine line with
  | false => rfl
  | true => simp [openingTag?_of_isBlankLine hb] at h

/-! ### Balanced tags -/

namespace TagForm

variable {form : TagForm}

theorem not_isBlankLine_of_closes {line : Text} (h : form.closes line = true) :
    Text.isBlankLine line = false := by
  cases hb : Text.isBlankLine line with
  | false => rfl
  | true => exact absurd (mem_of_closes h) (Text.not_mem_of_isBlankLine hb (by decide))

/-- How many tags of the form are open after the lines, `depth` of them before; none if a closing
tag comes when no tag is open. -/
def openAfter (form : TagForm) : Nat → List Text → Option Nat
  | depth, [] => some depth
  | depth, line :: more =>
    if form.closes line then
      match depth with
      | 0 => none
      | depth + 1 => openAfter form depth more
    else if form.opens line then openAfter form (depth + 1) more
    else openAfter form depth more

/-- From the top on no more tags of the form are closed than opened, and at the end as many. -/
def Balanced (form : TagForm) (ls : List Text) : Prop := form.openAfter 0 ls = some 0

instance (form : TagForm) (ls : List Text) : Decidable (form.Balanced ls) :=
  inferInstanceAs (Decidable (form.openAfter 0 ls = some 0))

theorem openAfter_append (depth : Nat) (first more : List Text) :
    form.openAfter depth (first ++ more) =
      (form.openAfter depth first).bind (form.openAfter · more) := by
  induction first generalizing depth with
  | nil => rfl
  | cons line first ih =>
    simp only [List.cons_append, openAfter]
    split
    · cases depth with
      | zero => rfl
      | succ depth => exact ih depth
    · split
      · exact ih (depth + 1)
      · exact ih depth

theorem openAfter_skip {line : Text} (h : form.isTag line = false) (depth : Nat)
    (more : List Text) : form.openAfter depth (line :: more) = form.openAfter depth more := by
  obtain ⟨ho, hc⟩ := Bool.or_eq_false_iff.mp h
  simp [openAfter, ho, hc]

theorem openAfter_untagged {ls : List Text} (h : ∀ line ∈ ls, form.isTag line = false)
    (depth : Nat) : form.openAfter depth ls = some depth := by
  induction ls with
  | nil => rfl
  | cons line ls ih =>
    rw [openAfter_skip (h line (List.mem_cons_self ..))]
    exact ih fun l hl => h l (List.mem_cons_of_mem _ hl)

/-- Squeezing changes blank lines only, so the tags stay. -/
theorem openAfter_squeeze (b : Bool) (depth : Nat) (ls : List Text) :
    form.openAfter depth (Text.squeeze b ls) = form.openAfter depth ls := by
  induction ls generalizing b depth with
  | nil => rfl
  | cons line ls ih =>
    cases hb : Text.isBlankLine line with
    | true =>
      rw [Text.squeeze_blank b ls hb, openAfter_skip (isTag_of_isBlankLine hb)]
      cases b with
      | true => exact ih true depth
      | false => exact (openAfter_skip (isTag_of_isBlankLine rfl) depth _).trans (ih true depth)
    | false =>
      rw [Text.squeeze_visible b ls hb]
      simp only [openAfter, ih]

theorem openAfter_normalizeLines (depth : Nat) (ls : List Text) :
    form.openAfter depth (Text.normalizeLines ls) = form.openAfter depth ls := by
  have hf : ∀ ls, form.openAfter depth (Text.normalizeFront ls) = form.openAfter depth ls := by
    intro ls
    cases ls with
    | nil => rfl
    | cons line more => simp only [Text.normalizeFront, openAfter, openAfter_squeeze]
  rcases List.eq_nil_or_concat' ls with rfl | ⟨ls, last, rfl⟩
  · rfl
  · rw [Text.normalizeLines_concat, openAfter_append, openAfter_append, hf]

theorem balanced_normalizeLineBreaks {t : Text} :
    form.Balanced (Text.normalizeLineBreaks t).lines ↔ form.Balanced t.rows := by
  rw [Text.lines_normalizeLineBreaks, Balanced, Balanced, openAfter_normalizeLines]

/-- Empty lines around the lines do not matter. -/
theorem balanced_padded {ls : List Text} :
    form.Balanced ([] :: (ls ++ [[]])) ↔ form.Balanced ls := by
  have hb : form.isTag [] = false := isTag_of_isBlankLine rfl
  rw [Balanced, openAfter_skip hb, openAfter_append]
  cases h : form.openAfter 0 ls with
  | none => simp [Balanced, h]
  | some depth =>
    rw [Option.bind_some, openAfter_skip hb, Balanced, h]
    rfl

/-- The search for a closing tag passes over lines that do not close the tags open before them. -/
theorem balancedClose?_pass {depth depth' : Nat} {ls : List Text}
    (h : form.openAfter depth ls = some depth') (more : List Text) :
    balancedClose? form depth (ls ++ more) =
      (balancedClose? form depth' more).map (· + ls.length) := by
  induction ls generalizing depth with
  | nil =>
    cases Option.some.inj h
    simp
  | cons line ls ih =>
    have hlen : ∀ n, n + ls.length + 1 = n + (line :: ls).length := fun n => by
      simp only [List.length_cons]
      omega
    simp only [List.cons_append, balancedClose?]
    simp only [openAfter] at h
    split
    · next hl =>
      rw [if_pos hl] at h
      cases depth with
      | zero => cases h
      | succ depth => simp only [ih h, Option.map_map, Function.comp_def, hlen]
    · next hl =>
      rw [if_neg hl] at h
      split
      · next ho =>
        rw [if_pos ho] at h
        simp only [ih h, Option.map_map, Function.comp_def, hlen]
      · next ho =>
        rw [if_neg ho] at h
        simp only [ih h, Option.map_map, Function.comp_def, hlen]

theorem openAfter_add {depth depth' : Nat} {ls : List Text}
    (h : form.openAfter depth ls = some depth') (n : Nat) :
    form.openAfter (depth + n) ls = some (depth' + n) := by
  induction ls generalizing depth with
  | nil =>
    cases h
    rfl
  | cons line ls ih =>
    simp only [openAfter] at h ⊢
    split
    · next hc =>
      rw [if_pos hc] at h
      cases depth with
      | zero => cases h
      | succ depth =>
        rw [Nat.succ_add]
        exact ih h
    · next hc =>
      rw [if_neg hc] at h
      split
      · next ho =>
        rw [if_pos ho] at h
        rw [Nat.add_right_comm]
        exact ih h
      · next ho =>
        rw [if_neg ho] at h
        exact ih h

/-- Balanced lines leave open what was open before them. -/
theorem Balanced.openAfter_eq {ls : List Text} (h : form.Balanced ls) (depth : Nat) :
    form.openAfter depth ls = some depth := by
  have ha := openAfter_add h depth
  rwa [Nat.zero_add] at ha

/-- Lines that close a tag which was not open in them end the search, whatever comes after them. -/
theorem balancedClose?_stop {depth : Nat} {ls : List Text} (h : form.openAfter depth ls = none) :
    ∃ count < ls.length, ∀ more, balancedClose? form depth (ls ++ more) = some count := by
  induction ls generalizing depth with
  | nil => cases h
  | cons line ls ih =>
    have step : ∀ depth, form.openAfter depth ls = none → ∃ count < (line :: ls).length,
        ∀ more, (balancedClose? form depth (ls ++ more)).map (· + 1) = some count := by
      intro depth hd
      obtain ⟨count, hlt, hc⟩ := ih hd
      refine ⟨count + 1, by simpa using hlt, fun more => ?_⟩
      rw [hc more, Option.map_some]
    simp only [List.cons_append, balancedClose?]
    simp only [openAfter] at h
    split
    · next hl =>
      rw [if_pos hl] at h
      cases depth with
      | zero => exact ⟨0, by simp, fun _ => rfl⟩
      | succ depth => exact step depth h
    · next hl =>
      rw [if_neg hl] at h
      split
      · next ho =>
        rw [if_pos ho] at h
        exact step (depth + 1) h
      · next ho =>
        rw [if_neg ho] at h
        exact step depth h

/-- Whether a search fails does not depend on lines it passes over, if the same tags are open after
them. -/
theorem balancedClose?_eq_none_congr {depth : Nat} {ls ls' more : List Text}
    (hl : form.openAfter depth ls = form.openAfter depth ls')
    (h : balancedClose? form depth (ls ++ more) = none) :
    balancedClose? form depth (ls' ++ more) = none := by
  cases ho : form.openAfter depth ls with
  | none =>
    obtain ⟨count, -, hc⟩ := balancedClose?_stop ho
    rw [hc more] at h
    cases h
  | some depth' =>
    rw [balancedClose?_pass ho, Option.map_eq_none_iff] at h
    rw [balancedClose?_pass (hl ▸ ho), h, Option.map_none]

/-- An envelope ends at the first closing tag after balanced lines. -/
theorem balancedClose?_append {closing : Text} (hc : form.closes closing = true)
    (more : List Text) {depth : Nat} {ls : List Text} (h : form.openAfter depth ls = some 0) :
    balancedClose? form depth (ls ++ closing :: more) = some ls.length := by
  rw [balancedClose?_pass h]
  simp only [balancedClose?, hc, ite_true, Option.map_some, Nat.zero_add]

theorem closingLine?_append {closing : Text} (hc : form.closes closing = true) (more : List Text)
    {ls : List Text} (h : form.Balanced ls) :
    closingLine? form (ls ++ closing :: more) = some ls.length := by
  rw [closingLine?, balancedClose?_append hc more h, Option.some_or]

/-- Where an envelope ends within some lines depends on the lines after them only by whether a
closing tag is found there. -/
theorem closingLine?_congr {count : Nat} {ls rest rest' : List Text}
    (h : closingLine? form (ls ++ rest) = some count) (hlt : count < ls.length)
    (hr : ∀ depth, balancedClose? form depth rest = none →
      balancedClose? form depth rest' = none) :
    closingLine? form (ls ++ rest') = some count := by
  unfold closingLine? at h ⊢
  cases ho : form.openAfter 0 ls with
  | none =>
    obtain ⟨n, -, hn⟩ := balancedClose?_stop ho
    rw [hn rest] at h
    rw [hn rest']
    exact h
  | some depth =>
    rw [balancedClose?_pass ho] at h ⊢
    cases hb : balancedClose? form depth rest with
    | some n =>
      -- the tag found after the lines would be too far away
      rw [hb] at h
      have hn : n + ls.length = count := Option.some.inj h
      omega
    | none =>
      rw [hb, Option.map_none, Option.none_or] at h
      rw [hr depth hb, Option.map_none, Option.none_or]
      rw [List.findIdx?_append] at h ⊢
      cases hf : ls.findIdx? form.closes with
      | some n =>
        rw [hf, Option.some_or] at h
        rw [Option.some_or]
        exact h
      | none =>
        rw [hf, Option.none_or] at h
        obtain ⟨n, -, hn⟩ := Option.map_eq_some_iff.mp h
        omega

theorem of_balancedClose? {depth count : Nat} {ls : List Text}
    (h : balancedClose? form depth ls = some count) :
    ∃ before closing more, ls = before ++ closing :: more ∧ before.length = count ∧
      form.closes closing = true := by
  induction ls generalizing depth count with
  | nil => cases h
  | cons line ls ih =>
    have step : ∀ depth, (balancedClose? form depth ls).map (· + 1) = some count →
        ∃ before closing more, line :: ls = before ++ closing :: more ∧
          before.length = count ∧ form.closes closing = true := by
      intro depth hd
      obtain ⟨n, hn, rfl⟩ := Option.map_eq_some_iff.mp hd
      obtain ⟨before, closing, more, rfl, rfl, hc⟩ := ih hn
      exact ⟨line :: before, closing, more, rfl, rfl, hc⟩
    simp only [balancedClose?] at h
    split at h
    · next hl =>
      cases depth with
      | zero =>
        cases h
        exact ⟨[], line, ls, rfl, rfl, hl⟩
      | succ depth => exact step depth h
    · split at h
      · exact step (depth + 1) h
      · exact step depth h

/-- Where an envelope is closed there is a closing tag. -/
theorem of_closingLine? {count : Nat} {ls : List Text} (h : closingLine? form ls = some count) :
    ∃ before closing more, ls = before ++ closing :: more ∧ before.length = count ∧
      form.closes closing = true := by
  rcases Option.or_eq_some_iff.mp h with h | ⟨-, h⟩
  · exact of_balancedClose? h
  · obtain ⟨hl, hc, -⟩ := List.findIdx?_eq_some_iff_getElem.mp h
    refine ⟨ls.take count, ls[count], ls.drop (count + 1), ?_, ?_, hc⟩
    · rw [← List.drop_eq_getElem_cons hl, List.take_append_drop]
    · rw [List.length_take]
      omega

theorem closingLine?_eq_none_iff {ls : List Text} :
    closingLine? form ls = none ↔ ∀ line ∈ ls, ¬ form.IsClosing line := by
  have hcloses : (∀ line ∈ ls, ¬ form.IsClosing line) ↔ ∀ line ∈ ls, form.closes line = false := by
    simp only [← closes_iff, Bool.not_eq_true]
  rw [hcloses]
  constructor
  · intro h line hl
    exact List.findIdx?_eq_none_iff.mp (Option.or_eq_none_iff.mp h).2 line hl
  · intro h
    cases hc : closingLine? form ls with
    | none => rfl
    | some count =>
      obtain ⟨before, closing, more, rfl, -, hclosing⟩ := of_closingLine? hc
      have hopen := h closing (by simp)
      rw [hclosing] at hopen
      cases hopen

end TagForm

end MarkdownDirectives
