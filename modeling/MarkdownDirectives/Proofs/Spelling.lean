import MarkdownDirectives.Expression.Template
import MarkdownDirectives.Proofs.Escapes
import MarkdownDirectives.Proofs.PathPatterns

/-!
# Spelling paths and templates

A property path and a template are kept as what they select, not as they were written. Every path
and template that was read has a spelling that is read as the same one: a key that is no word goes
into quotation marks, of which it holds at most one kind, and in the text of a template dollar signs
and backslashes are escaped, so that nothing in it resembles an interpolation.
-/

namespace MarkdownDirectives

/-! ### Segments -/

namespace Segment

/-- A key has at most one kind of quotation marks, and a position fits into 64 bits. -/
def Spellable : Segment → Prop
  | key name => '\'' ∉ name ∨ '"' ∉ name
  | index position => position < Nat.pow 2 64

/-- The step that selects the segment. -/
def step : Segment → PropertyPath.Step
  | key name => .name name
  | index position => .digits (Text.ofNat position)

def spell : Segment → Text
  | key name =>
    if name ≠ [] ∧ name.all Text.isWord = true then '.' :: name
    else if '\'' ∉ name then '[' :: '\'' :: (name ++ ['\'', ']'])
    else '[' :: '"' :: (name ++ ['"', ']'])
  | index position => '[' :: (Text.ofNat position ++ [']'])

theorem segment?_step {segment : Segment} (h : segment.Spellable) :
    segment.step.segment? = some segment := by
  cases segment with
  | key name => rfl
  | index position =>
    have hdigits : (Text.ofNat position).all Char.isDigit = true :=
      List.all_eq_true.mpr fun c hc => Text.isDigit_of_mem_ofNat hc
    have hvalue := Text.digitsValue_ofNat position
    have hbound : position < Nat.pow 2 64 := h
    simp only [step, PropertyPath.Step.segment?, PropertyPath.position?, hdigits, hvalue, hbound,
      decide_true, Bool.and_self, if_true, Option.map_some]

theorem written_spell {segment : Segment} (h : segment.Spellable) :
    segment.step.Written segment.spell := by
  have hnone := PropertyPath.isBlank_nil
  cases segment with
  | key name =>
    by_cases hword : name ≠ [] ∧ name.all Text.isWord = true
    · rw [spell, if_pos hword]
      exact .dotted ⟨hword.1, List.all_eq_true.mp hword.2⟩
    · by_cases hq : '\'' ∉ name
      · have hwritten := PropertyPath.Step.Written.bracketed hnone (.quoted (.inl rfl) hq) hnone
        rw [spell, if_neg hword, if_pos hq]
        simpa [step] using hwritten
      · have hother : '"' ∉ name := h.resolve_left hq
        have hwritten := PropertyPath.Step.Written.bracketed hnone (.quoted (.inr rfl) hother) hnone
        rw [spell, if_neg hword, if_neg hq]
        simpa [step] using hwritten
  | index position =>
    have hdigits : ∀ c ∈ Text.ofNat position, Text.isDecimalDigit c = true := fun c hc => by
      simp [Text.isDecimalDigit, Text.isDigit_of_mem_ofNat hc]
    have hwritten := PropertyPath.Step.Written.bracketed hnone
      (.digits (Text.ofNat_ne_nil position) hdigits) hnone
    rwa [List.nil_append, List.append_nil] at hwritten

/-- A segment that was read has a spelling. -/
theorem Written.spellable {text : Text} {segment : Segment} (h : segment.Written text) :
    segment.Spellable := by
  cases h with
  | dotted hname => exact .inl fun hq => absurd (hname.2 _ hq) (by decide)
  | position _ _ _ hbound _ => exact hbound
  | quoted _ hquote hname _ =>
    rcases hquote with rfl | rfl
    · exact .inl hname
    · exact .inr hname

end Segment

namespace PropertyPath

/-! ### Paths -/

/-- The path begins with a word. -/
def Spellable (path : PropertyPath) : Prop :=
  ∃ head more, path = .key head :: more ∧ head ≠ [] ∧ (∀ c ∈ head, Text.isWord c = true) ∧
    ∀ segment ∈ more, segment.Spellable

def spell : PropertyPath → Text
  | .key head :: more => head ++ more.flatMap Segment.spell
  | path => path.flatMap Segment.spell

theorem writesSteps_spell {path : PropertyPath} (h : path.Spellable) :
    WritesSteps path.spell (path.map Segment.step) := by
  obtain ⟨head, more, rfl, hne, hword, hmore⟩ := h
  refine ⟨head, more.map Segment.spell, more.map Segment.step, ?_, ⟨hne, hword⟩, ?_, rfl⟩
  · rw [spell, List.flatMap_def]
  · rw [List.forall₂_map_left_iff, List.forall₂_map_right_iff, List.forall₂_same]
    exact fun segment hs => Segment.written_spell (hmore segment hs)

theorem mapM_segment? {path : PropertyPath} (h : path.Spellable) :
    (path.map Segment.step).mapM Step.segment? = some path := by
  obtain ⟨head, more, rfl, -, -, hmore⟩ := h
  refine mapM_map_eq_some fun segment hs => ?_
  rcases List.mem_cons.mp hs with rfl | hs
  · rfl
  · exact Segment.segment?_step (hmore segment hs)

theorem parse?_spell {path : PropertyPath} (h : path.Spellable) :
    parse? path.spell = some path := by
  have hread := parse?_of_writesSteps isBlank_nil (writesSteps_spell h) isBlank_nil
  rwa [List.nil_append, List.append_nil, mapM_segment? h] at hread

/-! ### Paths that were read -/

theorem Writes.spellable {t : Text} {path : PropertyPath} (h : Writes t path) : path.Spellable := by
  obtain ⟨_, head, texts, segments, _, -, -, hhead, hsegments, -, rfl⟩ := h
  refine ⟨head, segments, rfl, hhead.1, hhead.2, fun segment hs => ?_⟩
  obtain ⟨text, -, hwritten⟩ := exists_of_mem_forall₂ hsegments hs
  exact hwritten.spellable

theorem spellable_of_parse? {t : Text} {path : PropertyPath} (h : parse? t = some path) :
    path.Spellable :=
  (parse?_eq_some_iff.mp h).spellable

end PropertyPath

/-! ### Escaped text -/

namespace Escape

/-- A character of a template's text, without a dollar sign. -/
def spellChar (c : Char) : Text :=
  if c = '\\' then ['\\', '\\'] else if c = '$' then ['\\', 'u', '\x7b', '2', '4', '\x7d'] else [c]

theorem decode_spell (t : Text) : decode (t.flatMap spellChar) = some t := by
  rw [decode_eq_some_iff]
  induction t with
  | nil => exact .nil
  | cons c t ih =>
    rw [List.flatMap_cons]
    by_cases hb : c = '\\'
    · subst hb
      exact .escape (.short rfl) ih
    · by_cases hd : c = '$'
      · subst hd
        have hscalar : scalarOfDigits? ['2', '4'] = some '$' := by decide
        exact .escape (.scalar hscalar) ih
      · have hself : spellChar c = [c] := by rw [spellChar, if_neg hb, if_neg hd]
        rw [hself]
        exact .char hb ih

theorem not_mem_spell (t : Text) : '$' ∉ t.flatMap spellChar := by
  intro h
  obtain ⟨c, -, hc⟩ := List.mem_flatMap.mp h
  unfold spellChar at hc
  split at hc
  · simp at hc
  · split at hc
    · simp at hc
    · next hd => exact hd (List.mem_singleton.mp hc).symm

theorem spellChar_ne_nil (c : Char) : spellChar c ≠ [] := by
  unfold spellChar
  split
  · exact List.cons_ne_nil _ _
  · split <;> exact List.cons_ne_nil _ _

end Escape

namespace TemplatePart

/-! ### Templates -/

/-- Texts are not empty and stand between interpolations. -/
def Tidy : List TemplatePart → Prop
  | [] => True
  | .text t :: more => t ≠ [] ∧ (∀ u rest, more ≠ .text u :: rest) ∧ Tidy more
  | .interpolation path :: more => path.Spellable ∧ Tidy more

def spellPart : TemplatePart → Text
  | .text t => t.flatMap Escape.spellChar
  | .interpolation path => '$' :: '\x7b' :: (path.spell ++ ['\x7d'])

def spell (parts : List TemplatePart) : Text := parts.flatMap spellPart

/-- The piece of a spelled template that gives the part. -/
def piece : TemplatePart → Pattern.Piece
  | .text t => .text (t.flatMap Escape.spellChar)
  | .interpolation path => .found [(1, path.spell)]

theorem search_interpolation {path : PropertyPath} (h : path.Spellable) (rest : Text) :
    interpolationPattern.search 0 (spellPart (.interpolation path) ++ rest) =
      piece (.interpolation path) :: interpolationPattern.search 0 rest := by
  have hhead := PropertyPath.head?_ways_interpolationPattern PropertyPath.isBlank_nil
    (PropertyPath.writesSteps_spell h) PropertyPath.isBlank_nil rest
  rw [List.nil_append, List.append_nil] at hhead
  exact Pattern.search_of_head? hhead (List.cons_ne_nil _ _)

theorem ways_of_ne {c : Char} (h : c ≠ '$') (t : Text) :
    interpolationPattern.ways (c :: t) = [] := by
  refine List.eq_nil_iff_forall_not_mem.mpr fun m hm => ?_
  obtain ⟨taken, ht, htakes⟩ := Pattern.mem_ways_iff.mp hm
  obtain ⟨before, p, after, path, rfl, -⟩ := PropertyPath.takes_interpolationPattern.mp htakes
  exact h (List.cons.inj ht).1

theorem search_spell {parts : List TemplatePart} (h : Tidy parts) :
    interpolationPattern.search 0 (spell parts) = parts.map piece := by
  induction parts with
  | nil => rfl
  | cons part more ih =>
    have hcons : spell (part :: more) = spellPart part ++ spell more := List.flatMap_cons
    cases part with
    | text t =>
      obtain ⟨hne, hnext, hmore⟩ := h
      have hspelled : t.flatMap Escape.spellChar ≠ [] := by
        cases t with
        | nil => exact absurd rfl hne
        | cons c t =>
          rw [List.flatMap_cons]
          exact List.append_ne_nil_of_left_ne_nil (Escape.spellChar_ne_nil c) _
      have hplain : ∀ c ∈ t.flatMap Escape.spellChar, ∀ rest,
          interpolationPattern.ways (c :: rest) = [] := by
        intro c hc rest
        exact ways_of_ne (fun hsame => Escape.not_mem_spell t (hsame ▸ hc)) rest
      have hrest : ∀ u rest, more.map piece ≠ .text u :: rest := by
        intro u rest hr
        obtain ⟨part, tail, rfl, hp, -⟩ := List.map_eq_cons_iff.mp hr
        cases part with
        | text v => exact hnext v tail rfl
        | interpolation path => cases hp
      rw [hcons, spellPart, Pattern.search_text hplain, ih hmore,
        Pattern.foldr_consChar hspelled hrest]
      rfl
    | interpolation path =>
      rw [hcons, search_interpolation h.1, ih h.2]
      rfl

theorem ofPiece?_piece {parts : List TemplatePart} (h : Tidy parts) :
    ∀ part ∈ parts, ofPiece? (piece part) = some part := by
  induction parts with
  | nil => exact fun part hp => by cases hp
  | cons first more ih =>
    intro part hp
    rcases List.mem_cons.mp hp with rfl | hm
    · cases part with
      | text t => simp only [piece, ofPiece?, Escape.decode_spell, Option.map_some]
      | interpolation path =>
        have hread := PropertyPath.parse?_spell h.1
        simp [piece, ofPiece?, hread]
    · cases first with
      | text t => exact ih h.2.2 part hm
      | interpolation path => exact ih h.2 part hm

theorem parse?_spell {parts : List TemplatePart} (h : Tidy parts) :
    parse? (spell parts) = some parts := by
  rw [parse?, search_spell h]
  exact mapM_map_eq_some (ofPiece?_piece h)

/-! ### Templates that were read -/

/-- The same of the pieces of a search. -/
def TidyPieces : List Pattern.Piece → Prop
  | [] => True
  | .text t :: more => t ≠ [] ∧ (∀ u rest, more ≠ .text u :: rest) ∧ TidyPieces more
  | .found _ :: more => TidyPieces more

theorem tidyPieces_consChar (c : Char) {pieces : List Pattern.Piece} (h : TidyPieces pieces) :
    TidyPieces (Pattern.Piece.consChar c pieces) := by
  cases pieces with
  | nil => exact ⟨List.cons_ne_nil _ _, (fun _ _ hr => by cases hr), trivial⟩
  | cons piece more =>
    cases piece with
    | text t => exact ⟨List.cons_ne_nil _ _, h.2⟩
    | found groups => exact ⟨List.cons_ne_nil _ _, (fun _ _ hr => by cases hr), h⟩

theorem tidyPieces_search (p : Pattern) (skip : Nat) (t : Text) : TidyPieces (p.search skip t) := by
  induction t generalizing skip with
  | nil => cases skip <;> trivial
  | cons c t ih =>
    cases skip with
    | succ skip => exact ih skip
    | zero =>
      rw [Pattern.search]
      split
      · exact ih _
      · exact tidyPieces_consChar c (ih 0)

theorem exists_path_of_found {groups : Pattern.Groups} {part : TemplatePart}
    (h : ofPiece? (.found groups) = some part) :
    ∃ path : PropertyPath, path.Spellable ∧ part = .interpolation path := by
  obtain ⟨text, -, hread⟩ := Option.bind_eq_some_iff.mp h
  obtain ⟨path, hpath, hpart⟩ := Option.bind_eq_some_iff.mp hread
  cases hpart
  exact ⟨path, PropertyPath.spellable_of_parse? hpath, rfl⟩

theorem tidy_of_parse? {inside : Text} {parts : List TemplatePart}
    (h : parse? inside = some parts) : Tidy parts := by
  have key : ∀ {pieces : List Pattern.Piece} {parts : List TemplatePart},
      List.Forall₂ (fun piece part => ofPiece? piece = some part) pieces parts →
      TidyPieces pieces → Tidy parts := by
    intro pieces parts hr ht
    induction hr with
    | nil => trivial
    | @cons piece part pieces parts hp hmore ih =>
      cases piece with
      | text t =>
        obtain ⟨u, hu, rfl⟩ := Option.map_eq_some_iff.mp hp
        refine ⟨(Escape.decode_eq_some_iff.mp hu).ne_nil ht.1, fun v rest hv => ?_, ih ht.2.2⟩
        subst hv
        obtain ⟨piece, rest', hpiece, -, rfl⟩ := List.forall₂_cons_right_iff.mp hmore
        cases piece with
        | text w => exact ht.2.1 w rest' rfl
        | found groups =>
          obtain ⟨path, -, hpath⟩ := exists_path_of_found hpiece
          cases hpath
      | found groups =>
        obtain ⟨path, hpath, rfl⟩ := exists_path_of_found hp
        exact ⟨hpath, ih ht⟩
  exact key (mapM_eq_some_iff.mp h) (tidyPieces_search interpolationPattern 0 inside)

end TemplatePart

end MarkdownDirectives
