import MarkdownDirectives.Proofs.Reading

/-!
# The normal form of a text

Normalizing keeps every visible line as it is, and of the blank lines between two visible ones it
keeps one, which it empties. So a run of blanks never holds more than two line feeds, and the
visible lines with the places of the blank ones are what the normal form of a text depends on, apart
from its first and its last line. Two texts may be normalized before they are joined, as the line at
the cut is the last line of the first text and the first line of the second one, and those stay.
-/

namespace MarkdownDirectives.Text

/-! ### Visible lines -/

/-- The visible lines, each with whether the line before it is blank; the flag says this of the
first line. -/
def outline : Bool → List Text → List (Bool × Text)
  | _, [] => []
  | afterBlank, line :: more =>
    if isBlankLine line then outline true more else (afterBlank, line) :: outline false more

theorem outline_blank {line : Text} (b : Bool) (more : List Text) (h : isBlankLine line = true) :
    outline b (line :: more) = outline true more := by
  rw [outline, if_pos h]

theorem outline_visible {line : Text} (b : Bool) (more : List Text)
    (h : isBlankLine line = false) :
    outline b (line :: more) = (b, line) :: outline false more := by
  simp [outline, h]

theorem map_snd_outline (b : Bool) (ls : List Text) :
    (outline b ls).map Prod.snd = ls.filter fun line => !isBlankLine line := by
  induction ls generalizing b with
  | nil => rfl
  | cons line ls ih =>
    cases hb : isBlankLine line with
    | true => simp [outline_blank b ls hb, hb, ih]
    | false => simp [outline_visible b ls hb, hb, ih]

/-- Squeezing drops blank lines only after another one, so each visible line keeps its flag. -/
theorem outline_squeezeBlankLines {b c : Bool} (h : b = true → c = true) (ls : List Text) :
    outline c (squeezeBlankLines b ls) = outline c ls := by
  fun_induction squeezeBlankLines b ls generalizing c with
  | case1 b => rfl
  | case2 b line => rfl
  | case3 line next more hb ih =>
    rw [outline_blank c _ hb, h rfl]
    exact ih fun _ => rfl
  | case4 b line next more hb hn ih =>
    rw [outline_blank c _ hb, outline_blank c _ isBlankLine_nil]
    exact ih fun _ => rfl
  | case5 b line next more hb ih =>
    have hv : isBlankLine line = false := Bool.eq_false_iff.mpr hb
    rw [outline_visible c _ hv, outline_visible c _ hv, ih Bool.noConfusion]

theorem outline_normalizeLines (b : Bool) (ls : List Text) :
    outline b (normalizeLines ls) = outline b ls := by
  cases ls with
  | nil => rfl
  | cons line more =>
    cases hb : isBlankLine line with
    | true =>
      rw [normalizeLines, outline_blank b _ hb, outline_blank b _ hb,
        outline_squeezeBlankLines fun _ => rfl]
    | false =>
      rw [normalizeLines, outline_visible b _ hb, outline_visible b _ hb,
        outline_squeezeBlankLines Bool.noConfusion]

/-! ### Runs of blanks -/

theorem eq_nil_of_prefix_visible {line : Text} {blanks more : List Text}
    (h : blanks <+: line :: more) (hv : isBlankLine line = false)
    (hb : ∀ line ∈ blanks, isBlankLine line = true) : blanks = [] := by
  cases blanks with
  | nil => rfl
  | cons first blanks =>
    obtain ⟨rfl, -⟩ := List.cons_prefix_cons.mp h
    have hf := hb first (List.mem_cons_self ..)
    rw [hv] at hf
    cases hf

/-- After a blank line the squeezed lines begin with a visible one. -/
theorem eq_nil_of_prefix_squeeze {ls blanks : List Text} (h : blanks <+: squeeze true ls)
    (hb : ∀ line ∈ blanks, isBlankLine line = true) : blanks = [] := by
  induction ls with
  | nil => exact List.prefix_nil.mp h
  | cons line ls ih =>
    cases hl : isBlankLine line with
    | true =>
      rw [squeeze_blank true ls hl] at h
      exact ih h
    | false =>
      rw [squeeze_visible true ls hl] at h
      exact eq_nil_of_prefix_visible h hl hb

/-- Squeezed blank lines that stand next to each other are one empty line. -/
theorem infix_squeeze {b : Bool} {ls blanks : List Text} (h : blanks <:+: squeeze b ls)
    (hb : ∀ line ∈ blanks, isBlankLine line = true) : blanks = [] ∨ blanks = [[]] := by
  induction ls generalizing b with
  | nil => exact .inl (List.infix_nil.mp h)
  | cons line ls ih =>
    cases hl : isBlankLine line with
    | true =>
      cases b with
      | true =>
        rw [squeeze_blank true ls hl] at h
        exact ih h
      | false =>
        have hs : squeeze false (line :: ls) = [] :: squeeze true ls := squeeze_blank false ls hl
        rw [hs] at h
        rcases List.infix_cons_iff.mp h with hp | hi
        · cases blanks with
          | nil => exact .inl rfl
          | cons first blanks =>
            obtain ⟨rfl, hmore⟩ := List.cons_prefix_cons.mp hp
            rw [eq_nil_of_prefix_squeeze hmore (List.forall_mem_cons.mp hb).2]
            exact .inr rfl
        · exact ih hi
    | false =>
      rw [squeeze_visible b ls hl] at h
      rcases List.infix_cons_iff.mp h with hp | hi
      · exact .inl (eq_nil_of_prefix_visible hp hl hb)
      · exact ih hi

/-- The same of the lines of a normalized text, short of the first and the last one. -/
theorem infix_normalizeLines {ls front blanks back : List Text}
    (h : normalizeLines ls = front ++ (blanks ++ back)) (hf : front ≠ []) (hm : back ≠ [])
    (hb : ∀ line ∈ blanks, isBlankLine line = true) : blanks = [] ∨ blanks = [[]] := by
  obtain ⟨first, front, rfl⟩ := List.exists_cons_of_ne_nil hf
  obtain ⟨back, last, rfl⟩ := (List.eq_nil_or_concat' back).resolve_left hm
  rcases List.eq_nil_or_concat' ls with rfl | ⟨ls, last', rfl⟩
  · cases h
  rw [normalizeLines_concat, ← List.append_assoc blanks, ← List.append_assoc] at h
  obtain ⟨hls, -⟩ := List.append_inj' h rfl
  cases ls with
  | nil => cases hls
  | cons line ls =>
    have htail : squeeze false ls = front ++ (blanks ++ back) := (List.cons.inj hls).2
    have hinfix : blanks <:+: squeeze false ls := ⟨front, back, by rw [htail, List.append_assoc]⟩
    exact infix_squeeze hinfix hb

/-- No run of blanks holds more than two line feeds, and two of them stand side by side. -/
def Tight (t : Text) : Prop :=
  ∀ run, run <:+: t → (∀ c ∈ run, isBlank c = true) →
    run.count '\n' ≤ 2 ∧ (run.count '\n' = 2 → ['\n', '\n'] <:+: run)

/-- A text with line feeds: whole lines stand between its first and its last one. -/
theorem feeds_cases (t : Text) : '\n' ∉ t ∨ ∃ first between last,
    t = first ++ '\n' :: (terminateLines between ++ last) ∧ '\n' ∉ first ∧ '\n' ∉ last ∧
      ∀ line ∈ between, '\n' ∉ line := by
  obtain ⟨first, more, ht⟩ := List.exists_cons_of_ne_nil (lines_ne_nil t)
  have hfeed : ∀ line ∈ lines t, '\n' ∉ line := fun line hl => not_mem_of_mem_lines hl
  have hjoin := ofLines_lines t
  rw [ht] at hfeed hjoin
  obtain ⟨hfirst, hmore⟩ := List.forall_mem_cons.mp hfeed
  rcases List.eq_nil_or_concat' more with rfl | ⟨between, last, rfl⟩
  · have he : first = t := hjoin
    exact .inl (he ▸ hfirst)
  · refine .inr ⟨first, between, last, ?_, hfirst, hmore last (by simp),
      fun line hl => hmore line (by simp [hl])⟩
    rw [← hjoin, ← ofLines_concat]
    exact joinWith_cons (by simp)

theorem tight_normalizeLineBreaks (t : Text) : (normalizeLineBreaks t).Tight := by
  rintro run ⟨before, after, ht⟩ hblank
  rcases feeds_cases run with hn | ⟨first, between, last, hr, hfirst, hlast, hbetween⟩
  · rw [List.count_eq_zero.mpr hn]
    exact ⟨by decide, fun h => absurd h (by decide)⟩
  -- the lines in the middle of the run are lines of the text, with others around them
  have hlines : normalizeLines (rows t) =
      lines (before ++ first) ++ (between ++ lines (last ++ after)) := by
    rw [← lines_normalizeLineBreaks, ← ht, hr, ← lines_terminateLines_append hbetween,
      ← lines_append]
    simp only [List.append_assoc, List.cons_append]
  have hb : ∀ line ∈ between, isBlankLine line = true := by
    intro line hl
    have hmem : ∀ c ∈ line, c ∈ terminateLines between := fun c hc =>
      List.mem_flatMap.mpr ⟨line, hl, List.mem_append_left _ hc⟩
    refine List.all_eq_true.mpr fun c hc => hblank c ?_
    rw [hr]
    simp [hmem c hc]
  have hcount : run.count '\n' = between.length + 1 := by
    rw [hr, List.count_append, List.count_cons_self, List.count_append,
      count_terminateLines hbetween, List.count_eq_zero.mpr hfirst, List.count_eq_zero.mpr hlast]
    omega
  rw [hcount]
  rcases infix_normalizeLines hlines (lines_ne_nil _) (lines_ne_nil _) hb with rfl | rfl
  · exact ⟨by decide, fun h => absurd h (by decide)⟩
  · refine ⟨by decide, fun _ => ⟨first, last, ?_⟩⟩
    rw [hr]
    simp [terminateLines]

/-! ### Joined texts -/

/-- The last line of the first text and the first line of the second one are one line of the joined
text, and the other lines stay. -/
theorem rows_cut {a b : Text} {front more : List Text} {last first : Text}
    (h : a.getLast? ≠ some '\r') (ha : rows a = front ++ [last]) (hb : rows b = first :: more) :
    rows (a ++ b) = front ++ (last ++ first) :: more := by
  have hfeed : ∀ line ∈ front ++ [last], '\n' ∉ line := fun line hl =>
    (unbroken_of_mem_rows (ha ▸ hl)).1
  have hfront : ∀ line ∈ front, '\n' ∉ line := fun line hl => hfeed line (by simp [hl])
  have hlast : '\n' ∉ last := hfeed last (by simp)
  have hunified : unifyBreaks a = terminateLines front ++ last := by
    rw [← ofLines_lines (unifyBreaks a), ← ofLines_concat]
    exact congrArg ofLines ha
  obtain ⟨first', more', hs, hcut⟩ := splitOn_front hlast (unifyBreaks b)
  obtain ⟨rfl, rfl⟩ := List.cons.inj (hb.symm.trans hs)
  rw [rows, unifyBreaks_append (.inl h), hunified, List.append_assoc,
    lines_terminateLines_append hfront, lines, hcut]

/-- Lines that are squeezed already are squeezed the same with further lines after them. -/
theorem normalizeLines_front (front : List Text) {more : List Text} (h : more ≠ []) :
    normalizeLines (normalizeFront front ++ more) = normalizeLines (front ++ more) := by
  obtain ⟨init, last, rfl⟩ := (List.eq_nil_or_concat' more).resolve_left h
  rw [← List.append_assoc, ← List.append_assoc, normalizeLines_concat, normalizeLines_concat]
  by_cases hf : front = []
  · rw [hf]
    rfl
  · rw [normalizeFront_congr (normalizeFront_idem front) (normalizeFront_ne_nil hf)]

/-- And with further lines in front of them. -/
theorem normalizeLines_back (front : List Text) (line : Text) (more : List Text) :
    normalizeLines (front ++ line :: squeezeBlankLines false more) =
      normalizeLines (front ++ line :: more) := by
  rcases List.eq_nil_or_concat' more with rfl | ⟨init, last, rfl⟩
  · rfl
  have hs : squeezeBlankLines false (init ++ [last]) = squeeze false init ++ [last] :=
    squeezeBlankLines_append false init (List.cons_ne_nil last [])
  have hne : front ++ [line] ≠ [] := by simp
  have hinit : normalizeFront (front ++ [line] ++ squeeze false init) =
      normalizeFront (front ++ [line] ++ init) := by
    rw [normalizeFront_append hne, normalizeFront_append hne,
      squeeze_eq_of_false (squeeze_idem false init)]
  calc normalizeLines (front ++ line :: squeezeBlankLines false (init ++ [last]))
      = normalizeLines (front ++ [line] ++ squeeze false init ++ [last]) := by simp [hs]
    _ = normalizeLines (front ++ [line] ++ init ++ [last]) := by
        rw [normalizeLines_concat, normalizeLines_concat, hinit]
    _ = normalizeLines (front ++ line :: (init ++ [last])) := by simp

section

variable {a : Text} (h : a.getLast? ≠ some '\r') (b : Text)
include h

theorem normalizeLineBreaks_append_left :
    normalizeLineBreaks (normalizeLineBreaks a ++ b) = normalizeLineBreaks (a ++ b) := by
  obtain ⟨front, last, ha⟩ := (List.eq_nil_or_concat' (rows a)).resolve_left (rows_ne_nil a)
  obtain ⟨first, more, hb⟩ := List.exists_cons_of_ne_nil (rows_ne_nil b)
  have hr := not_mem_normalizeLineBreaks a
  have hlast : (normalizeLineBreaks a).getLast? ≠ some '\r' := fun hl =>
    hr (List.mem_of_getLast? hl)
  have hn : rows (normalizeLineBreaks a) = normalizeFront front ++ [last] := by
    rw [rows_of_not_mem hr, lines_normalizeLineBreaks, ha, normalizeLines_concat]
  exact congrArg ofLines <|
    calc normalizeLines (rows (normalizeLineBreaks a ++ b))
        = normalizeLines (normalizeFront front ++ (last ++ first) :: more) := by
          rw [rows_cut hlast hn hb]
      _ = normalizeLines (front ++ (last ++ first) :: more) :=
          normalizeLines_front front (List.cons_ne_nil _ _)
      _ = normalizeLines (rows (a ++ b)) := by rw [rows_cut h ha hb]

theorem normalizeLineBreaks_append_right :
    normalizeLineBreaks (a ++ normalizeLineBreaks b) = normalizeLineBreaks (a ++ b) := by
  obtain ⟨front, last, ha⟩ := (List.eq_nil_or_concat' (rows a)).resolve_left (rows_ne_nil a)
  obtain ⟨first, more, hb⟩ := List.exists_cons_of_ne_nil (rows_ne_nil b)
  have hn : rows (normalizeLineBreaks b) = first :: squeezeBlankLines false more := by
    rw [rows_of_not_mem (not_mem_normalizeLineBreaks b), lines_normalizeLineBreaks, hb]
    rfl
  exact congrArg ofLines <|
    calc normalizeLines (rows (a ++ normalizeLineBreaks b))
        = normalizeLines (front ++ (last ++ first) :: squeezeBlankLines false more) := by
          rw [rows_cut h ha hn]
      _ = normalizeLines (front ++ (last ++ first) :: more) := normalizeLines_back front _ more
      _ = normalizeLines (rows (a ++ b)) := by rw [rows_cut h ha hb]

end

/-! ### The normal form -/

/-- The normal form of a text: what is written differently of it are the breaks and the blank
lines. -/
structure NormalOf (t normal : Text) : Prop where
  fixed : normalizeLineBreaks normal = normal
  unreturned : '\r' ∉ normal
  tight : normal.Tight
  visible : (lines normal).filter (fun line => !isBlankLine line) =
    (rows t).filter fun line => !isBlankLine line
  /-- Two visible lines have a blank line between them if they had one in the text. -/
  separated : outline false (lines normal) = outline false (rows t)

theorem normalOf_normalizeLineBreaks (t : Text) : NormalOf t (normalizeLineBreaks t) := by
  have hs : outline false (lines (normalizeLineBreaks t)) = outline false (rows t) := by
    rw [lines_normalizeLineBreaks, outline_normalizeLines]
  exact {
    fixed := normalizeLineBreaks_idem t
    unreturned := not_mem_normalizeLineBreaks t
    tight := tight_normalizeLineBreaks t
    visible := by rw [← map_snd_outline false, ← map_snd_outline false, hs]
    separated := hs }

/-- Normalizing gives a normal form of every text, and it may come before joining. -/
theorem normalizeLineBreaks_canonical :
    (∀ t, NormalOf t (normalizeLineBreaks t)) ∧
      ∀ a b : Text, a.getLast? ≠ some '\r' →
        normalizeLineBreaks (normalizeLineBreaks a ++ b) = normalizeLineBreaks (a ++ b) ∧
          normalizeLineBreaks (a ++ normalizeLineBreaks b) = normalizeLineBreaks (a ++ b) :=
  ⟨normalOf_normalizeLineBreaks, fun _ b h =>
    ⟨normalizeLineBreaks_append_left h b, normalizeLineBreaks_append_right h b⟩⟩

/-- A run of blank lines that the cut divides, with a no-break space in it. -/
theorem normalizeLineBreaks_divided :
    normalizeLineBreaks
        (normalizeLineBreaks "x \r\n \n".toList ++ "\r\n\u00a0\n\n y\r".toList) =
      "x \n\n y\n".toList ∧
    normalizeLineBreaks
        ("x \r\n \n".toList ++ normalizeLineBreaks "\r\n\u00a0\n\n y\r".toList) =
      "x \n\n y\n".toList := by
  have hjoined : normalizeLineBreaks ("x \r\n \n".toList ++ "\r\n\u00a0\n\n y\r".toList) =
      "x \n\n y\n".toList := by decide
  obtain ⟨hleft, hright⟩ :=
    normalizeLineBreaks_canonical.2 "x \r\n \n".toList "\r\n\u00a0\n\n y\r".toList (by decide)
  exact ⟨hleft.trans hjoined, hright.trans hjoined⟩

end MarkdownDirectives.Text
