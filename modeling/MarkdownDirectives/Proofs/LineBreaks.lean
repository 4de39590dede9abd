import MarkdownDirectives.Text.LineBreaks

/-!
# Normalized lines

Cutting a text into lines and joining lines undo each other, and unifying line breaks works on two
parts of a text separately unless the cut divides a `CRLF`. Squeezing acts on the lines in front of
the last one from left to right and remembers only whether the line before was blank, so it works
on two lists of lines separately once that flag is handed over.
-/

namespace MarkdownDirectives.Text

/-! ### Cutting and joining -/

section

variable {separator : Char}

theorem splitOn_append (a b : Text) :
    splitOn separator (a ++ separator :: b) = splitOn separator a ++ splitOn separator b := by
  induction a with
  | nil => simp [splitOn]
  | cons c a ih =>
    simp only [List.cons_append, splitOn, ih]
    split
    · rfl
    · cases h : splitOn separator a with
      | nil => exact absurd h (splitOn_ne_nil separator a)
      | cons piece more => rfl

theorem splitOn_of_not_mem {t : Text} (h : separator ∉ t) : splitOn separator t = [t] := by
  induction t with
  | nil => rfl
  | cons c t ih =>
    simp only [List.mem_cons, not_or] at h
    simp only [splitOn, ih h.2, Ne.symm h.1, ite_false]

theorem not_mem_of_mem_splitOn {t piece : Text} (h : piece ∈ splitOn separator t) :
    separator ∉ piece := by
  induction t generalizing piece with
  | nil =>
    simp only [splitOn, List.mem_singleton] at h
    simp [h]
  | cons c t ih =>
    simp only [splitOn] at h
    split at h
    · rcases List.mem_cons.mp h with rfl | h
      · exact List.not_mem_nil
      · exact ih h
    · next hc =>
      cases hs : splitOn separator t with
      | nil => exact absurd hs (splitOn_ne_nil separator t)
      | cons first more =>
        rw [hs] at h ih
        rcases List.mem_cons.mp h with rfl | h
        · have hf := ih (List.mem_cons_self ..)
          simp [hf, Ne.symm hc]
        · exact ih (List.mem_cons_of_mem _ h)

theorem mem_of_mem_splitOn {t piece : Text} {c : Char} (h : piece ∈ splitOn separator t)
    (hc : c ∈ piece) : c ∈ t := by
  induction t generalizing piece with
  | nil =>
    simp only [splitOn, List.mem_singleton] at h
    simp [h] at hc
  | cons d t ih =>
    simp only [splitOn] at h
    split at h
    · rcases List.mem_cons.mp h with rfl | h
      · exact absurd hc List.not_mem_nil
      · exact List.mem_cons_of_mem _ (ih h hc)
    · cases hs : splitOn separator t with
      | nil => exact absurd hs (splitOn_ne_nil separator t)
      | cons first more =>
        rw [hs] at h ih
        rcases List.mem_cons.mp h with rfl | h
        · rcases List.mem_cons.mp hc with rfl | hc
          · exact List.mem_cons_self ..
          · exact List.mem_cons_of_mem _ (ih (List.mem_cons_self ..) hc)
        · exact List.mem_cons_of_mem _ (ih (List.mem_cons_of_mem _ h) hc)

/-- Without a separator the text in front belongs to the first piece. -/
theorem splitOn_front {a : Text} (h : separator ∉ a) (t : Text) :
    ∃ first more, splitOn separator t = first :: more ∧
      splitOn separator (a ++ t) = (a ++ first) :: more := by
  induction a with
  | nil =>
    obtain ⟨first, more, hs⟩ := List.exists_cons_of_ne_nil (splitOn_ne_nil separator t)
    exact ⟨first, more, hs, hs⟩
  | cons c a ih =>
    simp only [List.mem_cons, not_or] at h
    obtain ⟨first, more, hs, ha⟩ := ih h.2
    refine ⟨first, more, hs, ?_⟩
    simp only [List.cons_append, splitOn, ha, Ne.symm h.1, ite_false]

theorem joinWith_cons {piece : Text} {more : List Text} (h : more ≠ []) :
    joinWith separator (piece :: more) = piece ++ separator :: joinWith separator more := by
  cases more with
  | nil => exact absurd rfl h
  | cons next more => rfl

theorem joinWith_append {first more : List Text} (hf : first ≠ []) (hm : more ≠ []) :
    joinWith separator (first ++ more) =
      joinWith separator first ++ separator :: joinWith separator more := by
  induction first with
  | nil => exact absurd rfl hf
  | cons piece first ih =>
    cases first with
    | nil => exact joinWith_cons hm
    | cons next first =>
      have hne : next :: first ++ more ≠ [] := List.cons_ne_nil _ _
      have hne' : next :: first ≠ [] := List.cons_ne_nil _ _
      rw [List.cons_append, joinWith_cons hne, ih hne', joinWith_cons hne']
      simp only [List.append_assoc, List.cons_append]

theorem joinWith_concat (pieces : List Text) (last : Text) :
    joinWith separator (pieces ++ [last]) = pieces.flatMap (· ++ [separator]) ++ last := by
  induction pieces with
  | nil => rfl
  | cons piece pieces ih =>
    rw [List.cons_append, joinWith_cons (by simp), ih]
    simp

theorem mem_of_mem_joinWith {pieces : List Text} {c : Char} (h : c ∈ joinWith separator pieces) :
    c = separator ∨ ∃ piece ∈ pieces, c ∈ piece := by
  induction pieces with
  | nil => exact absurd h List.not_mem_nil
  | cons piece more ih =>
    cases more with
    | nil => exact .inr ⟨piece, List.mem_cons_self .., h⟩
    | cons next more =>
      rw [joinWith_cons (List.cons_ne_nil _ _), List.mem_append, List.mem_cons] at h
      rcases h with h | h | h
      · exact .inr ⟨piece, List.mem_cons_self .., h⟩
      · exact .inl h
      · obtain hs | ⟨part, hp, hc⟩ := ih h
        · exact .inl hs
        · exact .inr ⟨part, List.mem_cons_of_mem _ hp, hc⟩

/-- The pieces of joined texts are the pieces of each text in turn. -/
theorem splitOn_joinWith {pieces : List Text} (h : pieces ≠ []) :
    splitOn separator (joinWith separator pieces) = pieces.flatMap (splitOn separator) := by
  induction pieces with
  | nil => exact absurd rfl h
  | cons piece more ih =>
    cases more with
    | nil => simp [joinWith]
    | cons next more =>
      rw [joinWith_cons (by simp), splitOn_append, ih (by simp)]
      rfl

theorem splitOn_joinWith_of_not_mem {pieces : List Text} (hne : pieces ≠ [])
    (h : ∀ piece ∈ pieces, separator ∉ piece) :
    splitOn separator (joinWith separator pieces) = pieces := by
  rw [splitOn_joinWith hne]
  clear hne
  induction pieces with
  | nil => rfl
  | cons piece pieces ih =>
    rw [List.flatMap_cons, splitOn_of_not_mem (h piece (List.mem_cons_self ..)),
      ih fun other ho => h other (List.mem_cons_of_mem _ ho)]
    rfl

end

/-! ### Lines -/

theorem lines_ne_nil (t : Text) : lines t ≠ [] := splitOn_ne_nil '\n' t

theorem lines_append (a b : Text) : lines (a ++ '\n' :: b) = lines a ++ lines b :=
  splitOn_append a b

theorem lines_of_not_mem {t : Text} (h : '\n' ∉ t) : lines t = [t] := splitOn_of_not_mem h

theorem not_mem_of_mem_lines {t line : Text} (h : line ∈ lines t) : '\n' ∉ line :=
  not_mem_of_mem_splitOn h

theorem ofLines_append {first more : List Text} (hf : first ≠ []) (hm : more ≠ []) :
    ofLines (first ++ more) = ofLines first ++ '\n' :: ofLines more :=
  joinWith_append hf hm

/-- Lines that are joined first are joined the same. -/
theorem ofLines_ofLines_cons {first : List Text} (h : first ≠ []) (more : List Text) :
    ofLines (ofLines first :: more) = ofLines (first ++ more) := by
  cases more with
  | nil =>
    rw [List.append_nil]
    rfl
  | cons line more =>
    rw [ofLines_append h (List.cons_ne_nil _ _)]
    rfl

theorem lines_ofLines {ls : List Text} (hne : ls ≠ []) (h : ∀ line ∈ ls, '\n' ∉ line) :
    lines (ofLines ls) = ls :=
  splitOn_joinWith_of_not_mem hne h

/-! ### Unified breaks -/

theorem unifyBreaks_cons {c : Char} (t : Text) (h : c ≠ '\r') :
    unifyBreaks (c :: t) = c :: unifyBreaks t := by
  rw [unifyBreaks]
  · simp [h]
  · intro rest hr
    exact absurd hr h

theorem unifyBreaks_return {t : Text} (h : t.head? ≠ some '\n') :
    unifyBreaks ('\r' :: t) = '\n' :: unifyBreaks t := by
  rw [unifyBreaks]
  · rfl
  · intro rest _ ht
    simp [ht] at h

theorem unifyBreaks_of_not_mem {t : Text} (h : '\r' ∉ t) : unifyBreaks t = t := by
  induction t with
  | nil => rfl
  | cons c t ih =>
    simp only [List.mem_cons, not_or] at h
    rw [unifyBreaks_cons t (Ne.symm h.1), ih h.2]

theorem not_mem_unifyBreaks (t : Text) : '\r' ∉ unifyBreaks t := by
  fun_induction unifyBreaks t with
  | case1 => exact List.not_mem_nil
  | case2 rest ih => simpa using ih
  | case3 c rest _ ih =>
    simp only [List.mem_cons, not_or]
    refine ⟨?_, ih⟩
    split
    · decide
    · next hc => exact Ne.symm hc

/-- Breaks are unified in two parts separately unless the cut divides a `CRLF`. -/
theorem unifyBreaks_append {a b : Text} (h : a.getLast? ≠ some '\r' ∨ b.head? ≠ some '\n') :
    unifyBreaks (a ++ b) = unifyBreaks a ++ unifyBreaks b := by
  induction a with
  | nil => rfl
  | cons c a ih =>
    have ha : a.getLast? ≠ some '\r' ∨ b.head? ≠ some '\n' := by
      cases a with
      | nil => exact .inl (by simp)
      | cons d a => simpa using h
    have ih := ih ha
    by_cases hc : c = '\r'
    · subst hc
      by_cases hd : a.head? = some '\n'
      · -- a `CRLF` within the first part
        obtain ⟨a, rfl⟩ := List.head?_eq_some_iff.mp hd
        rw [List.cons_append, unifyBreaks_cons _ (by decide), unifyBreaks_cons _ (by decide)] at ih
        simp only [List.cons_append, unifyBreaks]
        exact ih
      · have hd' : (a ++ b).head? ≠ some '\n' := by
          cases a with
          | nil => simpa using h
          | cons d a => simpa using hd
        rw [List.cons_append, unifyBreaks_return hd', unifyBreaks_return hd, ih]
        rfl
    · rw [List.cons_append, unifyBreaks_cons _ hc, unifyBreaks_cons _ hc, ih]
      rfl

/-- The text in front of a line feed, with breaks unified; a `CR` at its end goes with the feed. -/
theorem unifyBreaks_line (a : Text) :
    ∃ w, (∀ b, unifyBreaks (a ++ '\n' :: b) = w ++ '\n' :: unifyBreaks b) ∧
      (unifyBreaks a = w ∨ unifyBreaks a = w ++ ['\n']) := by
  by_cases ha : a.getLast? = some '\r'
  · obtain ⟨a, rfl⟩ := List.getLast?_eq_some_iff.mp ha
    refine ⟨unifyBreaks a, fun b => ?_, .inr ?_⟩
    · rw [List.append_assoc, unifyBreaks_append (.inr (by simp))]
      rfl
    · rw [unifyBreaks_append (.inr (by simp))]
      rfl
  · refine ⟨unifyBreaks a, fun b => ?_, .inl rfl⟩
    rw [unifyBreaks_append (.inl ha), unifyBreaks_cons b (by decide)]

/-! ### Rows -/

/-- The lines of a text, whichever breaks end them. -/
def rows (t : Text) : List Text := lines (unifyBreaks t)

theorem rows_ne_nil (t : Text) : rows t ≠ [] := lines_ne_nil _

theorem rows_of_not_mem {t : Text} (h : '\r' ∉ t) : rows t = lines t := by
  rw [rows, unifyBreaks_of_not_mem h]

theorem rows_append {a b : Text} (h : a.getLast? ≠ some '\r') :
    rows (a ++ '\n' :: b) = rows a ++ rows b := by
  rw [rows, unifyBreaks_append (.inl h), unifyBreaks_cons b (by decide), lines_append]
  rfl

/-- A text without line breaks. -/
def Unbroken (t : Text) : Prop := '\n' ∉ t ∧ '\r' ∉ t

instance (t : Text) : Decidable t.Unbroken := inferInstanceAs (Decidable ('\n' ∉ t ∧ '\r' ∉ t))

theorem Unbroken.nil : Unbroken [] := ⟨List.not_mem_nil, List.not_mem_nil⟩

theorem unbroken_of_mem_rows {t row : Text} (h : row ∈ rows t) : row.Unbroken :=
  ⟨not_mem_of_mem_lines h, fun hr => not_mem_unifyBreaks t (mem_of_mem_splitOn h hr)⟩

theorem Unbroken.rows {t : Text} (h : t.Unbroken) : rows t = [t] := by
  rw [rows_of_not_mem h.2, lines_of_not_mem h.1]

/-- No text that ends in a `CR`, which a line feed after it would join. -/
def Sealed (ts : List Text) : Prop := ∀ t ∈ ts, t.getLast? ≠ some '\r'

theorem Sealed.nil : Sealed [] := fun _ ht => absurd ht List.not_mem_nil

theorem Sealed.cons {t : Text} {ts : List Text} (h : t.getLast? ≠ some '\r') (hs : Sealed ts) :
    Sealed (t :: ts) :=
  List.forall_mem_cons.mpr ⟨h, hs⟩

theorem Sealed.append {ts ts' : List Text} (h : Sealed ts) (h' : Sealed ts') :
    Sealed (ts ++ ts') := by
  intro t ht
  rcases List.mem_append.mp ht with ht | ht
  · exact h t ht
  · exact h' t ht

theorem Unbroken.getLast? {t : Text} (h : t.Unbroken) : t.getLast? ≠ some '\r' :=
  fun hl => h.2 (List.mem_of_getLast? hl)

theorem rows_ofLines {ts : List Text} (hne : ts ≠ []) (h : Sealed ts) :
    rows (ofLines ts) = ts.flatMap rows := by
  induction ts with
  | nil => exact absurd rfl hne
  | cons t ts ih =>
    cases ts with
    | nil => simp [ofLines, joinWith]
    | cons next ts =>
      have ht : ofLines (t :: next :: ts) = t ++ '\n' :: ofLines (next :: ts) := rfl
      rw [ht, rows_append (h t (List.mem_cons_self ..)),
        ih (List.cons_ne_nil _ _) fun u hu => h u (List.mem_cons_of_mem _ hu)]
      rfl

theorem flatMap_rows_ne_nil {ts : List Text} (h : ts ≠ []) : ts.flatMap rows ≠ [] := by
  cases ts with
  | nil => exact absurd rfl h
  | cons t ts => exact List.append_ne_nil_of_left_ne_nil (rows_ne_nil t) _

theorem flatMap_rows {ls : List Text} (h : ∀ line ∈ ls, line.Unbroken) : ls.flatMap rows = ls := by
  induction ls with
  | nil => rfl
  | cons line ls ih =>
    rw [List.flatMap_cons, (h line (List.mem_cons_self ..)).rows,
      ih fun l hl => h l (List.mem_cons_of_mem _ hl)]
    rfl

theorem rows_ofLines_append {first second : List Text} (hf : Sealed first) (hs : Sealed second)
    (hne : first ++ second ≠ []) :
    rows (ofLines (first ++ second)) = first.flatMap rows ++ second.flatMap rows := by
  rw [rows_ofLines hne (hf.append hs), List.flatMap_append]

theorem rows_ofLines_unbroken {ls : List Text} (hne : ls ≠ [])
    (h : ∀ line ∈ ls, line.Unbroken) : rows (ofLines ls) = ls := by
  rw [rows_ofLines hne fun line hl => (h line hl).getLast?, flatMap_rows h]

/-- The rows in front of a line feed do not depend on what comes after it. -/
theorem rows_line (a : Text) :
    ∃ front, front ≠ [] ∧ (∀ b, rows (a ++ '\n' :: b) = front ++ rows b) ∧
      ∀ row ∈ front, row ∈ rows a := by
  obtain ⟨w, hw, ha⟩ := unifyBreaks_line a
  refine ⟨lines w, lines_ne_nil w, fun b => ?_, fun row hr => ?_⟩
  · rw [rows, hw, lines_append]
    rfl
  · rcases ha with ha | ha
    · rw [rows, ha]
      exact hr
    · rw [rows, ha, lines_append]
      exact List.mem_append_left _ hr

/-- A text without breaks put in front of a text belongs to the first row. -/
theorem mem_rows_append {a b row : Text} (ha : a.Unbroken) (h : row ∈ rows (a ++ b)) :
    a <+: row ∨ row ∈ rows b := by
  rw [rows, unifyBreaks_append (.inl ha.getLast?), unifyBreaks_of_not_mem ha.2, lines] at h
  obtain ⟨first, more, hb, hab⟩ := splitOn_front ha.1 (unifyBreaks b)
  rw [hab] at h
  rcases List.mem_cons.mp h with rfl | h
  · exact .inl (List.prefix_append a first)
  · refine .inr ?_
    rw [rows, lines, hb]
    exact List.mem_cons_of_mem _ h

/-! ### Squeezing -/

/-- The lines in front of the last one, with each run of blank lines squeezed. -/
def squeeze : Bool → List Text → List Text
  | _, [] => []
  | afterBlank, line :: more =>
    if isBlankLine line then
      if afterBlank then squeeze true more else [] :: squeeze true more
    else line :: squeeze false more

/-- Whether the line before the next one is blank. -/
def endsBlank : Bool → List Text → Bool
  | afterBlank, [] => afterBlank
  | _, line :: more => endsBlank (isBlankLine line) more

theorem endsBlank_append (b : Bool) (first more : List Text) :
    endsBlank b (first ++ more) = endsBlank (endsBlank b first) more := by
  induction first generalizing b with
  | nil => rfl
  | cons line first ih => exact ih (isBlankLine line)

theorem isBlankLine_nil : isBlankLine [] = true := rfl

theorem squeeze_blank {line : Text} (b : Bool) (more : List Text) (h : isBlankLine line = true) :
    squeeze b (line :: more) = (if b then [] else [[]]) ++ squeeze true more := by
  cases b <;> simp [squeeze, h]

theorem squeeze_visible {line : Text} (b : Bool) (more : List Text)
    (h : isBlankLine line = false) : squeeze b (line :: more) = line :: squeeze false more := by
  simp [squeeze, h]

theorem squeezeBlankLines_append (b : Bool) (first : List Text) {more : List Text}
    (h : more ≠ []) :
    squeezeBlankLines b (first ++ more) =
      squeeze b first ++ squeezeBlankLines (endsBlank b first) more := by
  induction first generalizing b with
  | nil => rfl
  | cons line first ih =>
    have hne : first ++ more ≠ [] := by simp [h]
    obtain ⟨next, rest, hr⟩ := List.exists_cons_of_ne_nil hne
    have hs : squeezeBlankLines b (line :: (first ++ more)) =
        if isBlankLine line then
          (if b then [] else [[]]) ++ squeezeBlankLines true (first ++ more)
        else line :: squeezeBlankLines false (first ++ more) := by
      rw [hr]
      cases b <;> simp [squeezeBlankLines]
    rw [List.cons_append, hs]
    cases hb : isBlankLine line with
    | true => simp [squeeze_blank, endsBlank, hb, ih]
    | false => simp [squeeze_visible, endsBlank, hb, ih]

theorem squeezeBlankLines_visible {line : Text} (b : Bool) (more : List Text)
    (h : isBlankLine line = false) :
    squeezeBlankLines b (line :: more) = line :: squeezeBlankLines false more := by
  cases more with
  | nil => simp [squeezeBlankLines]
  | cons next more => simp [squeezeBlankLines, h]

theorem squeeze_append (b : Bool) (first more : List Text) :
    squeeze b (first ++ more) = squeeze b first ++ squeeze (endsBlank b first) more := by
  induction first generalizing b with
  | nil => rfl
  | cons line first ih =>
    cases hb : isBlankLine line with
    | true => simp [squeeze_blank, endsBlank, hb, ih]
    | false => simp [squeeze_visible, endsBlank, hb, ih]

theorem squeeze_idem (b : Bool) (ls : List Text) : squeeze b (squeeze b ls) = squeeze b ls := by
  induction ls generalizing b with
  | nil => rfl
  | cons line ls ih =>
    cases hb : isBlankLine line with
    | true =>
      rw [squeeze_blank b ls hb]
      cases b with
      | true => exact ih true
      | false => exact (squeeze_blank false _ isBlankLine_nil).trans (congrArg ([] :: ·) (ih true))
    | false => rw [squeeze_visible b ls hb, squeeze_visible b _ hb, ih]

theorem endsBlank_squeeze (b : Bool) (ls : List Text) :
    endsBlank b (squeeze b ls) = endsBlank b ls := by
  induction ls generalizing b with
  | nil => rfl
  | cons line ls ih =>
    cases hb : isBlankLine line with
    | true =>
      rw [squeeze_blank b ls hb]
      cases b with
      | true => simpa [endsBlank, hb] using ih true
      | false => simpa [endsBlank, hb, isBlankLine_nil] using ih true
    | false => simp [squeeze_visible b ls hb, endsBlank, hb, ih]

/-- Lines that squeeze to the same lines do so with anything after them. -/
theorem squeeze_congr {b : Bool} {first first' : List Text} (h : squeeze b first = squeeze b first')
    (more : List Text) : squeeze b (first ++ more) = squeeze b (first' ++ more) := by
  have hf : endsBlank b first = endsBlank b first' := by
    rw [← endsBlank_squeeze, h, endsBlank_squeeze]
  rw [squeeze_append, squeeze_append, h, hf]

theorem squeeze_true_squeeze (b : Bool) (ls : List Text) :
    squeeze true (squeeze b ls) = squeeze true ls := by
  cases b with
  | true => exact squeeze_idem true ls
  | false =>
    cases ls with
    | nil => rfl
    | cons line ls =>
      cases hb : isBlankLine line with
      | true =>
        rw [squeeze_blank false ls hb, squeeze_blank true ls hb]
        exact (squeeze_blank true _ isBlankLine_nil).trans (squeeze_idem true ls)
      | false =>
        rw [squeeze_visible false ls hb, squeeze_visible true ls hb,
          squeeze_visible true _ hb, squeeze_idem]

/-- Lines that squeeze to the same lines after a visible line do so after any line. -/
theorem squeeze_eq_of_false {ls ls' : List Text} (h : squeeze false ls = squeeze false ls')
    (b : Bool) : squeeze b ls = squeeze b ls' := by
  cases b with
  | false => exact h
  | true => rw [← squeeze_true_squeeze false, h, squeeze_true_squeeze]

theorem squeeze_blanks (b : Bool) (n : Nat) (ls : List Text) :
    squeeze b (List.replicate n [] ++ [] :: ls) = squeeze b ([] :: ls) := by
  induction n generalizing b with
  | zero => rfl
  | succ n ih =>
    rw [List.replicate_succ, List.cons_append, squeeze_blank b _ isBlankLine_nil, ih,
      squeeze_blank b _ isBlankLine_nil, squeeze_blank true _ isBlankLine_nil]
    rfl

theorem mem_of_mem_squeeze {b : Bool} {ls : List Text} {line : Text} (h : line ∈ squeeze b ls) :
    line = [] ∨ line ∈ ls := by
  induction ls generalizing b with
  | nil => exact .inr h
  | cons first ls ih =>
    cases hb : isBlankLine first with
    | true =>
      rw [squeeze_blank b ls hb, List.mem_append] at h
      rcases h with h | h
      · cases b <;> simp at h
        exact .inl h
      · exact (ih h).imp_right (List.mem_cons_of_mem _)
    | false =>
      rw [squeeze_visible b ls hb] at h
      rcases List.mem_cons.mp h with rfl | h
      · exact .inr (List.mem_cons_self ..)
      · exact (ih h).imp_right (List.mem_cons_of_mem _)

theorem mem_squeeze {b : Bool} {ls : List Text} {line : Text} (h : line ∈ ls)
    (hv : isBlankLine line = false) : line ∈ squeeze b ls := by
  induction ls generalizing b with
  | nil => exact h
  | cons first ls ih =>
    rcases List.mem_cons.mp h with rfl | h
    · rw [squeeze_visible b ls hv]
      exact List.mem_cons_self ..
    · cases hb : isBlankLine first with
      | true =>
        rw [squeeze_blank b ls hb]
        exact List.mem_append_right _ (ih h)
      | false =>
        rw [squeeze_visible b ls hb]
        exact List.mem_cons_of_mem _ (ih h)

/-! ### Normalized texts -/

/-- The lines in front of the last one, the first one as it is and the others squeezed. -/
def normalizeFront : List Text → List Text
  | [] => []
  | line :: more => line :: squeeze false more

theorem normalizeLines_concat (ls : List Text) (last : Text) :
    normalizeLines (ls ++ [last]) = normalizeFront ls ++ [last] := by
  cases ls with
  | nil => rfl
  | cons line ls =>
    simp only [List.cons_append, normalizeLines, normalizeFront]
    rw [squeezeBlankLines_append false ls (List.cons_ne_nil _ _)]
    rfl

/-- Past a visible line the lines are squeezed in the same way, whatever stands in front of it. -/
theorem normalizeLines_visible {line : Text} (front more : List Text)
    (h : isBlankLine line = false) :
    normalizeLines (front ++ line :: more) =
      normalizeFront front ++ line :: squeezeBlankLines false more := by
  cases front with
  | nil => rfl
  | cons first front =>
    have hs := squeezeBlankLines_append false front (List.cons_ne_nil line more)
    rw [squeezeBlankLines_visible _ more h] at hs
    exact congrArg (first :: ·) hs

theorem normalizeFront_append {first : List Text} (h : first ≠ []) (more : List Text) :
    normalizeFront (first ++ more) =
      normalizeFront first ++ squeeze (endsBlank false first.tail) more := by
  cases first with
  | nil => exact absurd rfl h
  | cons line first => simp [normalizeFront, squeeze_append]

theorem normalizeFront_congr {first first' : List Text}
    (h : normalizeFront first = normalizeFront first') (hne : first ≠ []) (more : List Text) :
    normalizeFront (first ++ more) = normalizeFront (first' ++ more) := by
  cases first with
  | nil => exact absurd rfl hne
  | cons line first =>
    cases first' with
    | nil => simp [normalizeFront] at h
    | cons line' first' =>
      simp only [normalizeFront, List.cons.injEq] at h
      simp only [List.cons_append, normalizeFront, h.1, squeeze_congr h.2]

theorem normalizeFront_idem (ls : List Text) :
    normalizeFront (normalizeFront ls) = normalizeFront ls := by
  cases ls with
  | nil => rfl
  | cons line ls => simp only [normalizeFront, squeeze_idem]

theorem normalizeFront_ne_nil {ls : List Text} (h : ls ≠ []) : normalizeFront ls ≠ [] := by
  cases ls with
  | nil => exact absurd rfl h
  | cons line ls => exact List.cons_ne_nil _ _

theorem squeeze_normalizeFront (b : Bool) (ls : List Text) :
    squeeze b (normalizeFront ls) = squeeze b ls := by
  cases ls with
  | nil => rfl
  | cons line ls =>
    cases hb : isBlankLine line with
    | true =>
      rw [normalizeFront, squeeze_blank b _ hb, squeeze_blank b _ hb, squeeze_true_squeeze]
    | false =>
      rw [normalizeFront, squeeze_visible b _ hb, squeeze_visible b _ hb, squeeze_idem]

theorem endsBlank_normalizeFront (ls : List Text) :
    endsBlank false (normalizeFront ls).tail = endsBlank false ls.tail := by
  cases ls with
  | nil => rfl
  | cons line ls => exact endsBlank_squeeze false ls

/-- In front of an empty line more empty lines do not show. -/
theorem normalizeFront_blanks {first : List Text} (h : first ≠ []) (n : Nat) (more : List Text) :
    normalizeFront (first ++ List.replicate n [] ++ [] :: more) =
      normalizeFront (first ++ [] :: more) := by
  rw [List.append_assoc, normalizeFront_append h, normalizeFront_append h, squeeze_blanks]

/-- A last line after a visible one is as it would be in front of further lines. -/
theorem normalizeLines_concat_nil {front : List Text} {line : Text}
    (h : isBlankLine line = false) :
    normalizeLines (front ++ [line, []]) = normalizeFront (front ++ [line, []]) := by
  have ha : front ++ [line, []] = (front ++ [line]) ++ [[]] := by simp
  have he : endsBlank false (front ++ [line]).tail = false := by
    cases front with
    | nil => rfl
    | cons first front =>
      rw [List.cons_append, List.tail_cons, endsBlank_append]
      exact h
  have hne : front ++ [line] ≠ [] := by simp
  rw [ha, normalizeLines_concat, normalizeFront_append hne, he]
  rfl

theorem normalizeLines_idem (ls : List Text) :
    normalizeLines (normalizeLines ls) = normalizeLines ls := by
  rcases List.eq_nil_or_concat ls with rfl | ⟨ls, last, rfl⟩
  · rfl
  · rw [List.concat_eq_append, normalizeLines_concat, normalizeLines_concat, normalizeFront_idem]

theorem mem_of_mem_normalizeFront {ls : List Text} {line : Text} (h : line ∈ normalizeFront ls) :
    line = [] ∨ line ∈ ls := by
  cases ls with
  | nil => exact .inr h
  | cons first ls =>
    rcases List.mem_cons.mp h with rfl | h
    · exact .inr (List.mem_cons_self ..)
    · exact (mem_of_mem_squeeze h).imp_right (List.mem_cons_of_mem _)

theorem unbroken_normalizeFront {t : Text} {front more : List Text} (h : t.rows = front ++ more) :
    ∀ line ∈ normalizeFront front, line.Unbroken := by
  intro line hl
  rcases mem_of_mem_normalizeFront hl with rfl | hl
  · exact .nil
  · have hm : line ∈ t.rows := by
      rw [h]
      exact List.mem_append_left _ hl
    exact unbroken_of_mem_rows hm

theorem mem_normalizeFront {ls : List Text} {line : Text} (h : line ∈ ls)
    (hv : isBlankLine line = false) : line ∈ normalizeFront ls := by
  cases ls with
  | nil => exact h
  | cons first ls =>
    rcases List.mem_cons.mp h with rfl | h
    · exact List.mem_cons_self ..
    · exact List.mem_cons_of_mem _ (mem_squeeze h hv)

theorem mem_of_mem_normalizeLines {ls : List Text} {line : Text} (h : line ∈ normalizeLines ls) :
    line = [] ∨ line ∈ ls := by
  rcases List.eq_nil_or_concat ls with rfl | ⟨ls, last, rfl⟩
  · exact .inr h
  · rw [List.concat_eq_append, normalizeLines_concat, List.mem_append] at h
    rw [List.concat_eq_append, List.mem_append]
    rcases h with h | h
    · exact (mem_of_mem_normalizeFront h).imp_right .inl
    · exact .inr (.inr h)

theorem mem_normalizeLines {ls : List Text} {line : Text} (h : line ∈ ls)
    (hv : isBlankLine line = false) : line ∈ normalizeLines ls := by
  rcases List.eq_nil_or_concat ls with rfl | ⟨ls, last, rfl⟩
  · exact h
  · rw [List.concat_eq_append, List.mem_append] at h
    rw [List.concat_eq_append, normalizeLines_concat, List.mem_append]
    exact h.imp_left (mem_normalizeFront · hv)

theorem normalizeLines_ne_nil {ls : List Text} (h : ls ≠ []) : normalizeLines ls ≠ [] := by
  cases ls with
  | nil => exact absurd rfl h
  | cons line ls => simp [normalizeLines]

theorem lines_normalizeLineBreaks (t : Text) :
    lines (normalizeLineBreaks t) = normalizeLines (rows t) := by
  refine lines_ofLines (normalizeLines_ne_nil (rows_ne_nil t)) fun line hl => ?_
  rcases mem_of_mem_normalizeLines hl with rfl | hl
  · exact List.not_mem_nil
  · exact (unbroken_of_mem_rows hl).1

theorem not_mem_normalizeLineBreaks (t : Text) : '\r' ∉ normalizeLineBreaks t := by
  intro hr
  rcases mem_of_mem_joinWith hr with hr | ⟨line, hl, hr⟩
  · exact absurd hr (by decide)
  · rcases mem_of_mem_normalizeLines hl with rfl | hl
    · exact List.not_mem_nil hr
    · exact (unbroken_of_mem_rows hl).2 hr

theorem unbroken_of_mem_normalized {t line : Text} (h : line ∈ lines (normalizeLineBreaks t)) :
    line.Unbroken :=
  ⟨not_mem_of_mem_lines h, fun hr => not_mem_normalizeLineBreaks t (mem_of_mem_splitOn h hr)⟩

/-- A normalized text is normal. -/
theorem normalizeLineBreaks_idem (t : Text) :
    normalizeLineBreaks (normalizeLineBreaks t) = normalizeLineBreaks t := by
  rw [← ofLines_lines (normalizeLineBreaks (normalizeLineBreaks t)), lines_normalizeLineBreaks,
    rows_of_not_mem (not_mem_normalizeLineBreaks t), lines_normalizeLineBreaks,
    normalizeLines_idem]
  rfl

end MarkdownDirectives.Text
