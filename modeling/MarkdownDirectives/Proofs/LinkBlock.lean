import Mathlib.Tactic.TFAE
import MarkdownDirectives.Proofs.Diagnostics
import MarkdownDirectives.Proofs.Footer
import MarkdownDirectives.Proofs.NormalForm

/-!
# The link block read back

Names are aliases and hold no bracket, so a line `[name]: reference` is read as the link that it was
written for, and as no other. A reference is any text, though, and the lines after its first one are
lines of the block like those of the entries. So the block reads back exactly if no reference has a
line break. The footer around it ends early exactly if the raw tags among those further lines close
more than they open.
-/

namespace MarkdownDirectives

namespace LinkTable

variable {link : Link} {links : List Link}

/-! ### Reading a line -/

/-- The link that a line of the form `[name]: reference` defines. -/
def readDefinition? : Text → Option Link
  | '[' :: rest =>
    match rest.dropWhile (· != ']') with
    | ']' :: ':' :: ' ' :: reference =>
      let name := rest.takeWhile (· != ']')
      if Alias.isAlias name then some ⟨name, reference⟩ else none
    | _ => none
  | _ => none

theorem bracket_not_mem_isAlias {name : Text} (h : Alias.isAlias name = true) : ']' ∉ name :=
  fun hb => absurd (Alias.of_mem_isAlias h hb) (by decide)

theorem readDefinition?_eq_some_iff {line : Text} :
    readDefinition? line = some link ↔
      Alias.isAlias link.name = true ∧ line = definitionLine link := by
  constructor
  · intro h
    unfold readDefinition? at h
    split at h
    · next rest =>
      split at h
      · next reference hd =>
        obtain ⟨hname, he⟩ := Option.ite_none_right_eq_some.mp h
        cases he
        refine ⟨hname, ?_⟩
        have hrest := List.takeWhile_append_dropWhile (p := (· != ']')) (l := rest)
        rw [hd] at hrest
        rw [definitionLine, List.append_assoc, List.cons_append]
        exact congrArg ('[' :: ·) hrest.symm
      · cases h
    · cases h
  · rintro ⟨hname, rfl⟩
    have hall : ∀ c ∈ link.name, (c != ']') = true := fun c hc => by
      have hne : c ≠ ']' := fun he => bracket_not_mem_isAlias hname (he ▸ hc)
      simpa using hne
    have hline : definitionLine link =
        '[' :: (link.name ++ ']' :: ':' :: ' ' :: link.reference) := by
      simp [definitionLine]
    rw [hline, readDefinition?, List.dropWhile_append_of_pos hall,
      List.takeWhile_append_of_pos hall]
    simp [hname]

theorem readDefinition?_definitionLine (h : Alias.isAlias link.name = true) :
    readDefinition? (definitionLine link) = some link :=
  readDefinition?_eq_some_iff.mpr ⟨h, rfl⟩

/-! ### Reading a block -/

section

variable {α β : Type} {f : α → List β} {as : List α} (hf : ∀ a ∈ as, 1 ≤ (f a).length)
include hf

theorem length_le_of_flatMap : as.length ≤ (as.flatMap f).length := by
  induction as with
  | nil => exact Nat.le_refl 0
  | cons a as ih =>
    obtain ⟨ha, hmore⟩ := List.forall_mem_cons.mp hf
    have hle := ih hmore
    simp only [List.flatMap_cons, List.length_append, List.length_cons]
    omega

/-- Where each element gives something, as many things as elements are one for each. -/
theorem length_eq_one_of_flatMap (h : (as.flatMap f).length ≤ as.length) :
    ∀ a ∈ as, (f a).length = 1 := by
  induction as with
  | nil => exact fun a ha => absurd ha List.not_mem_nil
  | cons a as ih =>
    obtain ⟨ha, hmore⟩ := List.forall_mem_cons.mp hf
    have hle := length_le_of_flatMap hmore
    simp only [List.flatMap_cons, List.length_append, List.length_cons] at h
    exact List.forall_mem_cons.mpr ⟨by omega, ih hmore (by omega)⟩

end

/-- The ways to say of the lines of a block that they are the definitions of the entries, where a
line is a text that `fits`. -/
theorem tfae_lines (fits : Text → Prop) {ls : List Text}
    (hname : ∀ link ∈ links, Alias.isAlias link.name = true)
    (hfits : ∀ line ∈ ls, fits line)
    (hpart : ∀ link, fits (definitionLine link) → fits link.reference)
    (hwhole : (∀ link ∈ links, fits link.reference) → ls = links.map definitionLine)
    (hcount : ls.length ≤ links.length → ∀ link ∈ links, fits link.reference) :
    List.TFAE [∀ link ∈ links, fits link.reference,
      ls = links.map definitionLine,
      ls.length = links.length,
      ls.map readDefinition? = links.map some,
      ls.filterMap readDefinition? = links] := by
  tfae_have 1 → 2 := hwhole
  tfae_have 2 → 3 := fun h => by rw [h, List.length_map]
  tfae_have 3 → 1 := fun h => hcount (Nat.le_of_eq h)
  tfae_have 2 → 4 := fun h => by
    rw [h, List.map_map]
    exact List.map_congr_left fun link hl => readDefinition?_definitionLine (hname link hl)
  tfae_have 4 → 5 := fun h => by
    have hid : ls.filterMap readDefinition? = (ls.map readDefinition?).filterMap id := by
      rw [List.filterMap_map]
      rfl
    rw [hid, h, List.filterMap_map]
    exact List.filterMap_some
  tfae_have 5 → 1 := fun h link hl => by
    -- what is read from a line is within that line
    rw [← h] at hl
    obtain ⟨line, hline, hr⟩ := List.mem_filterMap.mp hl
    obtain ⟨-, rfl⟩ := readDefinition?_eq_some_iff.mp hr
    exact hpart link (hfits _ hline)
  tfae_finish

end LinkTable

/-! ### The block as it is -/

theorem printedLines_eq {t : Text} {front : List Text} (h : t.lines = front ++ [[]]) :
    t.printedLines = front := by
  rw [Text.printedLines, h, List.reverse_append]
  exact List.reverse_reverse front

theorem terminateLines_eq_ofLines (ls : List Text) :
    terminateLines ls = Text.ofLines (ls ++ [[]]) := by
  rw [ofLines_concat, List.append_nil]

theorem lines_terminateLines_eq (ls : List Text) :
    (terminateLines ls).lines = ls.flatMap Text.lines ++ [[]] := by
  have hne : ls ++ [[]] ≠ [] := by simp
  rw [terminateLines_eq_ofLines, Text.lines, Text.ofLines, Text.splitOn_joinWith hne,
    List.flatMap_append]
  rfl

theorem rows_terminateLines {ls : List Text} (h : Text.Sealed ls) :
    (terminateLines ls).rows = ls.flatMap Text.rows ++ [[]] := by
  rw [terminateLines_eq_ofLines, Text.rows_ofLines_append h (.cons (by decide) .nil) (by simp)]
  rfl

namespace LinkTable

/-- The ways to say of a block that it lists the entries. -/
def listings (table : LinkTable) (block : Text) : List Prop :=
  [block.printedLines = table.links.map definitionLine,
    block.printedLines.length = table.size,
    block.printedLines.map readDefinition? = table.links.map some,
    block.printedLines.filterMap readDefinition? = table.links]

theorem printedLines_render (table : LinkTable) :
    table.render.printedLines =
      table.links.flatMap fun link => (definitionLine link).lines := by
  apply printedLines_eq
  rw [render_eq, lines_terminateLines_eq, List.flatMap_map]

/-- The rendered block is one line for each entry, and reads back, exactly if no reference has a
line feed. -/
theorem tfae_render (table : LinkTable) :
    List.TFAE ((∀ link ∈ table.links, '\n' ∉ link.reference) :: table.listings table.render) := by
  rw [listings, printedLines_render]
  refine tfae_lines ('\n' ∉ ·) (fun link => table.isAlias_name) ?_ ?_ ?_ ?_
  · intro line hl
    obtain ⟨link, -, hline⟩ := List.mem_flatMap.mp hl
    exact Text.not_mem_of_mem_lines hline
  · intro link hl
    rw [definitionLine_eq_append, List.mem_append, not_or] at hl
    exact hl.2
  · intro hall
    rw [← List.flatMap_pure_eq_map]
    refine List.flatMap_congr fun link hl => ?_
    have hline := (feed_not_mem_definitionLine (table.isAlias_name hl)).mpr (hall link hl)
    exact Text.lines_of_not_mem hline
  · intro hle link hl
    have hpos : ∀ link ∈ table.links, 1 ≤ (definitionLine link).lines.length := fun link _ =>
      List.length_pos_iff.mpr (Text.lines_ne_nil _)
    obtain ⟨line, hline⟩ := List.length_eq_one_iff.mp (length_eq_one_of_flatMap hpos hle link hl)
    have hjoin := Text.ofLines_lines (definitionLine link)
    rw [hline] at hjoin
    have hfeed : '\n' ∉ line := Text.not_mem_of_mem_lines (hline ▸ List.mem_singleton_self line)
    have he : line = definitionLine link := hjoin
    rw [he] at hfeed
    exact (feed_not_mem_definitionLine (table.isAlias_name hl)).mp hfeed

end LinkTable

/-! ### The block in a document -/

namespace Text

/-- The last character of the text is visible. -/
def EndsVisible (t : Text) : Prop := ∃ init c, t = init ++ [c] ∧ isBlank c = false

theorem endsVisible_trim {t : Text} (h : t.trim ≠ []) : t.trim.EndsVisible := by
  have ht : t.trim = List.rdropWhile isBlank (t.dropWhile isBlank) :=
    dropEndWhile_eq_rdropWhile ..
  rw [ht] at h ⊢
  refine ⟨_, _, (List.dropLast_append_getLast h).symm, ?_⟩
  exact Bool.eq_false_iff.mpr (List.rdropWhile_last_not isBlank _ h)

theorem EndsVisible.getLast? {t : Text} (h : t.EndsVisible) : t.getLast? ≠ some '\r' := by
  obtain ⟨init, c, rfl, hc⟩ := h
  rw [List.getLast?_concat]
  intro he
  cases he
  exact absurd hc (by decide)

theorem EndsVisible.append {t : Text} (h : t.EndsVisible) (before : Text) :
    (before ++ t).EndsVisible := by
  obtain ⟨init, c, rfl, hc⟩ := h
  exact ⟨before ++ init, c, (List.append_assoc ..).symm, hc⟩

theorem isBlankLine_concat {c : Char} (h : isBlank c = false) (init : Text) :
    isBlankLine (init ++ [c]) = false := by
  simp [isBlankLine, h]

/-- The last row of a text is visible if its last character is. -/
theorem EndsVisible.rows {t : Text} (h : t.EndsVisible) :
    ∃ front last, t.rows = front ++ [last] ∧ isBlankLine last = false := by
  obtain ⟨init, c, rfl, hc⟩ := h
  have hr : c ≠ '\r' := fun he => absurd hc (he ▸ by decide)
  have hn : c ≠ '\n' := fun he => absurd hc (he ▸ by decide)
  have hunified : unifyBreaks (init ++ [c]) = unifyBreaks init ++ [c] := by
    rw [unifyBreaks_append (.inr (by simpa using hn)), unifyBreaks_cons [] hr]
    rfl
  obtain ⟨front, last, hrows⟩ :=
    (List.eq_nil_or_concat' (Text.rows (init ++ [c]))).resolve_left (rows_ne_nil _)
  refine ⟨front, last, hrows, ?_⟩
  have hjoin := ofLines_lines (unifyBreaks (init ++ [c]))
  rw [← Text.rows, hrows, ofLines_concat, hunified] at hjoin
  rcases List.eq_nil_or_concat' last with rfl | ⟨last, d, rfl⟩
  · -- an empty last row would come after a line feed
    rcases List.eq_nil_or_concat' front with rfl | ⟨front, line, rfl⟩
    · simp [terminateLines] at hjoin
    · have hend : terminateLines (front ++ [line]) = (terminateLines front ++ line) ++ ['\n'] := by
        simp [terminateLines]
      rw [List.append_nil, hend] at hjoin
      obtain ⟨-, hlast⟩ := List.append_inj' hjoin rfl
      cases hlast
      exact absurd rfl hn
  · rw [← List.append_assoc] at hjoin
    obtain ⟨-, hlast⟩ := List.append_inj' hjoin rfl
    cases hlast
    exact isBlankLine_concat hc last

theorem feed_mem_unifyBreaks {t : Text} (h : '\n' ∈ t ∨ '\r' ∈ t) : '\n' ∈ unifyBreaks t := by
  fun_induction unifyBreaks t with
  | case1 => simp at h
  | case2 rest ih => exact List.mem_cons_self ..
  | case3 c rest _ ih =>
    by_cases hc : c = '\n' ∨ c = '\r'
    · rcases hc with rfl | rfl <;> simp
    · obtain ⟨hn, hr⟩ := not_or.mp hc
      have hrest : '\n' ∈ rest ∨ '\r' ∈ rest := by
        simpa [Ne.symm hn, Ne.symm hr] using h
      exact List.mem_cons_of_mem _ (ih hrest)

theorem unbroken_of_rows {t row : Text} (h : t.rows = [row]) : t.Unbroken := by
  have hrow : '\n' ∉ row := (unbroken_of_mem_rows (h ▸ List.mem_singleton_self row)).1
  have hjoin : row = unifyBreaks t := (congrArg ofLines h).symm.trans (ofLines_lines _)
  rw [hjoin] at hrow
  exact ⟨fun hn => hrow (feed_mem_unifyBreaks (.inl hn)),
    fun hr => hrow (feed_mem_unifyBreaks (.inr hr))⟩

end Text

namespace LinkTable

/-- The rows of a definition: the first row of the reference stands after the label. -/
theorem rows_definitionLine (h : Alias.isAlias link.name = true) :
    ∃ first more, link.reference.rows = first :: more ∧
      (definitionLine link).rows = (label link ++ first) :: more := by
  obtain ⟨first, more, hr⟩ := List.exists_cons_of_ne_nil (Text.rows_ne_nil link.reference)
  have hlabel := unbroken_label h
  refine ⟨first, more, hr, ?_⟩
  have hfront : (label link).rows = [] ++ [label link] := hlabel.rows
  exact Text.rows_cut hlabel.getLast? hfront hr

theorem label_visible (link : Link) (more : Text) :
    Text.isBlankLine (label link ++ more) = false := rfl

/-- The rows of a definition that normalizing keeps. -/
def visibleRows (link : Link) : List Text :=
  (definitionLine link).rows.filter fun row => !Text.isBlankLine row

theorem visibleRows_eq (h : Alias.isAlias link.name = true) :
    ∃ first more, link.reference.rows = first :: more ∧
      visibleRows link = (label link ++ first) :: more.filter fun row => !Text.isBlankLine row := by
  obtain ⟨first, more, href, hrows⟩ := rows_definitionLine h
  refine ⟨first, more, href, ?_⟩
  rw [visibleRows, hrows, List.filter_cons_of_pos (by rw [label_visible]; rfl)]

theorem visibleRows_pos (h : Alias.isAlias link.name = true) : 1 ≤ (visibleRows link).length := by
  obtain ⟨first, more, -, hrows⟩ := visibleRows_eq h
  rw [hrows]
  exact Nat.le_add_left ..

/-- A definition has more than one visible row if its reference has a line break. -/
theorem unbroken_of_visibleRows (hname : Alias.isAlias link.name = true)
    (hend : link.reference.EndsVisible) (h : (visibleRows link).length = 1) :
    link.reference.Unbroken := by
  obtain ⟨first, more, href, hrows⟩ := visibleRows_eq hname
  obtain ⟨front, last, hlast, hv⟩ := hend.rows
  rw [hrows, List.length_cons] at h
  have hnone : more.filter (fun row => !Text.isBlankLine row) = [] :=
    List.length_eq_zero_iff.mp (by omega)
  rcases List.eq_nil_or_concat' more with rfl | ⟨more, row, rfl⟩
  · exact Text.unbroken_of_rows href
  · rw [hlast, ← List.cons_append] at href
    obtain ⟨-, hrow⟩ := List.append_inj' href rfl
    cases hrow
    rw [List.filter_append, List.append_eq_nil_iff] at hnone
    simp [hv] at hnone

theorem normalizeFront_definitions (links : List Link) :
    Text.normalizeFront (links.map definitionLine) = links.map definitionLine := by
  cases links with
  | nil => rfl
  | cons link links =>
    have hs := squeeze_definitions links []
    rw [List.append_nil] at hs
    rw [List.map_cons, Text.normalizeFront, hs]
    exact congrArg (_ :: ·) (List.append_nil _)

section

variable {table : LinkTable} (h : ∀ link ∈ table.links, link.reference.EndsVisible)
include h

theorem sealed_definitions : Text.Sealed (table.links.map definitionLine) := by
  intro line hl
  obtain ⟨link, hlink, rfl⟩ := List.mem_map.mp hl
  exact ((h link hlink).append (label link)).getLast?

theorem lines_normalize_render : table.render.normalizeLineBreaks.lines =
    Text.normalizeFront ((table.links.map definitionLine).flatMap Text.rows) ++ [[]] := by
  rw [Text.lines_normalizeLineBreaks, render_eq, rows_terminateLines (sealed_definitions h),
    Text.normalizeLines_concat]

/-- A document has at least as many lines of the block as the definitions have visible rows. -/
theorem length_visibleRows_le
    (hle : (Text.normalizeFront ((table.links.map definitionLine).flatMap Text.rows)).length ≤
      table.links.length) :
    (table.links.flatMap visibleRows).length ≤ table.links.length := by
  have hvisible := (Text.normalOf_normalizeLineBreaks table.render).visible
  rw [lines_normalize_render h, render_eq, rows_terminateLines (sealed_definitions h),
    List.filter_append, List.filter_append, List.append_cancel_right_eq] at hvisible
  have hrows : table.links.flatMap visibleRows =
      ((table.links.map definitionLine).flatMap Text.rows).filter
        fun row => !Text.isBlankLine row := by
    rw [List.flatMap_map, List.filter_flatMap]
    rfl
  rw [hrows, ← hvisible]
  exact Nat.le_trans (List.length_filter_le ..) hle

/-- In a document the block is one line for each entry, and reads back, exactly if no reference has
a line break of any kind. -/
theorem tfae_normalize_render :
    List.TFAE ((∀ link ∈ table.links, link.reference.Unbroken) ::
      table.listings table.render.normalizeLineBreaks) := by
  have hlines := lines_normalize_render h
  rw [listings, printedLines_eq hlines]
  refine tfae_lines Text.Unbroken (fun link => table.isAlias_name) ?_ ?_ ?_ ?_
  · intro line hl
    have hmem : line ∈ table.render.normalizeLineBreaks.lines := by
      rw [hlines]
      exact List.mem_append_left _ hl
    exact Text.unbroken_of_mem_normalized hmem
  · intro link hl
    exact ⟨fun hm => hl.1 (List.mem_append_right _ hm), fun hm => hl.2 (List.mem_append_right _ hm)⟩
  · intro hall
    have hwhole : ∀ line ∈ table.links.map definitionLine, line.Unbroken := by
      intro line hl
      obtain ⟨link, hlink, rfl⟩ := List.mem_map.mp hl
      exact (unbroken_definitionLine (table.isAlias_name hlink)).mpr (hall link hlink)
    rw [Text.flatMap_rows hwhole, normalizeFront_definitions]
  · intro hle link hl
    exact unbroken_of_visibleRows (table.isAlias_name hl) (h link hl)
      (length_eq_one_of_flatMap (fun link hl => visibleRows_pos (table.isAlias_name hl))
        (length_visibleRows_le h hle) link hl)

end

/-- The lines of the block that do not stand after a label. -/
def continuations (table : LinkTable) : List Text :=
  table.links.flatMap fun link => link.reference.rows.tail

end LinkTable

/-! ### The footer around the block -/

namespace TagForm

variable {form : TagForm} {ls : List Text}

theorem filter_squeeze (b : Bool) (ls : List Text) :
    (Text.squeeze b ls).filter form.isTag = ls.filter form.isTag := by
  have hblank : ∀ {line}, Text.isBlankLine line = true → ∀ more : List Text,
      (line :: more).filter form.isTag = more.filter form.isTag := fun hl more =>
    List.filter_cons_of_neg (by simp [isTag_of_isBlankLine hl])
  induction ls generalizing b with
  | nil => rfl
  | cons line ls ih =>
    cases hl : Text.isBlankLine line with
    | true =>
      rw [Text.squeeze_blank b ls hl, hblank hl, List.filter_append, ih]
      cases b with
      | true => rfl
      | false => rw [if_neg Bool.noConfusion, hblank Text.isBlankLine_nil]; rfl
    | false =>
      rw [Text.squeeze_visible b ls hl, List.filter_cons, List.filter_cons, ih]

end TagForm

section

variable {mode : Unterminated} {form : TagForm} {expression : Text} {front body : List Text}

/-- Between other lines and a last line feed, a wrapped body is one envelope again exactly if its
tags enclose it. -/
theorem split_enclosed_iff (hn : '\n' ∉ expression) (he : expression.Unspaced)
    (hf : ∀ line ∈ front, '\n' ∉ line) (hu : ∀ line ∈ front, openingTag? line = none)
    (hb : ∀ line ∈ body, '\n' ∉ line) :
    split mode (terminateLines front ++ form.wrap expression ('\n' :: terminateLines body) ++
          ['\n']) =
        .ok ((if terminateLines front = [] then [] else [.text (terminateLines front)]) ++
          [.directive (form.wrapped expression ('\n' :: terminateLines body) (front.length + 1)),
            .text ['\n']]) ↔
      form.Encloses body := by
  have ho : openingTag? (form.openTag expression) = some (form, expression) :=
    openingTag?_eq_some_iff.mpr (form.isOpening_openTag he)
  have hopening : '\n' ∉ form.openTag expression :=
    TagForm.not_mem_openTag (by cases form <;> decide) hn
  have hclosing : '\n' ∉ form.closeTag := by cases form <;> decide
  obtain ⟨before, closing, after, hprefix, hbody, hcount⟩ := exists_closingLine? form body
  have hlines : (terminateLines front ++ form.wrap expression ('\n' :: terminateLines body) ++
      ['\n']).lines =
        front ++ form.openTag expression :: (before ++ closing :: (after ++ [[]])) := by
    have hend : Text.StartsBreak ['\n'] := .inr rfl
    have hl := Text.lines_envelope hf hopening hb hclosing hend
    have hassoc : before ++ closing :: (after ++ [[]]) = body ++ form.closeTag :: [[]] := by
      rw [← List.cons_append, ← List.append_assoc, ← hbody]
      simp
    rw [hassoc]
    exact hl
  -- the last line is blank and ends no envelope
  have hclosed : closingLine? form (before ++ closing :: (after ++ [[]])) = some before.length := by
    rw [hbody, ← List.append_nil after] at hcount
    exact closingLine?_before hcount fun depth _ => form.balancedClose?_blank depth
  rw [TagForm.Encloses, ← TagForm.closingLine?_concat form.closes_closeTag, hcount,
    Option.some.injEq, split_eq_gather, hlines,
    (readsBefore_lines hu _ 1).blockLines_append mode, blockLines_closed ho hclosed]
  constructor
  · intro h
    obtain ⟨all, hall, hfragments⟩ := exists_of_map_eq_ok h
    obtain ⟨found, hfound, rfl⟩ := exists_of_map_eq_ok hall
    obtain ⟨blocks, -, rfl⟩ := exists_of_map_eq_ok hfound
    rw [Block.gather_envelope, List.append_cancel_left_eq] at hfragments
    have hd := Fragment.directive.inj (List.cons.inj hfragments).1
    rw [eq_of_terminateLines hprefix hb (congrArg Directive.body hd)]
  · intro hlength
    cases hprefix.eq_of_length hlength
    rw [List.append_cancel_left_eq] at hbody
    obtain ⟨rfl, rfl⟩ := List.cons.inj hbody
    rw [TagForm.ofLines_eq_wrapped, Nat.add_comm 1 front.length]
    have hblank : blockLines mode (front.length + 1 + body.length + 2) 0 ([] ++ [[]]) =
        .ok [.line []] := rfl
    rw [hblank]
    exact congrArg Except.ok (Block.gather_envelope ..)

end

namespace Context

variable {world : World} {context : Context}

/-- The lines between the tags of the footer in a document. -/
def normalFooterLines (world : World) (context : Context) : List Text :=
  Text.squeeze false ((context.footerLines world).flatMap Text.rows)

theorem feed_not_mem_normalFooterLines : ∀ line ∈ context.normalFooterLines world, '\n' ∉ line := by
  intro line hline
  rcases Text.mem_of_mem_squeeze hline with rfl | hline
  · exact List.not_mem_nil
  · obtain ⟨t, -, hrow⟩ := List.mem_flatMap.mp hline
    exact (Text.unbroken_of_mem_rows hrow).1

/-- The labels and the lines after the block make no tags. -/
theorem encloses_normalFooterLines (hs : (context.timestamp world).Unbroken) :
    TagForm.raw.Encloses (context.normalFooterLines world) ↔
      TagForm.raw.Encloses context.links.continuations := by
  have hdefinitions : ∀ link ∈ context.links.links,
      (LinkTable.definitionLine link).rows.filter TagForm.raw.isTag =
        link.reference.rows.tail.filter TagForm.raw.isTag := by
    intro link hlink
    obtain ⟨first, more, href, hrows⟩ :=
      LinkTable.rows_definitionLine (context.links.isAlias_name hlink)
    have hlabel : TagForm.raw.isTag (LinkTable.label link ++ first) = false :=
      TagForm.isTag_cons (by decide) _
    rw [hrows, href, List.filter_cons_of_neg (by simp [hlabel])]
    rfl
  have hafter : ([[], "---".toList, "Last Updated: ".toList ++ context.timestamp world].flatMap
      Text.rows).filter TagForm.raw.isTag = [] := by
    rw [Text.flatMap_rows fun line hl => (of_mem_stampLines hs hl).1]
    exact List.filter_eq_nil_iff.mpr fun line hl => by simp [(of_mem_stampLines hs hl).2 .raw]
  rw [← TagForm.encloses_filter, normalFooterLines, TagForm.filter_squeeze, footerLines,
    List.flatMap_append, List.filter_append, hafter, List.append_nil, List.flatMap_map,
    List.filter_flatMap, List.flatMap_congr hdefinitions, ← List.filter_flatMap,
    TagForm.encloses_filter]
  rfl

theorem normalFooterLines_eq (h : context.PlainFooter world) :
    context.normalFooterLines world = context.footerLines world := by
  rw [normalFooterLines, Text.flatMap_rows fun line hline => (h.of_mem hline).1,
    squeeze_footerLines]

section

variable (hl : ∀ link ∈ context.links.links, link.reference.EndsVisible)
  (hs : (context.timestamp world).Unbroken)
include hl hs

theorem sealed_footerLines : Text.Sealed (context.footerLines world) :=
  (LinkTable.sealed_definitions hl).append fun _ hline => (of_mem_stampLines hs hline).1.getLast?

/-- A normalized footer is an envelope with one empty line in front of it. -/
theorem normalize_footer : (context.footer world).normalizeLineBreaks =
    terminateLines [[], []] ++
      TagForm.raw.wrap discardMark ('\n' :: terminateLines (context.normalFooterLines world)) ++
        ['\n'] := by
  have hrows : (context.footer world).rows = [] :: [] :: (context.footerBlock world).rows := by
    rw [footer_eq, ← List.nil_append ('\n' :: '\n' :: _), Text.rows_append (by decide),
      ← List.nil_append ('\n' :: _), Text.rows_append (by decide)]
    rfl
  have hopen : Text.isBlankLine (TagForm.raw.openTag discardMark) = false := by decide
  have hclose : Text.isBlankLine TagForm.raw.closeTag = false := by decide
  have hlines : (context.footer world).normalizeLineBreaks.lines =
      ([] :: [] :: TagForm.raw.openTag discardMark ::
        (context.normalFooterLines world ++ [TagForm.raw.closeTag])) ++ [[]] := by
    have hls : (context.footer world).rows =
        ([] :: [] :: TagForm.raw.openTag discardMark ::
          ((context.footerLines world).flatMap Text.rows ++ [TagForm.raw.closeTag])) ++ [[]] := by
      rw [hrows, rows_footerBlock_of_sealed (sealed_footerLines hl hs)]
      simp
    rw [Text.lines_normalizeLineBreaks, hls, Text.normalizeLines_concat, Text.normalizeFront,
      Text.squeeze_blank false _ Text.isBlankLine_nil, Text.squeeze_visible true _ hopen,
      Text.squeeze_append, Text.squeeze_visible _ _ hclose]
    rfl
  rw [← Text.ofLines_lines (context.footer world).normalizeLineBreaks, hlines, ofLines_concat]
  simp [terminateLines, TagForm.wrap]

/-- The footer of a document is one envelope exactly if the lines of references that do not stand
after a label have raw tags that balance, or close nothing. -/
theorem split_footer_iff (mode : Unterminated) :
    split mode (context.footer world).normalizeLineBreaks =
        .ok [.text ['\n', '\n'],
          .directive (TagForm.raw.wrapped discardMark
            ('\n' :: terminateLines (context.normalFooterLines world)) 3),
          .text ['\n']] ↔
      TagForm.raw.Encloses context.links.continuations := by
  rw [normalize_footer hl hs, ← encloses_normalFooterLines hs]
  exact split_enclosed_iff (by decide) (by decide) (by decide) (by decide)
    feed_not_mem_normalFooterLines

end

end Context

namespace LinkTable

theorem endsVisible_of_mem_serveAll (requests : List LinkRequest) :
    ∀ link ∈ (empty.serveAll requests).links, link.reference.EndsVisible := by
  intro link hl
  obtain ⟨position, hp⟩ := List.mem_iff_getElem?.mp hl
  obtain ⟨-, reference, -, -, -, -, -, -, hr, -, rfl⟩ := recordedBy_serveAll hp
  exact Text.endsVisible_trim hr

theorem continuations_eq_nil {table : LinkTable}
    (h : ∀ link ∈ table.links, link.reference.Unbroken) : table.continuations = [] := by
  refine List.flatMap_eq_nil_iff.mpr fun link hl => ?_
  rw [(h link hl).rows]
  rfl

/-- After every run of requests the block can be read back from the table and from a document
exactly if no reference has a line break, and the footer of the document is one envelope exactly if
the lines that references add have raw tags that balance, or close nothing. -/
theorem serveAll_readable (requests : List LinkRequest) :
    let table := empty.serveAll requests
    List.TFAE ((∀ link ∈ table.links, '\n' ∉ link.reference) :: table.listings table.render) ∧
    List.TFAE ((∀ link ∈ table.links, link.reference.Unbroken) ::
      table.listings table.render.normalizeLineBreaks) ∧
    ∀ (world : World) (context : Context) (mode : Unterminated),
      context.links = table → (context.timestamp world).Unbroken →
      (split mode (context.footer world).normalizeLineBreaks =
          .ok [.text ['\n', '\n'],
            .directive (TagForm.raw.wrapped discardMark
              ('\n' :: terminateLines (context.normalFooterLines world)) 3),
            .text ['\n']] ↔
        TagForm.raw.Encloses table.continuations) ∧
      ((∀ link ∈ table.links, link.reference.Unbroken) →
        split mode (context.footer world).normalizeLineBreaks =
          .ok [.text ['\n', '\n'], .directive (context.footerDirective world 3),
            .text ['\n']]) := by
  intro table
  have hend := endsVisible_of_mem_serveAll requests
  refine ⟨tfae_render table, tfae_normalize_render hend, ?_⟩
  rintro world context mode hlinks hs
  have hcontext : ∀ link ∈ context.links.links, link.reference.EndsVisible := hlinks ▸ hend
  have hsplit := context.split_footer_iff hcontext hs mode
  rw [hlinks] at hsplit
  refine ⟨hsplit, fun h => ?_⟩
  have hnone : TagForm.raw.Encloses table.continuations := by
    rw [continuations_eq_nil h]
    exact .inl rfl
  have hplain : context.PlainFooter world := ⟨hs, hlinks ▸ h⟩
  rw [hsplit.mpr hnone, Context.normalFooterLines_eq hplain]
  rfl

/-- Requests for a reference with brackets and a colon in it, and for one that is known. -/
def bracketRequests : List LinkRequest :=
  [.aliasOf "./a.md".toList "link".toList, .aliasOf " ]: x [y ".toList "Docs".toList,
    .aliasOf "./a.md ".toList "other".toList, .referenceOf "LINK-1".toList]

def bracketLinks : List Link :=
  [⟨"link-1".toList, "./a.md".toList⟩, ⟨"docs-2".toList, "]: x [y".toList⟩]

theorem serveAll_bracketRequests :
    let table := empty.serveAll bracketRequests
    let context := { stampedContext with links := table }
    table.links = bracketLinks ∧
      table.render.printedLines.map readDefinition? = bracketLinks.map some ∧
      table.render.normalizeLineBreaks.printedLines.map readDefinition? = bracketLinks.map some ∧
      split .reject (context.footer emptyWorld).normalizeLineBreaks =
        .ok [.text ['\n', '\n'], .directive (context.footerDirective emptyWorld 3),
          .text ['\n']] := by
  intro table context
  have hlinks : table.links = bracketLinks := by decide +kernel
  have hplain : ∀ link ∈ table.links, link.reference.Unbroken := by
    rw [hlinks]
    decide
  have hfeed : ∀ link ∈ table.links, '\n' ∉ link.reference := fun link hl => (hplain link hl).1
  have hstamp : (context.timestamp emptyWorld).Unbroken := by decide
  obtain ⟨hraw, hnormal, hfooter⟩ := serveAll_readable bracketRequests
  have hread := (hraw.out 0 3).mp hfeed
  have hread' := (hnormal.out 0 3).mp hplain
  rw [← hlinks]
  exact ⟨rfl, hread, hread', (hfooter emptyWorld context .reject rfl hstamp).2 hplain⟩

/-- A reference can hold a definition of its own, and its line feed makes a line of that. The raw
closing tag in another one ends the footer. -/
theorem serveAll_brokenReference :
    let table := empty.serveAll [.aliasOf "a\n[link-2]: b".toList "link".toList]
    let closing := empty.serveAll [.aliasOf "a\n<?!>\nb".toList "link".toList]
    let context := { stampedContext with links := closing }
    table.links = [⟨"link-1".toList, "a\n[link-2]: b".toList⟩] ∧
      table.render.printedLines.map readDefinition? =
        [some ⟨"link-1".toList, ['a']⟩, some ⟨"link-2".toList, ['b']⟩] ∧
      split .reject (context.footer emptyWorld).normalizeLineBreaks =
        .ok [.text ['\n', '\n'],
          .directive (TagForm.raw.wrapped discardMark "\n[link-1]: a\n".toList 3),
          .text "\nb\n\n---\nLast Updated: T\n<?!>\n".toList] := by
  decide +kernel

end LinkTable

end MarkdownDirectives
