import MarkdownDirectives.Proofs.Reading

/-!
# Splitting

Splitting a text loses nothing of it. The texts among the fragments are as long as they can be and
hold no opening tag line, and an envelope stands on lines of its own: an opening tag line, a body
and, if it is terminated, a closing tag line of the same form. Only the last fragment can be an
envelope that is not terminated.
-/

namespace MarkdownDirectives

namespace Fragment

/-! ### Joining -/

/-- The text that the fragments are split from. -/
def joined (fragments : List Fragment) : Text := fragments.flatMap source

theorem joined_directive (d : Directive) (more : List Fragment) :
    joined (.directive d :: more) = d.source ++ joined more := rfl

theorem joined_consText (t : Text) (fragments : List Fragment) :
    joined (consText t fragments) = t ++ joined fragments := by
  cases fragments with
  | nil => cases t <;> simp [consText, joined, source]
  | cons fragment more =>
    cases fragment with
    | text u => simp [consText, joined, source]
    | directive d => cases t <;> simp [consText, joined, source]

/-- A text put in front of fragments moves the envelopes in them to the right. -/
theorem of_consText_eq {t : Text} {fragments front after : List Fragment} {d : Directive}
    (h : consText t fragments = front ++ .directive d :: after) :
    ∃ front', fragments = front' ++ .directive d :: after ∧
      joined front = t ++ joined front' := by
  -- either the fragments are as before, or a text stands first and is longer or new
  have hnew : ∀ u more, .text u :: more = front ++ .directive d :: after →
      ∃ front', more = front' ++ .directive d :: after ∧ joined front = u ++ joined front' := by
    intro u more hu
    cases front with
    | nil => cases hu
    | cons first front =>
      obtain ⟨rfl, rfl⟩ := List.cons.inj hu
      exact ⟨front, rfl, rfl⟩
  cases fragments with
  | nil =>
    cases t with
    | nil => exact ⟨front, h, rfl⟩
    | cons c t => exact hnew _ _ h
  | cons fragment more =>
    cases fragment with
    | text u =>
      obtain ⟨front', rfl, hj⟩ := hnew _ _ h
      refine ⟨.text u :: front', rfl, ?_⟩
      rw [hj, List.append_assoc]
      rfl
    | directive d' =>
      cases t with
      | nil => exact ⟨front, h, rfl⟩
      | cons c t => exact hnew _ _ h

theorem of_text_mem_consText {t u : Text} {fragments : List Fragment}
    (h : .text u ∈ consText t fragments) :
    u = t ∨ .text u ∈ fragments ∨ ∃ v, .text v ∈ fragments ∧ u = t ++ v := by
  cases fragments with
  | nil =>
    cases t with
    | nil => exact absurd h List.not_mem_nil
    | cons c t =>
      cases List.mem_singleton.mp h
      exact .inl rfl
  | cons fragment more =>
    cases fragment with
    | text v =>
      rcases List.mem_cons.mp h with hu | hm
      · cases hu
        exact .inr (.inr ⟨v, List.mem_cons_self .., rfl⟩)
      · exact .inr (.inl (List.mem_cons_of_mem _ hm))
    | directive d =>
      cases t with
      | nil => exact .inr (.inl h)
      | cons c t =>
        rcases List.mem_cons.mp h with hu | hm
        · cases hu
          exact .inl rfl
        · exact .inr (.inl hm)

/-! ### Neighbouring texts -/

/-- No text is empty, and no text stands next to another. -/
inductive Tidy : List Fragment → Prop
  | nil : Tidy []
  | text {t} : t ≠ [] → Tidy [.text t]
  | between {t d more} : t ≠ [] → Tidy (.directive d :: more) →
    Tidy (.text t :: .directive d :: more)
  | directive {d more} : Tidy more → Tidy (.directive d :: more)

theorem Tidy.consText {fragments : List Fragment} (h : Tidy fragments) (t : Text) :
    Tidy (consText t fragments) := by
  have hne : ∀ {u : Text}, u ≠ [] → t ++ u ≠ [] := fun hu he => hu (List.append_eq_nil_iff.mp he).2
  cases h with
  | nil =>
    cases t with
    | nil => exact .nil
    | cons c t => exact .text (List.cons_ne_nil c t)
  | text hu => exact .text (hne hu)
  | between hu hm => exact .between (hne hu) hm
  | directive hm =>
    cases t with
    | nil => exact .directive hm
    | cons c t => exact .between (List.cons_ne_nil c t) (.directive hm)

theorem Tidy.ne_nil {fragments : List Fragment} (h : Tidy fragments) {t : Text}
    (ht : .text t ∈ fragments) : t ≠ [] := by
  induction h with
  | nil => exact absurd ht List.not_mem_nil
  | text hu =>
    cases List.mem_singleton.mp ht
    exact hu
  | between hu _ ih =>
    rcases List.mem_cons.mp ht with he | hm
    · cases he
      exact hu
    · exact ih hm
  | directive _ ih =>
    rcases List.mem_cons.mp ht with he | hm
    · cases he
    · exact ih hm

theorem Tidy.tail {fragment : Fragment} {more : List Fragment} (h : Tidy (fragment :: more)) :
    Tidy more := by
  cases h with
  | text _ => exact .nil
  | between _ hd => exact hd
  | directive hm => exact hm

theorem Tidy.apart {front after : List Fragment} {t u : Text} :
    ¬ Tidy (front ++ .text t :: .text u :: after) := by
  intro h
  induction front with
  | nil => cases h
  | cons fragment front ih => exact ih h.tail

end Fragment

theorem Block.gather_tidy (blocks : List Block) : Fragment.Tidy (gather blocks) := by
  induction blocks with
  | nil => exact .nil
  | cons block more ih =>
    cases block with
    | line t => exact ih.consText _
    | directive d => exact .directive (ih.consText _)

/-! ### The text of the fragments -/

/-- The line feed after a line stands in front of what the lines after it are read as. -/
theorem Reads.gap_append {number : Nat} {ls : List Text} {blocks : List Block}
    (h : Reads number ls blocks) (t : Text) :
    t ++ (Block.gap blocks ++ Text.ofLines ls) = Text.ofLines (t :: ls) := by
  rw [Block.gap, h.isEmpty]
  cases ls with
  | nil => exact List.append_nil t
  | cons line ls => rfl

theorem Reads.startsBreak {number : Nat} {ls : List Text} {blocks : List Block}
    (h : Reads number ls blocks) : (Block.gap blocks ++ Text.ofLines ls).StartsBreak := by
  have hg := h.gap_append []
  rw [List.nil_append] at hg
  rw [hg]
  cases ls with
  | nil => exact .inl rfl
  | cons line ls => exact .inr rfl

theorem Reads.joined {number : Nat} {ls : List Text} {blocks : List Block}
    (h : Reads number ls blocks) :
    Fragment.joined (Block.gather blocks) = Text.ofLines ls := by
  induction h with
  | nil => rfl
  | @line number t more blocks _ hm ih =>
    rw [Block.gather, Fragment.joined_consText, ih, List.append_assoc, hm.gap_append]
  | @closed number form expression opening body closing after blocks _ _ _ hm ih =>
    have hne : opening :: (body ++ [closing]) ≠ [] := List.cons_ne_nil _ _
    have hls : opening :: (body ++ closing :: after) = opening :: (body ++ [closing]) ++ after := by
      simp
    rw [Block.gather, Fragment.joined_directive, Fragment.joined_consText, ih, hm.gap_append,
      Directive.ofLines, Text.ofLines_ofLines_cons hne, hls]
  | unclosed _ _ =>
    rw [Block.gather, Fragment.joined_directive, openEnvelope_source]
    exact List.append_nil _

/-! ### The lines of the texts -/

/-- The lines of the texts among the fragments have a property. -/
def Fragment.TextLines (P : Text → Prop) (fragments : List Fragment) : Prop :=
  ∀ t, .text t ∈ fragments → ∀ line ∈ t.lines, P line

theorem Block.textLines_consText {P : Text → Prop} {t : Text} {blocks : List Block} (ht : P t)
    (hempty : P []) (hn : '\n' ∉ t) (h : Fragment.TextLines P (gather blocks)) :
    Fragment.TextLines P (Fragment.consText (t ++ gap blocks) (gather blocks)) := by
  have hfirst : ∀ u : Text, (∀ line ∈ u.lines, P line) →
      ∀ line ∈ (t ++ '\n' :: u).lines, P line := by
    intro u hu line hl
    rw [Text.lines_append, Text.lines_of_not_mem hn] at hl
    rcases List.mem_cons.mp hl with rfl | hl
    · exact ht
    · exact hu line hl
  intro u hu
  cases blocks with
  | nil =>
    rcases Fragment.of_text_mem_consText hu with rfl | hm | ⟨v, hm, -⟩
    · intro line hl
      rw [gap, List.isEmpty_nil, if_pos rfl, List.append_nil, Text.lines_of_not_mem hn] at hl
      cases List.mem_singleton.mp hl
      exact ht
    · exact absurd hm List.not_mem_nil
    · exact absurd hm List.not_mem_nil
  | cons block blocks =>
    rcases Fragment.of_text_mem_consText hu with rfl | hm | ⟨v, hm, rfl⟩
    · refine hfirst [] fun line hl => ?_
      cases List.mem_singleton.mp hl
      exact hempty
    · exact h u hm
    · have hv := hfirst v (h v hm)
      rwa [gap, List.isEmpty_cons, if_neg Bool.false_ne_true, List.append_assoc]

/-- What holds of an empty line and of the lines outside of envelopes holds of the lines of the
texts. -/
theorem Reads.textLines {P : Text → Prop} {number : Nat} {ls : List Text} {blocks : List Block}
    (h : Reads number ls blocks) (hn : ∀ line ∈ ls, '\n' ∉ line) (hempty : P [])
    (hl : ∀ line ∈ ls, openingTag? line = none → P line) :
    Fragment.TextLines P (Block.gather blocks) := by
  induction h with
  | nil => exact fun t ht => absurd ht List.not_mem_nil
  | line ht _ ih =>
    obtain ⟨hline, hmore⟩ := List.forall_mem_cons.mp hn
    obtain ⟨hout, hrest⟩ := List.forall_mem_cons.mp hl
    exact Block.textLines_consText (hout ht) hempty hline (ih hmore hrest)
  | @closed number form expression opening body closing after blocks _ _ _ _ ih =>
    have hmem : ∀ line ∈ after, line ∈ opening :: (body ++ closing :: after) := fun line hm => by
      simp [hm]
    intro t ht
    rcases List.mem_cons.mp ht with he | hm
    · cases he
    · exact Block.textLines_consText hempty hempty List.not_mem_nil
        (ih (fun line hm => hn line (hmem line hm)) fun line hm => hl line (hmem line hm)) t hm
  | unclosed _ _ =>
    intro t ht
    cases List.mem_singleton.mp ht

/-- The lines of the texts among the fragments are no opening tags. -/
theorem Reads.untagged {number : Nat} {ls : List Text} {blocks : List Block}
    (h : Reads number ls blocks) (hn : ∀ line ∈ ls, '\n' ∉ line) :
    Fragment.TextLines (openingTag? · = none) (Block.gather blocks) :=
  h.textLines hn (openingTag?_of_isBlankLine rfl) fun _ _ ho => ho

/-! ### The lines of an envelope -/

/-- The envelope stands on lines of its own between the two texts, the first of which starts with
the line `number`. -/
structure Directive.StandsBetween (number : Nat) (before after : Text) (d : Directive) : Prop where
  endsLine : before.EndsLine
  line : d.line = number + before.count '\n'
  written : ∃ opening closing, d.source = opening ++ d.body ++ closing ∧ '\n' ∉ opening ∧
    d.form.IsOpening d.expression opening ∧ d.body.StartsBreak ∧
    if d.isTerminated then
      d.body.getLast? = some '\n' ∧ d.form.IsClosing closing ∧ after.StartsBreak
    else closing = [] ∧ after = []

theorem Directive.standsBetween_ofLines {form : TagForm} {expression opening closing : Text}
    {body : List Text} (ho : openingTag? opening = some (form, expression))
    (hc : form.closes closing = true) (hn : '\n' ∉ opening) {after : Text}
    (ha : after.StartsBreak) (number : Nat) :
    (Directive.ofLines form expression number opening body closing).StandsBetween number []
      after := by
  have hbody : ('\n' :: terminateLines body).getLast? = some '\n' := by
    rcases List.eq_nil_or_concat' body with rfl | ⟨body, line, rfl⟩
    · rfl
    · have ht : '\n' :: terminateLines (body ++ [line]) =
          '\n' :: terminateLines body ++ line ++ ['\n'] := by
        simp [terminateLines]
      rw [ht, List.getLast?_concat]
  refine ⟨.inl rfl, rfl, opening, closing, ?_, hn, openingTag?_eq_some_iff.mp ho, .inr rfl, ?_⟩
  · exact Directive.ofLines_source form expression opening number body closing
  · exact ⟨hbody, TagForm.closes_iff.mp hc, ha⟩

theorem Directive.standsBetween_openEnvelope {form : TagForm} {expression opening : Text}
    (ho : openingTag? opening = some (form, expression)) (hn : '\n' ∉ opening) (number : Nat)
    (more : List Text) :
    (openEnvelope form expression opening number more).StandsBetween number [] [] := by
  refine ⟨.inl rfl, rfl, opening, [], ?_, hn, openingTag?_eq_some_iff.mp ho, ?_, rfl, rfl⟩
  · exact (List.append_nil _).symm
  · cases more with
    | nil => exact .inl rfl
    | cons line more => exact .inr rfl

/-- With a line in front the envelope stands one line further down. -/
theorem Directive.StandsBetween.below {number : Nat} {before after : Text} {d : Directive}
    (h : d.StandsBetween number before after) {t : Text} {lines number' : Nat}
    (ht : t.count '\n' = lines) (hn : number = number' + lines + 1) :
    d.StandsBetween number' (t ++ '\n' :: before) after := by
  refine ⟨.inr ?_, ?_, h.written⟩
  · rcases h.endsLine with rfl | hb
    · exact List.getLast?_concat ..
    · rw [List.getLast?_append, List.getLast?_cons, hb]
      rfl
  · rw [h.line, List.count_append, List.count_cons, ht, hn]
    simp
    omega

theorem Reads.standsBetween {number : Nat} {ls : List Text} {blocks : List Block}
    (h : Reads number ls blocks) (hn : ∀ line ∈ ls, '\n' ∉ line) {front after : List Fragment}
    {d : Directive} (hd : Block.gather blocks = front ++ .directive d :: after) :
    d.StandsBetween number (Fragment.joined front) (Fragment.joined after) := by
  have hgap : ∀ {blocks : List Block} {front' : List Fragment},
      Block.gather blocks = front' ++ .directive d :: after → Block.gap blocks = ['\n'] := by
    intro blocks front' hg
    cases blocks with
    | nil =>
      have hl := congrArg List.length hg
      simp [Block.gather] at hl
    | cons block blocks => rfl
  induction h generalizing front with
  | nil =>
    have hl := congrArg List.length hd
    simp [Block.gather] at hl
  | @line number t more blocks ht _ ih =>
    obtain ⟨hline, hmore⟩ := List.forall_mem_cons.mp hn
    obtain ⟨front', hg, hj⟩ := Fragment.of_consText_eq hd
    rw [hj, hgap hg, List.append_assoc]
    exact (ih hmore hg).below (List.count_eq_zero.mpr hline) rfl
  | @closed number form expression opening body closing more blocks ho hc _ hm ih =>
    have hopening : '\n' ∉ opening := hn opening (List.mem_cons_self ..)
    have hclosing : '\n' ∉ closing := hn closing (by simp)
    have hbody : ∀ line ∈ body, '\n' ∉ line := fun line hl => hn line (by simp [hl])
    have hmore : ∀ line ∈ more, '\n' ∉ line := fun line hl => hn line (by simp [hl])
    rw [Block.gather] at hd
    cases front with
    | nil =>
      cases hd
      refine Directive.standsBetween_ofLines ho hc hopening ?_ number
      rw [Fragment.joined_consText, hm.joined]
      exact hm.startsBreak
    | cons first front =>
      obtain ⟨rfl, hfront⟩ := List.cons.inj hd
      obtain ⟨front', hg, hj⟩ := Fragment.of_consText_eq hfront
      have hcount : (Directive.ofLines form expression number opening body closing).source.count
          '\n' = body.length + 1 := by
        rw [Directive.ofLines_source, List.count_append, List.count_append, List.count_cons,
          count_terminateLines hbody, List.count_eq_zero.mpr hopening,
          List.count_eq_zero.mpr hclosing]
        simp
      rw [Fragment.joined_directive, hj, hgap hg]
      exact (ih hmore hg).below hcount (by omega)
  | @unclosed number form expression opening more ho hc =>
    have hopening : '\n' ∉ opening := hn opening (List.mem_cons_self ..)
    rw [Block.gather] at hd
    cases front with
    | nil =>
      cases hd
      exact Directive.standsBetween_openEnvelope ho hopening number more
    | cons first front =>
      have hl := congrArg List.length hd
      simp [Block.gather, Block.gap, Fragment.consText] at hl

theorem Directive.StandsBetween.source_ne_nil {number : Nat} {before after : Text} {d : Directive}
    (h : d.StandsBetween number before after) : d.source ≠ [] := by
  obtain ⟨opening, closing, hs, -, ⟨-, left, right, blanks, -, -, -, rfl⟩, -⟩ := h.written
  rw [hs]
  cases d.form <;> simp [TagForm.openMark]

/-- No fragment is empty, so none comes after an envelope that takes the rest of the text. -/
theorem Reads.last {number : Nat} {ls : List Text} {blocks : List Block}
    (h : Reads number ls blocks) (hn : ∀ line ∈ ls, '\n' ∉ line) {front after : List Fragment}
    {d : Directive} (hd : Block.gather blocks = front ++ .directive d :: after)
    (ht : d.isTerminated = false) : after = [] := by
  obtain ⟨opening, closing, -, -, -, -, hend⟩ := (h.standsBetween hn hd).written
  rw [ht] at hend
  have hafter : Fragment.joined after = [] := hend.2
  cases after with
  | nil => rfl
  | cons fragment after =>
    have hsource : fragment.source = [] := (List.append_eq_nil_iff.mp hafter).1
    cases fragment with
    | text t =>
      have hm : Fragment.text t ∈ Block.gather blocks := by simp [hd]
      exact absurd hsource ((Block.gather_tidy blocks).ne_nil hm)
    | directive d' =>
      have hd' : Block.gather blocks = (front ++ [.directive d]) ++ .directive d' :: after := by
        simp [hd]
      exact absurd hsource (h.standsBetween hn hd').source_ne_nil

/-! ### Splittings -/

/-- A text and the fragments that it is split into. -/
structure Splitting (source : Text) (fragments : List Fragment) : Prop where
  joined : Fragment.joined fragments = source
  ne_nil : ∀ t, .text t ∈ fragments → t ≠ []
  apart : ∀ front t u after, fragments ≠ front ++ .text t :: .text u :: after
  untagged : ∀ t, .text t ∈ fragments → ∀ line ∈ t.lines, ∀ form expression,
    ¬ TagForm.IsOpening form expression line
  standsBetween : ∀ front d after, fragments = front ++ .directive d :: after →
    d.StandsBetween 1 (Fragment.joined front) (Fragment.joined after)
  last : ∀ front d after, fragments = front ++ .directive d :: after → d.isTerminated = false →
    after = []

/-- Splitting loses nothing, and every fragment is well formed. -/
theorem splitting_of_split {mode : Unterminated} {source : Text} {fragments : List Fragment}
    (h : split mode source = .ok fragments) : Splitting source fragments := by
  rw [split_eq_gather] at h
  obtain ⟨blocks, hb, rfl⟩ := exists_of_map_eq_ok h
  have hr := reads_of_blockLines hb
  have hn : ∀ line ∈ source.lines, '\n' ∉ line := fun line hl => Text.not_mem_of_mem_lines hl
  have ht := Block.gather_tidy blocks
  refine ⟨?_, fun t => ht.ne_nil, ?_, ?_, fun front d after => hr.standsBetween hn,
    fun front d after => hr.last hn⟩
  · rw [hr.joined, Text.ofLines_lines]
  · intro front t u after hs
    rw [hs] at ht
    exact ht.apart
  · intro t hm line hl
    exact openingTag?_eq_none_iff.mp (hr.untagged hn t hm line hl)

def mixedSource : Text := "intro\n<? a ?>\nx\n<?!> \nmid\n<!--?b?-->\ny".toList

def mixedFragments : List Fragment :=
  [.text "intro\n".toList,
    .directive ⟨"<? a ?>\nx\n<?!> ".toList, ['a'], "\nx\n".toList, .raw, 2, true⟩,
    .text "\nmid\n".toList,
    .directive ⟨"<!--?b?-->\ny".toList, ['b'], "\ny".toList, .commented, 6, false⟩]

theorem splitting_mixedSource :
    split .absorb mixedSource = .ok mixedFragments ∧ Splitting mixedSource mixedFragments := by
  have hs : split .absorb mixedSource = .ok mixedFragments := by decide +kernel
  exact ⟨hs, splitting_of_split hs⟩

end MarkdownDirectives
