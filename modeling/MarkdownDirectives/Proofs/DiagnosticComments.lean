import MarkdownDirectives.Proofs.Diagnostics
import MarkdownDirectives.Proofs.ValueComments

/-!
# Diagnostic comments

The message in a diagnostic is cut between each two adjacent dashes, and its pieces are joined with
spaces. So no two dashes stand side by side in it, and the only comment end is the one behind it.
-/

namespace MarkdownDirectives

namespace Text

/-- The mark stands in the text between the two given texts, and at no other place. -/
def OccursOnce (mark t front back : Text) : Prop :=
  ∀ before after, t = before ++ mark ++ after ↔ before = front ∧ after = back

/-- A character behind a text that ends in the mark for the first time. -/
theorem EndsFirstIn.occursOnce {mark front : Text} {c : Char}
    (h : EndsFirstIn mark (front ++ mark)) (hm : mark ≠ []) (hc : c ∉ mark) :
    OccursOnce mark (front ++ mark ++ [c]) front [c] := by
  intro before after
  constructor
  · intro he
    rcases List.eq_nil_or_concat' after with rfl | ⟨after, last, rfl⟩
    · obtain ⟨mark, d, rfl⟩ := List.eq_nil_or_concat' mark |>.resolve_left hm
      rw [List.append_nil, ← List.append_assoc before] at he
      obtain ⟨-, hlast⟩ := List.append_inj' he rfl
      obtain rfl : c = d := List.singleton_inj.mp hlast
      exact absurd (List.mem_append_right mark (List.mem_singleton_self c)) hc
    · rw [← List.append_assoc] at he
      obtain ⟨hbefore, hlast⟩ := List.append_inj' he rfl
      have hafter : after = [] := h.2 before after hbefore
      subst hafter
      rw [List.append_nil] at hbefore
      exact ⟨(List.append_cancel_right hbefore).symm, hlast.symm⟩
  · rintro ⟨rfl, rfl⟩
    rfl

end Text

namespace Diagnostic

variable {t : Text} {pieces : List Text}

/-! ### Cutting at dashes -/

/-- The text is cut between each two adjacent dashes and nowhere else. -/
structure CutAtDashes (t : Text) (pieces : List Text) : Prop where
  flatten : pieces.flatten = t
  nonempty : ∀ piece ∈ pieces, piece ≠ []
  whole : ∀ piece ∈ pieces, Dashless piece
  cuts : pieces.IsChain fun left right => left.getLast? = some '-' ∧ right.head? = some '-'

theorem CutAtDashes.head? {piece : Text} {more : List Text} (h : CutAtDashes t (piece :: more)) :
    piece.head? = t.head? := by
  obtain ⟨c, rest, rfl⟩ := List.exists_cons_of_ne_nil (h.nonempty piece List.mem_cons_self)
  rw [← h.flatten]
  rfl

/-- A cut in front of a dash, behind one. -/
theorem CutAtDashes.cut (h : CutAtDashes ('-' :: t) pieces) :
    CutAtDashes ('-' :: '-' :: t) (['-'] :: pieces) where
  flatten := by simp [h.flatten]
  nonempty := List.forall_mem_cons.mpr ⟨List.cons_ne_nil _ _, h.nonempty⟩
  whole := List.forall_mem_cons.mpr ⟨List.isChain_singleton _, h.whole⟩
  cuts := by
    cases pieces with
    | nil => exact List.isChain_singleton _
    | cons piece more => exact .cons_cons ⟨rfl, h.head?⟩ h.cuts

/-- No cut between two characters of which one is no dash. -/
theorem CutAtDashes.keep {c : Char} {piece : Text} {more : List Text}
    (h : CutAtDashes t (piece :: more)) (hc : ∀ d ∈ t.head?, ¬ (c = '-' ∧ d = '-')) :
    CutAtDashes (c :: t) ((c :: piece) :: more) where
  flatten := by simp [← h.flatten]
  nonempty :=
    List.forall_mem_cons.mpr ⟨List.cons_ne_nil _ _, (List.forall_mem_cons.mp h.nonempty).2⟩
  whole := by
    obtain ⟨hpiece, hmore⟩ := List.forall_mem_cons.mp h.whole
    refine List.forall_mem_cons.mpr ⟨List.isChain_cons.mpr ⟨?_, hpiece⟩, hmore⟩
    rwa [h.head?]
  cuts := by
    have hpiece := h.nonempty piece List.mem_cons_self
    cases more with
    | nil => exact List.isChain_singleton _
    | cons next more =>
      obtain ⟨hcut, hcuts⟩ := List.isChain_cons_cons.mp h.cuts
      refine .cons_cons ?_ hcuts
      rwa [List.getLast?_cons_of_ne_nil hpiece]

/-- The pieces between adjacent dashes, joined with a space. -/
theorem exists_cutAtDashes (t : Text) :
    ∃ pieces, CutAtDashes t pieces ∧ separateDashes t = Text.joinWith ' ' pieces := by
  fun_induction separateDashes t with
  | case1 rest ih =>
    obtain ⟨pieces, hcut, hjoin⟩ := ih
    refine ⟨['-'] :: pieces, hcut.cut, ?_⟩
    cases pieces with
    | nil => exact absurd hcut.flatten (by simp)
    | cons piece more => rw [hjoin]; rfl
  | case2 c rest hc ih =>
    obtain ⟨pieces, hcut, hjoin⟩ := ih
    cases pieces with
    | nil =>
      have hrest : rest = [] := hcut.flatten.symm
      subst hrest
      refine ⟨[[c]], ⟨rfl, by simp, by simp [Dashless], List.isChain_singleton _⟩, ?_⟩
      rw [hjoin]
      rfl
    | cons piece more =>
      refine ⟨(c :: piece) :: more, hcut.keep ?_, ?_⟩
      · rintro d hd ⟨rfl, rfl⟩
        obtain ⟨after, rfl⟩ := List.head?_eq_some_iff.mp hd
        exact hc after rfl rfl
      · rw [hjoin]
        cases more <;> rfl
  | case3 => exact ⟨[], ⟨rfl, by simp, by simp, .nil⟩, rfl⟩

/-! ### The end of the comment -/

theorem Dashless.no_pair (h : Dashless t) : ¬ ['-', '-'] <:+: t := by
  intro hi
  have hdashes : Dashless ['-', '-'] := List.IsChain.infix h hi
  simp [Dashless] at hdashes

theorem endsFirstIn_comment (h : ¬ ['-', '-'] <:+: t) :
    Text.EndsFirstIn commentEnd ("\n<!-- `".toList ++ t ++ "` ".toList ++ commentEnd) := by
  have hcomment : "\n<!-- `".toList ++ t ++ "` ".toList ++ commentEnd =
      "\n<!--".toList ++ ' ' :: '`' :: (t ++ '`' :: ' ' :: "--".toList) ++ ['>'] := by
    simp [commentEnd]
  have hend : commentEnd <:+
      "\n<!--".toList ++ ' ' :: '`' :: (t ++ '`' :: ' ' :: "--".toList) ++ ['>'] := by
    rw [← hcomment]
    exact List.suffix_append _ _
  rw [hcomment, Text.endsFirstIn_concat hend, infix_append_cons_iff (by decide),
    or_iff_right (by decide), infix_cons_other_iff (by decide) commentEnd_ne_nil,
    infix_append_cons_iff (by decide), or_iff_left (by decide)]
  intro ht
  exact h ((List.prefix_append ['-', '-'] ['>']).isInfix.trans ht)

/-- A diagnostic is a comment around the trimmed message, or around a general one if that is empty,
with a space between each two adjacent dashes. No two dashes are adjacent then, and the comment end
stands in it once, behind the message. -/
theorem body_closed_once (message : Text) :
    body message = "\n<!-- `".toList ++ payload message ++ "` -->\n".toList ∧
    (∃ pieces,
      CutAtDashes (if message.trim = [] then "FAILED!".toList else message.trim) pieces ∧
      payload message = Text.joinWith ' ' pieces) ∧
    ¬ ['-', '-'] <:+: payload message ∧
    Text.OccursOnce commentEnd (body message)
      ("\n<!-- `".toList ++ payload message ++ "` ".toList) ['\n'] := by
  have hbody : body message =
      "\n<!-- `".toList ++ payload message ++ "` ".toList ++ commentEnd ++ ['\n'] := by
    simp [body, commentEnd]
  have hdashes : ¬ ['-', '-'] <:+: payload message := (dashless_separateDashes _).no_pair
  refine ⟨by simp [body], ?_, hdashes, ?_⟩
  · obtain ⟨pieces, hcut, hjoin⟩ :=
      exists_cutAtDashes (if message.trim.isEmpty then "FAILED!".toList else message.trim)
    simp only [List.isEmpty_iff] at hcut
    exact ⟨pieces, hcut, hjoin⟩
  · rw [hbody]
    exact (endsFirstIn_comment hdashes).occursOnce commentEnd_ne_nil (by decide)

example : payload "-- a ---> b --".toList = "- - a - - -> b - -".toList := by decide

end Diagnostic

end MarkdownDirectives
