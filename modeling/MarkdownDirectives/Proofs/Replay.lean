import MarkdownDirectives.Proofs.Frame
import MarkdownDirectives.Proofs.Page

/-!
# Replaying a page

Lines outside of envelopes and literal envelopes stand for themselves, a discarded envelope leaves
two empty lines, and an evaluated envelope whose expression generates the body that it has already
stands for itself too. A page of such pieces is rendered to the lines that it has, up to the length
of its runs of blank lines, also if the page was squeezed before.
-/

namespace MarkdownDirectives

section

variable (world : World) (nested : Text → Eval Text)

/-- The lines that a piece is rendered to, between the contexts before and after. -/
inductive Piece.Rewrites : Context → Piece → List Text → Context → Prop
  | line {t outside unbroken context} : Rewrites context (.line t outside unbroken) [t] context
  | literal {e : Envelope} {context} : e.expression = [] →
    Rewrites context (.envelope e) e.lines context
  | discard {e : Envelope} {context} : e.expression = discardMark →
    Rewrites context (.envelope e) [[], []] context
  | evaluated {e : Envelope} {context after body} : e.expression ≠ [] →
    e.expression ≠ discardMark →
    generatedBody world nested e.expression context = (body, after) →
    Text.rows (e.form.wrap e.expression body) = e.lines →
    Rewrites context (.envelope e) e.lines after

/-- The lines that a page is rendered to, between the contexts before and after. -/
inductive Page.Rewrites : Context → Page → List Text → Context → Prop
  | nil {context} : Rewrites context [] [] context
  | cons {context middle after piece more ls ls'} :
    Piece.Rewrites world nested context piece ls middle → Rewrites middle more ls' after →
    Rewrites context (piece :: more) (ls ++ ls') after

end

variable {world : World} {nested : Text → Eval Text}

theorem Piece.Rewrites.growsTo (hn : ∀ t, Eval.Framed (nested t)) {context after : Context}
    {piece : Piece} {ls : List Text} (h : Piece.Rewrites world nested context piece ls after) :
    context.GrowsTo after := by
  cases h with
  | @evaluated e _ _ _ _ _ hg _ =>
    have hf : context.GrowsTo (generatedBody world nested e.expression context).2 :=
      generatedBody_growsTo hn e.expression context
    rwa [hg] at hf
  | _ => exact .refl context

theorem Page.Rewrites.growsTo (hn : ∀ t, Eval.Framed (nested t)) {context after : Context}
    {page : Page} {ls : List Text} (h : page.Rewrites world nested context ls after) :
    context.GrowsTo after := by
  induction h with
  | nil => exact .refl _
  | cons hp _ ih => exact (hp.growsTo hn).trans ih

/-! ### Squeezed pages -/

theorem Envelope.squeeze_eq (e : Envelope) (b : Bool) :
    Text.squeeze b e.lines = e.squeeze.lines := by
  have h := e.squeeze_lines b []
  simpa [Text.squeeze] using h

theorem Text.normalizeFront_visible {line : Text} (h : isBlankLine line = false)
    (more : List Text) : normalizeFront (line :: more) = squeeze false (line :: more) :=
  (squeeze_visible false more h).symm

theorem Envelope.normalizeFront_eq (e : Envelope) : Text.normalizeFront e.lines = e.squeeze.lines :=
  (Text.normalizeFront_visible e.opening_visible _).trans (e.squeeze_eq false)

theorem Envelope.squeeze_squeeze (e : Envelope) : e.squeeze.squeeze.lines = e.squeeze.lines := by
  rw [← e.squeeze.squeeze_eq false, ← e.squeeze_eq false, Text.squeeze_idem]

theorem Text.getLast?_ofLines {ls : List Text} (h : ∀ line ∈ ls, line.Unbroken) :
    (ofLines ls).getLast? ≠ some '\r' := by
  intro hl
  rcases mem_of_mem_joinWith (List.mem_of_getLast? hl) with hc | ⟨line, hm, hc⟩
  · exact absurd hc (by decide)
  · exact (h line hm).2 hc

theorem TagForm.getLast?_wrap (form : TagForm) (expression body : Text) :
    (form.wrap expression body).getLast? ≠ some '\r' := by
  cases form <;> simp [wrap, closeTag]

/-- A squeezed envelope is rendered to the same lines as the envelope, up to squeezing. -/
theorem Piece.Rewrites.render {e : Envelope} {ls : List Text} {context after : Context}
    (h : Rewrites world nested context (.envelope e) ls after) (number : Nat) :
    ∃ t, renderBlock world nested (Piece.block number (.envelope e.squeeze)) context = (t, after) ∧
      t.getLast? ≠ some '\r' ∧ (∀ b, Text.squeeze b (Text.rows t) = Text.squeeze b ls) ∧
      Text.normalizeFront (Text.rows t) = Text.normalizeFront ls := by
  have hexp : (e.squeeze.directive number).expression = e.expression := rfl
  cases h with
  | literal he =>
    have hl : (e.squeeze.directive number).isLiteral = true := by
      rw [Directive.isLiteral, hexp, he]
      rfl
    have hr : Text.rows (Text.ofLines e.squeeze.lines) = e.squeeze.lines :=
      Text.rows_ofLines_unbroken (List.cons_ne_nil _ _) e.squeeze.unbroken
    refine ⟨Text.ofLines e.squeeze.lines, renderDirective_literal hl,
      Text.getLast?_ofLines e.squeeze.unbroken, fun b => ?_, ?_⟩
    · rw [hr, e.squeeze.squeeze_eq, e.squeeze_eq, e.squeeze_squeeze]
    · rw [hr, e.squeeze.normalizeFront_eq, e.normalizeFront_eq, e.squeeze_squeeze]
  | discard he =>
    have hl : (e.squeeze.directive number).isLiteral = false := by
      rw [Directive.isLiteral, hexp, he]
      rfl
    have hd : (e.squeeze.directive number).isDiscard = true := by
      rw [Directive.isDiscard, hexp, he]
      rfl
    exact ⟨['\n'], renderDirective_discard hl hd, by decide, fun b => rfl, rfl⟩
  | @evaluated _ _ _ body hne hnd hg hr =>
    have hl : (e.squeeze.directive number).isLiteral = false := by
      rw [Directive.isLiteral, hexp]
      exact List.isEmpty_eq_false_iff.mpr hne
    have hd : (e.squeeze.directive number).isDiscard = false := by
      rw [Directive.isDiscard, hexp]
      exact beq_eq_false_iff_ne.mpr hnd
    refine ⟨e.form.wrap e.expression body, ?_, e.form.getLast?_wrap _ _, fun b => by rw [hr],
      by rw [hr]⟩
    refine (renderDirective_evaluated hl hd).trans ?_
    rw [hexp, hg]
    rfl

namespace Page.Rewrites

theorem append {context middle after : Context} {page page' : Page} {ls ls' : List Text}
    (h : Rewrites world nested context page ls middle)
    (h' : Rewrites world nested middle page' ls' after) :
    Rewrites world nested context (page ++ page') (ls ++ ls') after := by
  induction h with
  | nil => exact h'
  | cons hp _ ih =>
    rw [List.append_assoc]
    exact .cons hp (ih h')

/-- A squeezed page is rendered to the same lines as the page, up to squeezing. -/
theorem squeeze {context after : Context} {page : Page} {ls : List Text}
    (h : Rewrites world nested context page ls after) (b : Bool) (number : Nat) :
    ∃ ts, renderBlocks world nested ((page.squeeze b).blocks number) context = (ts, after) ∧
      Text.Sealed ts ∧ Text.squeeze b (ts.flatMap Text.rows) = Text.squeeze b ls := by
  induction h generalizing b number with
  | nil => exact ⟨[], rfl, Text.Sealed.nil, rfl⟩
  | @cons context middle after piece more ls ls' hp _ ih =>
    cases piece with
    | line t outside unbroken =>
      cases hp
      cases hb : Text.isBlankLine t with
      | true =>
        cases b with
        | true =>
          obtain ⟨ts, hr, hs, hq⟩ := ih true number
          refine ⟨ts, ?_, hs, ?_⟩
          · simp only [Page.squeeze, hb, ite_true]
            exact hr
          · rw [hq]
            exact (Text.squeeze_blank true ls' hb).symm
        | false =>
          obtain ⟨ts, hr, hs, hq⟩ := ih true (number + 1)
          refine ⟨[] :: ts, ?_, .cons (by decide) hs, ?_⟩
          · simp only [Page.squeeze, hb, ite_true]
            exact renderBlocks_cons_eq rfl hr
          · have hf : ([] :: ts).flatMap Text.rows = [] :: ts.flatMap Text.rows := rfl
            rw [hf, Text.squeeze_blank false _ Text.isBlankLine_nil, hq,
              ← Text.squeeze_blank false ls' hb]
            rfl
      | false =>
        obtain ⟨ts, hr, hs, hq⟩ := ih false (number + 1)
        refine ⟨t :: ts, ?_, .cons unbroken.getLast? hs, ?_⟩
        · simp only [Page.squeeze, hb]
          exact renderBlocks_cons_eq rfl hr
        · rw [List.flatMap_cons, unbroken.rows, List.singleton_append, List.singleton_append,
            Text.squeeze_visible b _ hb, Text.squeeze_visible b _ hb, hq]
    | envelope e =>
      obtain ⟨t, ht, hl, hsq, _⟩ := hp.render number
      obtain ⟨ts, hr, hs, hq⟩ := ih false (number + e.squeeze.lines.length)
      refine ⟨t :: ts, renderBlocks_cons_eq ht hr, .cons hl hs, ?_⟩
      rw [List.flatMap_cons, Text.squeeze_congr (hsq b), Text.squeeze_append,
        Text.squeeze_eq_of_false hq, ← Text.squeeze_append]

/-- A normalized page is rendered to the same lines as the page, up to normalization. -/
theorem normalize {context after : Context} {page : Page} {ls : List Text}
    (h : Rewrites world nested context page ls after) (number : Nat) :
    ∃ ts, renderBlocks world nested (page.normalize.blocks number) context = (ts, after) ∧
      Text.Sealed ts ∧ Text.normalizeFront (ts.flatMap Text.rows) = Text.normalizeFront ls := by
  cases h with
  | nil => exact ⟨[], rfl, Text.Sealed.nil, rfl⟩
  | @cons _ middle _ piece more ls ls' hp hm =>
    cases piece with
    | line t outside unbroken =>
      cases hp
      obtain ⟨ts, hr, hs, hq⟩ := hm.squeeze false (number + 1)
      refine ⟨t :: ts, renderBlocks_cons_eq rfl hr, .cons unbroken.getLast? hs, ?_⟩
      rw [List.flatMap_cons, unbroken.rows]
      exact congrArg (t :: ·) hq
    | envelope e =>
      obtain ⟨t, ht, hl, _, hn⟩ := hp.render number
      obtain ⟨ts, hr, hs, hq⟩ := hm.squeeze false (number + e.squeeze.lines.length)
      have hne : Text.rows t ≠ [] := Text.rows_ne_nil t
      refine ⟨t :: ts, renderBlocks_cons_eq ht hr, .cons hl hs, ?_⟩
      rw [List.flatMap_cons, Text.normalizeFront_append hne, Text.squeeze_eq_of_false hq,
        ← Text.normalizeFront_append hne, Text.normalizeFront_congr hn hne]

end Page.Rewrites

end MarkdownDirectives
