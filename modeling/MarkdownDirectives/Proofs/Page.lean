import MarkdownDirectives.Proofs.Reading

/-!
# Pages

A page lists what the lines of a text are: lines outside of envelopes, and envelopes whose own tags
balance. The lines of a page are read as the blocks that the page lists, since the search for a
closing tag passes over balanced lines. Squeezing the lines of a page squeezes the page, as tag
lines are never blank; so a page can be followed through the normalization of its text.
-/

namespace MarkdownDirectives

/-- An envelope in lines. -/
structure Envelope where
  form : TagForm
  expression : Text
  opening : Text
  body : List Text
  closing : Text
  opens : openingTag? opening = some (form, expression)
  balanced : form.Balanced body
  closes : form.closes closing = true
  unbroken : ∀ line ∈ opening :: (body ++ [closing]), line.Unbroken

namespace Envelope

def lines (e : Envelope) : List Text := e.opening :: (e.body ++ [e.closing])

def squeeze (e : Envelope) : Envelope :=
  { e with
    body := Text.squeeze false e.body
    balanced := (TagForm.openAfter_squeeze false 0 e.body).trans e.balanced
    unbroken := fun line hl => by
      have hu := e.unbroken
      simp only [List.mem_cons, List.mem_append] at hl hu
      rcases hl with hl | hl | hl
      · exact hu line (.inl hl)
      · rcases Text.mem_of_mem_squeeze hl with rfl | hl
        · exact Text.Unbroken.nil
        · exact hu line (.inr (.inl hl))
      · exact hu line (.inr (.inr hl)) }

theorem unbroken_tags (form : TagForm) {expression : Text} (h : expression.Unbroken) :
    (form.openTag expression).Unbroken ∧ form.closeTag.Unbroken := by
  have hmarks : (form.openTag []).Unbroken := by cases form <;> decide
  have hclose : form.closeTag.Unbroken := by cases form <;> decide
  exact ⟨⟨TagForm.not_mem_openTag hmarks.1 h.1, TagForm.not_mem_openTag hmarks.2 h.2⟩, hclose⟩

/-- The envelope that is written for an expression and the lines of a body. -/
def written (form : TagForm) (expression : Text) (body : List Text)
    (trimmed : Text.trimWhile Text.isSpace expression = expression)
    (unbroken : expression.Unbroken) (balanced : form.Balanced body)
    (unbrokenBody : ∀ line ∈ body, line.Unbroken) : Envelope where
  form := form
  expression := expression
  opening := form.openTag expression
  body := body
  closing := form.closeTag
  opens := openingTag?_openTag form trimmed
  balanced := balanced
  closes := TagForm.closes_closeTag form
  unbroken := by
    have ht := unbroken_tags form unbroken
    intro line hl
    rcases List.mem_cons.mp hl with rfl | hl
    · exact ht.1
    · rcases List.mem_append.mp hl with hl | hl
      · exact unbrokenBody line hl
      · exact List.mem_singleton.mp hl ▸ ht.2

/-- The envelope as it is found on the line `number`. -/
def directive (e : Envelope) (number : Nat) : Directive :=
  Directive.ofLines e.form e.expression number e.opening e.body e.closing

theorem opening_visible (e : Envelope) : Text.isBlankLine e.opening = false :=
  not_isBlankLine_of_openingTag? e.opens

theorem closing_visible (e : Envelope) : Text.isBlankLine e.closing = false :=
  TagForm.not_isBlankLine_of_closes e.closes

theorem squeeze_lines (e : Envelope) (b : Bool) (more : List Text) :
    Text.squeeze b (e.lines ++ more) = e.squeeze.lines ++ Text.squeeze false more := by
  simp only [lines, squeeze, List.cons_append, List.append_assoc, List.nil_append]
  rw [Text.squeeze_visible b _ e.opening_visible, Text.squeeze_append,
    Text.squeeze_visible _ _ e.closing_visible]

end Envelope

inductive Piece where
  | line (t : Text) (outside : openingTag? t = none) (unbroken : t.Unbroken)
  | envelope (e : Envelope)

namespace Piece

def lines : Piece → List Text
  | line t _ _ => [t]
  | envelope e => e.lines

def block (number : Nat) : Piece → Block
  | line t _ _ => .line t
  | envelope e => .directive (e.directive number)

/-- An empty line. -/
def blank : Piece := line [] rfl Text.Unbroken.nil

end Piece

abbrev Page := List Piece

namespace Page

def lines (page : Page) : List Text := page.flatMap Piece.lines

/-- What the page lists, found from the line `number` on. -/
def blocks : Nat → Page → List Block
  | _, [] => []
  | number, piece :: more => piece.block number :: blocks (number + piece.lines.length) more

/-- The page with runs of blank lines squeezed. -/
def squeeze : Bool → Page → Page
  | _, [] => []
  | afterBlank, .line t outside unbroken :: more =>
    if Text.isBlankLine t then
      if afterBlank then squeeze true more else .blank :: squeeze true more
    else .line t outside unbroken :: squeeze false more
  | _, .envelope e :: more => .envelope e.squeeze :: squeeze false more

/-- The page with its first line as it is and the others squeezed. -/
def normalize : Page → Page
  | .line t outside unbroken :: more => .line t outside unbroken :: squeeze false more
  | page => squeeze false page

theorem lines_squeeze (b : Bool) (page : Page) :
    (page.squeeze b).lines = Text.squeeze b page.lines := by
  fun_induction squeeze b page with
  | case1 => rfl
  | case2 t outside unbroken more hb ih =>
    exact ih.trans (Text.squeeze_blank true _ hb).symm
  | case3 b t outside unbroken more hb hn ih =>
    cases b with
    | true => exact absurd rfl hn
    | false => exact (congrArg ([] :: ·) ih).trans (Text.squeeze_blank false _ hb).symm
  | case4 b t outside unbroken more hb ih =>
    have hv : Text.isBlankLine t = false := by simpa using hb
    exact (congrArg (t :: ·) ih).trans (Text.squeeze_visible b _ hv).symm
  | case5 b e more ih =>
    have he : lines (.envelope e :: more) = e.lines ++ lines more := rfl
    rw [he, e.squeeze_lines, ← ih]
    rfl

theorem lines_normalize (page : Page) : page.normalize.lines = Text.normalizeFront page.lines := by
  cases page with
  | nil => rfl
  | cons piece more =>
    cases piece with
    | line t outside unbroken => exact congrArg (t :: ·) (lines_squeeze false more)
    | envelope e =>
      refine (lines_squeeze false _).trans ?_
      exact Text.squeeze_visible false _ e.opening_visible

end Page

/-! ### Reading a page -/

/-- The lines of a page are read as what the page lists, whatever comes after them. -/
theorem Page.readsBefore (page : Page) (rest : List Text) (number : Nat) :
    ReadsBefore rest number page.lines (page.blocks number) := by
  induction page generalizing number with
  | nil => exact .nil
  | cons piece more ih =>
    cases piece with
    | line t outside unbroken => exact .line outside (ih _)
    | envelope e =>
      have hl : Page.lines (.envelope e :: more) =
          e.opening :: (e.body ++ e.closing :: Page.lines more) := by
        simp [Page.lines, Piece.lines, Envelope.lines]
      have hn : number + e.body.length + 2 = number + e.lines.length := by
        simp only [Envelope.lines, List.length_cons, List.length_append, List.length_nil]
        omega
      have hc := TagForm.closingLine?_append e.closes (Page.lines more ++ rest) e.balanced
      rw [hl]
      exact .closed e.opens e.closes hc (hn ▸ ih _)

theorem blockLines_page (mode : Unterminated) (number : Nat) (page : Page) :
    blockLines mode number 0 page.lines = .ok (page.blocks number) :=
  (page.readsBefore [] number).blockLines_eq mode

end MarkdownDirectives
