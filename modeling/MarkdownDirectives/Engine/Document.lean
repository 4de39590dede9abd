import MarkdownDirectives.Engine.Evaluation
import MarkdownDirectives.Text.LineBreaks

/-!
# Parsing documents

A document is normalized and split; each envelope that is neither literal nor discarded gets a new
body from its expression, or a diagnostic comment if that fails; and the parts are joined and
normalized again. The document itself ends in a footer, a nested text does not.

Nested parses are counted: at the greatest depth a further one fails. The parse of a text takes how
many levels are left below it, so the recursion ends whatever files and properties ask for.
-/

namespace MarkdownDirectives

section

variable (world : World) (nested : Text → Eval Text)

def outcomeBody : Except Error Value → Text
  | .ok value => '\n' :: value.format ++ ['\n']
  | .error e => Diagnostic.body e.message

def generatedBody (expression : Text) : StateM Context Text := do
  return outcomeBody (← (evaluateText world nested expression).run)

def renderDirective (d : Directive) : StateM Context Text := do
  if d.isLiteral then return d.source
  else if d.isDiscard then return ['\n']
  else return d.form.wrap d.expression (← generatedBody world nested d.expression)

def renderFragment : Fragment → StateM Context Text
  | .text t => return t
  | .directive d => renderDirective world nested d

def renderFragments : List Fragment → StateM Context Text
  | [] => return []
  | fragment :: more => do
    let first ← renderFragment world nested fragment
    let rest ← renderFragments more
    return first ++ rest

/-- Processes a text, with the footer if it is a whole document. -/
def render (source : Text) (isDocument : Bool) : Eval Text := do
  match split (← get).options.unterminated (Text.normalizeLineBreaks source) with
  | .error e => throw e
  | .ok fragments =>
    let output ← renderFragments world nested fragments
    -- the footer lists the links that the directives have left
    let context ← get
    let ending := if isDocument then context.footer world else []
    return Text.normalizeLineBreaks (output ++ ending)

/-! ### Rendering at a context -/

variable {world nested} {d : Directive} {context : Context}

theorem renderDirective_literal (hl : d.isLiteral = true) :
    renderDirective world nested d context = (d.source, context) := by
  simp only [renderDirective, hl, ite_true]
  rfl

theorem renderDirective_discard (hl : d.isLiteral = false) (hd : d.isDiscard = true) :
    renderDirective world nested d context = (['\n'], context) := by
  simp only [renderDirective, hl, hd, ite_true]
  rfl

theorem renderDirective_evaluated (hl : d.isLiteral = false) (hd : d.isDiscard = false) :
    renderDirective world nested d context =
      (d.form.wrap d.expression (generatedBody world nested d.expression context).1,
        (generatedBody world nested d.expression context).2) := by
  simp only [renderDirective, hl, hd]
  rfl

theorem renderFragments_cons (fragment : Fragment) (more : List Fragment) :
    renderFragments world nested (fragment :: more) context =
      let first := renderFragment world nested fragment context
      let rest := renderFragments world nested more first.2
      (first.1 ++ rest.1, rest.2) := rfl

theorem render_of_error {source : Text} {isDocument : Bool} {e : Error}
    (h : split context.options.unterminated (Text.normalizeLineBreaks source) = .error e) :
    render world nested source isDocument context = (.error e, context) := by
  change (match split context.options.unterminated (Text.normalizeLineBreaks source) with
    | .error e => (throw e : Eval Text)
    | .ok fragments => _) context = _
  rw [h]
  rfl

theorem render_of_ok {source : Text} {isDocument : Bool} {fragments : List Fragment}
    (h : split context.options.unterminated (Text.normalizeLineBreaks source) = .ok fragments) :
    render world nested source isDocument context =
      let output := renderFragments world nested fragments context
      let ending := if isDocument then output.2.footer world else []
      (.ok (Text.normalizeLineBreaks (output.1 ++ ending)), output.2) := by
  change (match split context.options.unterminated (Text.normalizeLineBreaks source) with
    | .error e => (throw e : Eval Text)
    | .ok fragments => _) context = _
  rw [h]
  rfl

end

/-- Processes a nested text with `levels` levels left. -/
def parseNested (world : World) : (levels : Nat) → Text → Eval Text
  | 0, _ => do throw (.recursionLimit (← get).options.maxDepth)
  | levels + 1, source =>
    Eval.within (fun c => { c with depth := c.depth + 1 })
      (fun c => { c with depth := c.depth - 1 })
      (render world (parseNested world levels) source false)

/-- How many levels of nesting a context leaves. -/
def Context.levels (context : Context) : Nat := context.options.maxDepth - context.depth

/-- Processes a nested text at the depth of the context. -/
def parsePart (world : World) (source : Text) : Eval Text := fun context =>
  parseNested world context.levels source context

def parse (world : World) (source : Text) : Eval Text := fun context =>
  render world (parseNested world context.levels) source true context

end MarkdownDirectives
