import MarkdownDirectives.Directive.Tag
import MarkdownDirectives.Error

/-!
# Fragments

A text splits into literal texts and directive envelopes, in order. An envelope runs from an opening
tag line to the closing tag line of the same form that balances it; tags of the other form never
matter. Where the tags never balance, the first closing tag ends the envelope. An envelope without
any closing tag takes the rest of the text or, in strict mode, is an error.
-/

namespace MarkdownDirectives

structure Directive where
  /-- The envelope as written, from its opening tag to the end of its closing tag line. -/
  source : Text
  expression : Text
  /-- What stands between the two tag lines, the line feed after the opening tag included. -/
  body : Text
  form : TagForm
  line : Nat
  isTerminated : Bool
  deriving DecidableEq, Repr

namespace Directive

def isDiscard (d : Directive) : Bool := d.expression == discardMark

/-- An envelope without an expression is literal text. -/
def isLiteral (d : Directive) : Bool := d.expression.isEmpty

end Directive

inductive Fragment where
  | text (t : Text)
  | directive (d : Directive)
  deriving DecidableEq, Repr

namespace Fragment

def source : Fragment → Text
  | text t => t
  | directive d => d.source

def isTerminatedDirective : Fragment → Bool
  | text _ => false
  | directive d => d.isTerminated

/-- Puts a text in front, joining it with a text that stands first. -/
def consText (t : Text) : List Fragment → List Fragment
  | text u :: more => text (t ++ u) :: more
  | fragments => if t.isEmpty then fragments else text t :: fragments

end Fragment

inductive Unterminated where
  | absorb
  | reject
  deriving DecidableEq, Repr

/-! ### Matching tags -/

/-- The first closing line of the form at which the tags seen so far, `depth` of them still open,
balance. -/
def balancedClose? (form : TagForm) : Nat → List Text → Option Nat
  | _, [] => none
  | depth, line :: more =>
    if form.closes line then
      match depth with
      | 0 => some 0
      | depth + 1 => (balancedClose? form depth more).map (· + 1)
    else if form.opens line then (balancedClose? form (depth + 1) more).map (· + 1)
    else (balancedClose? form depth more).map (· + 1)

/-- The closing line of an envelope, counted from the line after its opening tag: the balancing one,
or else the first one. -/
def closingLine? (form : TagForm) (lines : List Text) : Option Nat :=
  (balancedClose? form 0 lines).or (lines.findIdx? form.closes)

/-! ### Splitting -/

def lineEnd (more : List Text) : Text := if more.isEmpty then [] else ['\n']

def terminateLines (lines : List Text) : Text := lines.flatMap (· ++ ['\n'])

/-- The envelope that the line `opening` opens and the line `count` lines further on closes. -/
def envelope (form : TagForm) (expression opening : Text) (number : Nat) (more : List Text)
    (count : Nat) : Directive :=
  let body := '\n' :: terminateLines (more.take count)
  { source := opening ++ body ++ (more.drop count).headD []
    expression := expression
    body := body
    form := form
    line := number
    isTerminated := true }

def openEnvelope (form : TagForm) (expression opening : Text) (number : Nat) (more : List Text) :
    Directive :=
  let body := lineEnd more ++ Text.ofLines more
  { source := opening ++ body
    expression := expression
    body := body
    form := form
    line := number
    isTerminated := false }

/-- Splits the lines from the line `number` on, after passing over `skip` lines that belong to an
envelope. -/
def splitLines (mode : Unterminated) : (number skip : Nat) → List Text →
    Except Error (List Fragment)
  | _, _, [] => .ok []
  | number, skip + 1, _ :: more =>
    match skip with
    -- the closing line is passed, and its line feed is text again
    | 0 => (splitLines mode (number + 1) 0 more).map (Fragment.consText (lineEnd more))
    | skip + 1 => splitLines mode (number + 1) (skip + 1) more
  | number, 0, line :: more =>
    match openingTag? line with
    | none =>
      (splitLines mode (number + 1) 0 more).map (Fragment.consText (line ++ lineEnd more))
    | some (form, expression) =>
      match closingLine? form more with
      | some count =>
        (splitLines mode (number + 1) (count + 1) more).map
          (.directive (envelope form expression line number more count) :: ·)
      | none =>
        match mode with
        | .reject => .error (.unterminatedDirective expression number)
        | .absorb => .ok [.directive (openEnvelope form expression line number more)]

def split (mode : Unterminated) (t : Text) : Except Error (List Fragment) :=
  splitLines mode 1 0 t.lines

def hasDirectives (t : Text) : Bool :=
  match split .absorb t with
  | .ok fragments => fragments.any Fragment.isTerminatedDirective
  | .error _ => false

end MarkdownDirectives
