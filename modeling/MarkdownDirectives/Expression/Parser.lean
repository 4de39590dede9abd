import MarkdownDirectives.Expression.Token
import MarkdownDirectives.Expression.Tree

/-!
# Parsing expressions

From loosest to tightest bind `||`, `&&`, `+`, `!`, and the steps `.name` and `[index]`; the binary
operators associate to the left. A fault names the first token that cannot continue an expression,
or the end of the text.
-/

namespace MarkdownDirectives

namespace Expression

abbrev Parsed := Expression × List PlacedToken

/-- The expression of a token that is one by itself, if it is. -/
def ofName (name : Text) : Expression :=
  if name = "this".toList then .this
  else if name = "true".toList then .literal (.bool true)
  else if name = "false".toList then .literal (.bool false)
  else if name = "null".toList then .literal .null
  else .identifier name

def expect (stop : Nat) (expected : Token) : List PlacedToken → Except Fault (List PlacedToken)
  | [] =>
    .error ⟨stop, "expected ".toList ++ inBackticks expected.shown ++
      " before the end of the expression".toList⟩
  | ⟨token, offset⟩ :: more =>
    if token = expected then .ok more
    else .error ⟨offset, "expected ".toList ++ inBackticks expected.shown ++ ", found ".toList ++
      inBackticks token.shown⟩

def nextOffset (stop : Nat) : List PlacedToken → Nat
  | [] => stop
  | token :: _ => token.offset

def noPropertyName (offset : Nat) : Fault := ⟨offset, "expected a property name after `.`".toList⟩

mutual

/-- Reads operands of `||`. The text ends at `stop`, and `fuel` bounds the number of steps. -/
def readOr (stop : Nat) : Nat → List PlacedToken → Except Fault Parsed
  | 0, _ => .error ⟨stop, []⟩
  | fuel + 1, tokens => do
    let (left, tokens) ← readAnd stop fuel tokens
    readOrMore stop fuel left tokens

def readOrMore (stop : Nat) : Nat → Expression → List PlacedToken → Except Fault Parsed
  | 0, _, _ => .error ⟨stop, []⟩
  | fuel + 1, left, ⟨.or, _⟩ :: tokens => do
    let (right, tokens) ← readAnd stop fuel tokens
    readOrMore stop fuel (.binary .or left right) tokens
  | _ + 1, left, tokens => .ok (left, tokens)

def readAnd (stop : Nat) : Nat → List PlacedToken → Except Fault Parsed
  | 0, _ => .error ⟨stop, []⟩
  | fuel + 1, tokens => do
    let (left, tokens) ← readSum stop fuel tokens
    readAndMore stop fuel left tokens

def readAndMore (stop : Nat) : Nat → Expression → List PlacedToken → Except Fault Parsed
  | 0, _, _ => .error ⟨stop, []⟩
  | fuel + 1, left, ⟨.and, _⟩ :: tokens => do
    let (right, tokens) ← readSum stop fuel tokens
    readAndMore stop fuel (.binary .and left right) tokens
  | _ + 1, left, tokens => .ok (left, tokens)

def readSum (stop : Nat) : Nat → List PlacedToken → Except Fault Parsed
  | 0, _ => .error ⟨stop, []⟩
  | fuel + 1, tokens => do
    let (left, tokens) ← readUnary stop fuel tokens
    readSumMore stop fuel left tokens

def readSumMore (stop : Nat) : Nat → Expression → List PlacedToken → Except Fault Parsed
  | 0, _, _ => .error ⟨stop, []⟩
  | fuel + 1, left, ⟨.plus, _⟩ :: tokens => do
    let (right, tokens) ← readUnary stop fuel tokens
    readSumMore stop fuel (.binary .add left right) tokens
  | _ + 1, left, tokens => .ok (left, tokens)

def readUnary (stop : Nat) : Nat → List PlacedToken → Except Fault Parsed
  | 0, _ => .error ⟨stop, []⟩
  | fuel + 1, ⟨.bang, _⟩ :: tokens => do
    let (inner, tokens) ← readUnary stop fuel tokens
    .ok (.not inner, tokens)
  | fuel + 1, tokens => do
    let (object, tokens) ← readPrimary stop fuel tokens
    readSteps stop fuel object tokens

def readSteps (stop : Nat) : Nat → Expression → List PlacedToken → Except Fault Parsed
  | 0, _, _ => .error ⟨stop, []⟩
  | fuel + 1, object, ⟨.dot, _⟩ :: tokens =>
    match tokens with
    | ⟨.identifier name, _⟩ :: tokens => readSteps stop fuel (.member object name) tokens
    | [] => .error (noPropertyName stop)
    -- the token that is no name has been taken, so the place is that of the one after it
    | _ :: tokens => .error (noPropertyName (nextOffset stop tokens))
  | fuel + 1, object, ⟨.bracketOpen, _⟩ :: tokens => do
    let (position, tokens) ← readOr stop fuel tokens
    let tokens ← expect stop .bracketClose tokens
    readSteps stop fuel (.index object position) tokens
  | _ + 1, object, tokens => .ok (object, tokens)

def readPrimary (stop : Nat) : Nat → List PlacedToken → Except Fault Parsed
  | 0, _ => .error ⟨stop, []⟩
  | _ + 1, [] => .error ⟨stop, "unexpected end of the expression".toList⟩
  | fuel + 1, ⟨token, offset⟩ :: tokens =>
    match token with
    | .number none => .ok (.literal .null, tokens)
    | .number (some x) => .ok (.literal (Value.ofFloat x), tokens)
    | .string value _ => .ok (.literal (.string value), tokens)
    | .template inside =>
      match TemplatePart.parse? inside with
      | some parts => .ok (.template parts, tokens)
      | none => .error ⟨offset, "invalid template string".toList⟩
    | .property path =>
      match PropertyPath.parse? path with
      | some path => .ok (.property path, tokens)
      | none => .error ⟨offset, "invalid property path ".toList ++ inBackticks path.trim⟩
    | .operation name =>
      match tokens with
      | ⟨.parenOpen, _⟩ :: ⟨.parenClose, _⟩ :: tokens => .ok (.call name [], tokens)
      | ⟨.parenOpen, _⟩ :: tokens => do
        let (arguments, tokens) ← readArguments stop fuel tokens
        .ok (.call name arguments, tokens)
      | _ => .ok (.operation name, tokens)
    | .identifier name => .ok (ofName name, tokens)
    | .parenOpen => do
      let (inner, tokens) ← readOr stop fuel tokens
      let tokens ← expect stop .parenClose tokens
      .ok (inner, tokens)
    | other => .error ⟨offset, "unexpected ".toList ++ inBackticks other.shown⟩

def readArguments (stop : Nat) :
    Nat → List PlacedToken → Except Fault (List Expression × List PlacedToken)
  | 0, _ => .error ⟨stop, []⟩
  | fuel + 1, tokens => do
    let (first, tokens) ← readOr stop fuel tokens
    match tokens with
    | ⟨.comma, _⟩ :: tokens => do
      let (more, tokens) ← readArguments stop fuel tokens
      .ok (first :: more, tokens)
    | tokens => do
      let tokens ← expect stop .parenClose tokens
      .ok ([first], tokens)

end

/-- The expression that a whole token list writes. Every token is reached within eight steps of the
one before it. -/
def ofTokens (stop : Nat) (tokens : List PlacedToken) : Except Fault Expression := do
  let (expression, rest) ← readOr stop (8 * tokens.length + 8) tokens
  match rest with
  | [] => .ok expression
  | ⟨token, offset⟩ :: _ => .error ⟨offset, "unexpected ".toList ++ inBackticks token.shown⟩

def parse (t : Text) : Except Error Expression :=
  match (Token.tokenize t).bind (ofTokens t.byteLength) with
  | .ok expression => .ok expression
  | .error fault => .error (.malformedExpression t fault.offset fault.reason)

end Expression

end MarkdownDirectives
