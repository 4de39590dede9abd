import MarkdownDirectives.Engine.Context
import MarkdownDirectives.Directive.Diagnostic
import MarkdownDirectives.Expression.Parser

/-!
# Evaluation

An expression is evaluated against a context: property paths look into its properties, and
operations use its links, files and clock. How a nested text is parsed is left open here; evaluation
is structural in the expression, and the nesting is bounded where texts are parsed.
-/

namespace MarkdownDirectives

/-! ### Properties -/

/-- The part of a value that a segment selects; `target` names the value in the error. -/
def Value.select (target : Text) : Value → Segment → Except Error Value
  | .object fields, .key key => orMissing key (Fields.get? key fields)
  | .object fields, .index position =>
    orMissing (Text.ofNat position) (Fields.get? (Text.ofNat position) fields)
  | .array items, .index position => orMissing (Text.ofNat position) items[position]?
  | .string t, .index position =>
    orMissing (Text.ofNat position) (t[position]?.map fun c => .string [c])
  | .array items, .key key =>
    orMissing key (if key = "length".toList then some (.ofNat items.length) else none)
  | .string t, .key key =>
    orMissing key (if key = "length".toList then some (.ofNat t.length) else none)
  | _, .key key => orMissing key none
  | _, .index position => orMissing (Text.ofNat position) none
where
  orMissing (property : Text) : Option Value → Except Error Value
    | some value => .ok value
    | none => .error (.undefinedProperty property target)

namespace PropertyPath

/-- Follows the steps after the head of a path; `walked` is the path so far. -/
def follow (walked : Text) (value : Value) : List Segment → Except Error Value
  | [] => .ok value
  | segment :: more =>
    match value.select walked segment with
    | .ok part => follow (walked ++ showStep segment) part more
    | .error e => .error e

def contextName : Text := "the context".toList

def lookup (context : Context) : PropertyPath → Except Error Value
  | .key head :: more =>
    match context.property? head with
    | some value => follow head value more
    | none => .error (.undefinedProperty head contextName)
  | path => .error (.undefinedProperty path.shown contextName)

end PropertyPath

/-! ### Operators -/

namespace Value

/-- The segment that a computed index selects: a whole number that is not negative selects a
position, at most `2 ^ 64 - 1`, and any other value the key it is displayed as. -/
def toSegment : Value → Segment
  | .number n =>
    let x := n.toBinary64
    if (!x.negative || x.isZero) && x.isWhole then .index (min x.wholePart (Nat.pow 2 64 - 1))
    else .key (Value.number n).display
  | value => .key value.display

/-- The sum of two numbers if it is finite, and else the texts of both values joined. -/
def add (left right : Value) : Value :=
  match left, right with
  | .number a, .number b =>
    match a.toBinary64.add b.toBinary64 with
    | some sum => .ofFloat sum
    | none => .string (left.display ++ right.display)
  | _, _ => .string (left.display ++ right.display)

/-- The text of an operation's argument; whatever is no string reads as the empty text. -/
def text : Value → Text
  | .string t => t
  | _ => []

end Value

/-! ### Operations -/

inductive Operation where
  | format
  | resolve
  | naming
  | reference
  | existence
  | inclusion
  | nesting
  | timestamp
  | links
  | exception
  deriving DecidableEq, Repr

namespace Operation

def all : List Operation :=
  [format, resolve, naming, reference, existence, inclusion, nesting, timestamp, links, exception]

def name : Operation → Text
  | format => "format".toList
  | resolve => "resolve".toList
  | naming => "alias".toList
  | reference => "ref".toList
  | existence => "exists".toList
  | inclusion => "include".toList
  | nesting => "parse".toList
  | timestamp => "timestamp".toList
  | links => "links".toList
  | exception => "exception".toList

def ofName? (n : Text) : Option Operation := all.find? (·.name == n)

def arity : Operation → Nat × Nat
  | naming => (1, 2)
  | timestamp => (0, 0)
  | links => (0, 0)
  | exception => (0, 1)
  | _ => (1, 1)

def expected (op : Operation) : Text :=
  let (least, greatest) := op.arity
  if least = greatest then Text.ofNat least
  else Text.ofNat least ++ " to ".toList ++ Text.ofNat greatest

def accepts (op : Operation) (count : Nat) : Bool := op.arity.1 ≤ count && count ≤ op.arity.2

end Operation

def aliasStem (reference : Text) : Option Value → Except Error Text
  | none => .ok Alias.defaultStem
  | some .null => .ok Alias.defaultStem
  | some (.string stem) => .ok stem
  | some other => .error (.invalidStem reference other.display)

section

variable (world : World) (nested : Text → Eval Text)

def requestAlias (reference stem : Text) : Eval Text := fun context =>
  let (result, links) := context.links.giveAlias reference stem
  (result, { context with links := links })

/-- The text of a file; a text with directives is parsed first. A file that is being included
already is not parsed again inside itself. -/
def includeFile (reference : Text) : Eval Text := do
  let context ← get
  match context.resolve? world reference with
  | none => throw (.unresolved reference)
  | some path =>
    if context.includes.contains path then throw (.includeCycle reference)
    else
      match world.read path with
      | .error e => throw (.file e)
      | .ok content =>
        if hasDirectives content then
          Eval.within (fun c => { c with includes := path :: c.includes })
            (fun c => { c with includes := c.includes.tail }) (nested content)
        else return (Value.string content).format

/-- Performs an operation on arguments whose number is right; a missing one counts as null. -/
def perform (op : Operation) (arguments : List Value) : Eval Value := do
  let first := arguments.headD .null
  match op with
  | .format => return .string first.format
  | .resolve => return (← get).resolve world first.text
  | .naming =>
    if first.text.trim.isEmpty then throw (.blankReference first.display)
    else
      match aliasStem first.text arguments[1]? with
      | .error e => throw e
      | .ok stem => return .string (← requestAlias first.text stem)
  | .reference =>
    match (← get).links.reference first.text with
    | .ok reference => return .string reference
    | .error e => throw e
  | .existence => return .string ((← get).existing world first.text)
  | .inclusion => return .string (← includeFile world nested first.text)
  | .nesting => return .string (← nested first.display)
  | .timestamp => return .string ((← get).timestamp world)
  | .links => return .string (← get).links.render
  | .exception =>
    let message :=
      match arguments with
      | [] => []
      | message :: _ => message.display
    return .string (Diagnostic.body message)

def invoke (name : Text) (arguments : List Value) : Eval Value :=
  match Operation.ofName? name with
  | none => throw (.unknownOperation name)
  | some op =>
    if op.accepts arguments.length then perform world nested op arguments
    else throw (.invalidArguments name op.expected arguments.length)

/-! ### Expressions -/

def renderTemplate (context : Context) : List TemplatePart → Except Error Text
  | [] => .ok []
  | .text t :: more => (renderTemplate context more).map (t ++ ·)
  | .interpolation path :: more =>
    match path.lookup context with
    | .ok value => (renderTemplate context more).map (value.format ++ ·)
    | .error e => .error e

mutual

def evaluate : Expression → Eval Value
  | .literal value => return value
  | .template parts => do
    match renderTemplate (← get) parts with
    | .ok t => return .string t
    | .error e => throw e
  | .property path => do
    match path.lookup (← get) with
    | .ok value => return value
    | .error e => throw e
  | .this => return (← get).snapshot
  | .identifier name => throw (.undefinedIdentifier name)
  | .operation name =>
    match Operation.ofName? name with
    | some _ => throw (.uncalledOperation name)
    | none => throw (.unknownOperation name)
  | .call name arguments => do invoke world nested name (← evaluateAll arguments)
  | .member object name => do
    let value ← evaluate object
    match value.select value.kind (.key name) with
    | .ok part => return part
    | .error e => throw e
  | .index object position => do
    let value ← evaluate object
    let position ← evaluate position
    match value.select value.kind position.toSegment with
    | .ok part => return part
    | .error e => throw e
  | .not e => return .bool !(← evaluate e).isTruthy
  | .binary .add left right => do
    let left ← evaluate left
    let right ← evaluate right
    return left.add right
  | .binary .or left right => do
    let value ← evaluate left
    if value.isTruthy then return value else evaluate right
  | .binary .and left right => do
    let value ← evaluate left
    if value.isTruthy then evaluate right else return value

def evaluateAll : List Expression → Eval (List Value)
  | [] => return []
  | e :: more => do
    let value ← evaluate e
    let values ← evaluateAll more
    return value :: values

end

def evaluateText (t : Text) : Eval Value :=
  match Expression.parse t with
  | .ok e => evaluate world nested e
  | .error e => throw e

end

end MarkdownDirectives
