import MarkdownDirectives.Yaml.Token

/-!
# YAML events

The nodes of a document in the order in which they begin, the end of each collection being marked.
An alias stands for the node that has its anchor. Anchors are numbered by how many names there were
before; a name that is given again takes a new number, and the last node with a number is the one
that its aliases stand for.
-/

namespace MarkdownDirectives.Yaml

inductive Event where
  | reference (anchor : Nat)
  | scalar (tag : Option Text) (isPlain : Bool) (t : Text)
  | sequenceStart (tag : Option Text)
  | sequenceEnd
  | mappingStart (tag : Option Text)
  | mappingEnd
  deriving Inhabited

structure Document where
  events : Array Event := #[]
  names : List (Text × Nat) := []
  /-- The numbers with the positions of their nodes, last one first. -/
  anchors : List (Nat × Nat) := []
  /-- What the handles of tags stand for. -/
  handles : List (Text × Text) := [(['!'], ['!']), (['!', '!'], "tag:yaml.org,2002:".toList)]

namespace Document

def add (document : Document) (event : Event) : Document :=
  { document with events := document.events.push event }

def addEmpty (document : Document) : Document := document.add (.scalar none true [])

def mark (document : Document) : Option Text → Document
  | none => document
  | some name =>
    let number := document.names.length
    { document with
      names := (name, number) :: document.names.filter (·.1 != name)
      anchors := (number, document.events.size) :: document.anchors }

def lookup {α : Type} (key : Text) (pairs : List (Text × α)) : Option α :=
  (pairs.find? (·.1 == key)).map (·.2)

/-- The text of a tag; none if its handle stands for nothing. -/
def resolveTag (document : Document) (tag : Tag) : Option Text :=
  if tag.handle.isEmpty then some tag.suffix
  else (lookup tag.handle document.handles).map (· ++ tag.suffix)

end Document

/-! ### Node properties -/

/-- The anchor and the tag of a node, which come in either order, and the tokens after them. -/
def properties : List Token → Option Text × Option Tag × List Token
  | .anchor name :: .tag tag :: rest => (some name, some tag, rest)
  | .tag tag :: .anchor name :: rest => (some name, some tag, rest)
  | .anchor name :: rest => (some name, none, rest)
  | .tag tag :: rest => (none, some tag, rest)
  | tokens => (none, none, tokens)

def endsBlockEntry : Token → Bool
  | .blockEntry | .blockEnd => true
  | _ => false

def endsBlockPart : Token → Bool
  | .key | .value | .blockEnd => true
  | _ => false

def endsFlowItem (close : Token) : Token → Bool
  | .flowEntry => true
  | .flowSequenceEnd => (close matches .flowSequenceEnd)
  | .flowMappingEnd => (close matches .flowMappingEnd)
  | _ => false

def startsWith (p : Token → Bool) (tokens : List Token) : Bool :=
  match tokens with
  | token :: _ => p token
  | [] => false

/-! ### Nodes -/

abbrev Built := Document × List Token

def bareNode (anchor tag : Option Text) (document : Document) (tokens : List Token) :
    Option Built :=
  if anchor.isSome || tag.isSome then some (document.add (.scalar tag true []), tokens) else none

mutual

/-- Builds the node at the front. Block collections are allowed only in block context, and a
sequence at the indentation of its key only as a part of a mapping. -/
def node (isBlock isPart : Bool) : (fuel : Nat) → Document → List Token → Option Built
  | 0, _, _ => none
  | _ + 1, document, .reference name :: rest =>
    (Document.lookup name document.names).map fun number => (document.add (.reference number), rest)
  | fuel + 1, document, tokens => do
    let (anchor, tag, tokens) := properties tokens
    let tag ← match tag with | some tag => (document.resolveTag tag).map some | none => some none
    let document := document.mark anchor
    match tokens with
    | .scalar isPlain t :: rest =>
      some (document.add (.scalar (if tag == some ['!'] then none else tag) isPlain t), rest)
    | .flowSequenceStart :: rest => flowSequence true fuel (document.add (.sequenceStart tag)) rest
    | .flowMappingStart :: rest => flowMapping true fuel (document.add (.mappingStart tag)) rest
    | .blockSequenceStart :: rest =>
      if isBlock then blockSequence fuel (document.add (.sequenceStart tag)) rest
      else bareNode anchor tag document tokens
    | .blockMappingStart :: rest =>
      if isBlock then blockMapping fuel (document.add (.mappingStart tag)) rest
      else bareNode anchor tag document tokens
    | .blockEntry :: _ =>
      if isPart then flatSequence fuel (document.add (.sequenceStart tag)) tokens
      else bareNode anchor tag document tokens
    | tokens => bareNode anchor tag document tokens

def blockSequence : (fuel : Nat) → Document → List Token → Option Built
  | 0, _, _ => none
  | fuel + 1, document, .blockEntry :: rest =>
    if startsWith endsBlockEntry rest then blockSequence fuel document.addEmpty rest
    else do
      let (document, rest) ← node true false fuel document rest
      blockSequence fuel document rest
  | _ + 1, document, .blockEnd :: rest => some (document.add .sequenceEnd, rest)
  | _, _, _ => none

def flatSequence : (fuel : Nat) → Document → List Token → Option Built
  | 0, _, _ => none
  | fuel + 1, document, .blockEntry :: rest =>
    if startsWith (fun t => endsBlockEntry t || endsBlockPart t) rest then
      flatSequence fuel document.addEmpty rest
    else do
      let (document, rest) ← node true false fuel document rest
      flatSequence fuel document rest
  | _ + 1, document, tokens => some (document.add .sequenceEnd, tokens)

def blockMapping : (fuel : Nat) → Document → List Token → Option Built
  | 0, _, _ => none
  | fuel + 1, document, .key :: rest =>
    if startsWith endsBlockPart rest then blockValue fuel document.addEmpty rest
    else do
      let (document, rest) ← node true true fuel document rest
      blockValue fuel document rest
  | _ + 1, document, .blockEnd :: rest => some (document.add .mappingEnd, rest)
  | _, _, _ => none

/-- Builds the value of an entry of a block mapping, and the entries after it. -/
def blockValue : (fuel : Nat) → Document → List Token → Option Built
  | 0, _, _ => none
  | fuel + 1, document, .value :: rest =>
    if startsWith endsBlockPart rest then blockMapping fuel document.addEmpty rest
    else do
      let (document, rest) ← node true true fuel document rest
      blockMapping fuel document rest
  | fuel + 1, document, tokens => blockMapping fuel document.addEmpty tokens

def flowSequence (isFirst : Bool) : (fuel : Nat) → Document → List Token → Option Built
  | 0, _, _ => none
  | _ + 1, document, .flowSequenceEnd :: rest => some (document.add .sequenceEnd, rest)
  | fuel + 1, document, tokens => do
    let tokens ←
      match isFirst, tokens with
      | true, tokens => some tokens
      | false, .flowEntry :: rest => some rest
      | false, _ => none
    match tokens with
    | .flowSequenceEnd :: rest => some (document.add .sequenceEnd, rest)
    | .key :: rest =>
      let document := document.add (.mappingStart none)
      let (document, rest) ←
        if startsWith (fun t => (t matches .value) || endsFlowItem .flowSequenceEnd t) rest then
          -- after an empty key one token is passed over, whichever it is
          some (document.addEmpty, rest.drop 1)
        else node false false fuel document rest
      let (document, rest) ← flowValue .flowSequenceEnd fuel document rest
      flowSequence false fuel (document.add .mappingEnd) rest
    | tokens =>
      let (document, rest) ← node false false fuel document tokens
      flowSequence false fuel document rest

def flowValue (close : Token) : (fuel : Nat) → Document → List Token → Option Built
  | 0, _, _ => none
  | fuel + 1, document, .value :: rest =>
    if startsWith (endsFlowItem close) rest then some (document.addEmpty, rest)
    else node false false fuel document rest
  | _ + 1, document, tokens => some (document.addEmpty, tokens)

def flowMapping (isFirst : Bool) : (fuel : Nat) → Document → List Token → Option Built
  | 0, _, _ => none
  | _ + 1, document, .flowMappingEnd :: rest => some (document.add .mappingEnd, rest)
  | fuel + 1, document, tokens => do
    let tokens ←
      match isFirst, tokens with
      | true, tokens => some tokens
      | false, .flowEntry :: rest => some rest
      | false, _ => none
    match tokens with
    | .flowMappingEnd :: rest => some (document.add .mappingEnd, rest)
    | .key :: rest =>
      let (document, rest) ←
        if startsWith (fun t => (t matches .value) || endsFlowItem .flowMappingEnd t) rest then
          some (document.addEmpty, rest)
        else node false false fuel document rest
      let (document, rest) ← flowValue .flowMappingEnd fuel document rest
      flowMapping false fuel document rest
    | tokens =>
      let (document, rest) ← node false false fuel document tokens
      flowMapping false fuel document.addEmpty rest

end

/-! ### Documents -/

/-- The directives at the front: at most one version, which is 1.1 or 1.2, and no handle twice. -/
def directives (hasVersion : Bool) (own : List (Text × Text)) :
    List Token → Option (List (Text × Text) × List Token)
  | .directive (.version major minor) :: rest =>
    if hasVersion || major != 1 || (minor != 1 && minor != 2) then none
    else directives true own rest
  | .directive (.tag handle meaning) :: rest =>
    if (Document.lookup handle own).isSome then none
    else directives hasVersion (own ++ [(handle, meaning)]) rest
  | tokens => some (own, tokens)

def endsDocument : Token → Bool
  | .directive _ | .documentStart | .documentEnd => true
  | _ => false

/-- The document of a text that holds at most one; a text without any has no events. -/
def Document.ofTokens? (tokens : List Token) : Option Document := do
  let fuel := 4 * tokens.length + 4
  let (document, rest) ←
    match tokens with
    | [] => some ({}, [])
    | first :: _ =>
      if (first matches .directive _) || (first matches .documentStart) then do
        let (own, tokens) ← directives false [] tokens
        let start : Document := {}
        let document := { start with handles := own ++ start.handles }
        match tokens with
        | .documentStart :: rest =>
          if rest.isEmpty || startsWith endsDocument rest then some (document.addEmpty, rest)
          else node true false fuel document rest
        | _ => none
      else node true false fuel {} tokens
  if rest.all (· matches .documentEnd) then some document else none

end MarkdownDirectives.Yaml
