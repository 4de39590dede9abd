import MarkdownDirectives.Json.Value

/-!
# The compact text of a value

Values are written as compact JSON: no blanks, fields in key order, short escapes where JSON has
them, and other control characters below the space as `\u00xx`. Output for a reader uses two
laxer forms: numbers lose a zero fraction, and texts stand without quotes.
-/

namespace MarkdownDirectives

/-! ### Quoted text -/

def hexDigit (n : Nat) : Char := Nat.digitChar n

def jsonEscape (c : Char) : Text :=
  if c = '"' then ['\\', '"']
  else if c = '\\' then ['\\', '\\']
  else if c = '\x08' then ['\\', 'b']
  else if c = '\t' then ['\\', 't']
  else if c = '\n' then ['\\', 'n']
  else if c = '\x0c' then ['\\', 'f']
  else if c = '\r' then ['\\', 'r']
  else if c.toNat < 32 then
    ['\\', 'u', '0', '0', hexDigit (c.toNat / 16), hexDigit (c.toNat % 16)]
  else [c]

def jsonQuote (t : Text) : Text := '"' :: t.flatMap jsonEscape ++ ['"']

/-! ### Numbers -/

/-- A number in JSON: a float always shows that it is one. -/
def Number.toJson : Number → Text
  | .integer i => Text.ofInt i
  | .float x => x.write Decimal.jsonLayout

/-- A number in output: never in exponent notation, and a whole float below `10 ^ 15` as the
integer it is, so that zero loses its sign. -/
def Number.shown : Number → Text
  | .integer i => Text.ofInt i
  | .float x =>
    if x.isWhole && decide (x.wholePart < Nat.pow 10 15) then
      Text.ofInt (if x.negative then -(x.wholePart : Int) else x.wholePart)
    else x.write Decimal.plainLayout

/-! ### Values -/

namespace Value

mutual

def toJson : Value → Text
  | .null => "null".toList
  | .bool true => "true".toList
  | .bool false => "false".toList
  | .number n => n.toJson
  | .string t => jsonQuote t
  | .array items => '[' :: itemsToJson items ++ [']']
  | .object fields => '{' :: fieldsToJson fields ++ ['}']

def itemsToJson : List Value → Text
  | [] => []
  | [item] => item.toJson
  | item :: more => item.toJson ++ ',' :: itemsToJson more

def fieldsToJson : List (Text × Value) → Text
  | [] => []
  | [(key, value)] => jsonQuote key ++ ':' :: value.toJson
  | (key, value) :: more => jsonQuote key ++ ':' :: (value.toJson ++ ',' :: fieldsToJson more)

end

def display : Value → Text
  | .string t => t
  | .number n => n.shown
  | other => other.toJson

/-- The text of a value in the document: strings, numbers and booleans stand for themselves, any
other value becomes a comment that holds its JSON text. -/
def format : Value → Text
  | .string t => t
  | .number n => n.shown
  | .bool b => (Value.bool b).toJson
  | other => "<!-- `".toList ++ other.toJson ++ "` -->".toList

end Value

end MarkdownDirectives
