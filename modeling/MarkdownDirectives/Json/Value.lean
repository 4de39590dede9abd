import MarkdownDirectives.Number.Decimal

/-!
# Values

Metadata and expression results are values: null, booleans, numbers, texts, arrays and objects. A
number keeps whether it was written as an integer. An object is a list of fields in increasing order
of their keys, so a key occurs at most once.
-/

namespace MarkdownDirectives

inductive Number where
  | integer (i : Int)
  | float (x : Binary64)
  deriving DecidableEq, Repr

inductive Value where
  | null
  | bool (b : Bool)
  | number (n : Number)
  | string (t : Text)
  | array (items : List Value)
  | object (fields : List (Text × Value))
  deriving Inhabited

abbrev Fields := List (Text × Value)

namespace Fields

def get? (key : Text) : Fields → Option Value
  | [] => none
  | (k, v) :: rest => if k = key then some v else get? key rest

/-- Sets the value of a key, keeping the keys in increasing order. -/
def insert (key : Text) (value : Value) : Fields → Fields
  | [] => [(key, value)]
  | (k, v) :: rest =>
    if key = k then (key, value) :: rest
    else if key < k then (key, value) :: (k, v) :: rest
    else (k, v) :: insert key value rest

/-- The fields given in any order; of two with one key the later one wins. -/
def ofList (fields : List (Text × Value)) : Fields :=
  fields.foldl (fun object field => insert field.1 field.2 object) []

end Fields

namespace Number

def toBinary64 : Number → Binary64
  | .integer i => Binary64.ofInt i
  | .float x => x

end Number

namespace Value

def ofNat (n : Nat) : Value := .number (.integer n)

def ofFloat (x : Binary64) : Value := .number (.float x)

/-- False are null, `false`, zero and the empty text. -/
def isTruthy : Value → Bool
  | .null => false
  | .bool b => b
  | .number n => !n.toBinary64.isZero
  | .string t => !t.isEmpty
  | .array _ => true
  | .object _ => true

def kind : Value → Text
  | .null => "null".toList
  | .bool _ => "boolean".toList
  | .number _ => "number".toList
  | .string _ => "string".toList
  | .array _ => "array".toList
  | .object _ => "object".toList

end Value

end MarkdownDirectives
