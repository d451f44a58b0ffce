import JsonInspect.Number.Basic
import JsonInspect.Json.Entries

/-! JSON values. Objects are lists of entries in document order; that their keys are distinct
is a property of the values that are read and computed, not of the type. -/

namespace JsonInspect

inductive Json where
  | null
  | bool (b : Bool)
  | num (n : Number)
  | str (s : String)
  | arr (items : List Json)
  | obj (entries : List (String × Json))
deriving Inhabited

/-- The six kinds of value. -/
inductive Kind where
  | object | array | string | number | boolean | null
deriving DecidableEq

def Kind.name : Kind → String
  | .object => "object"
  | .array => "array"
  | .string => "string"
  | .number => "number"
  | .boolean => "boolean"
  | .null => "null"

namespace Json

def kind : Json → Kind
  | null => .null
  | bool _ => .boolean
  | num _ => .number
  | str _ => .string
  | arr _ => .array
  | obj _ => .object

def isObject (v : Json) : Bool := v.kind == .object

def isArray (v : Json) : Bool := v.kind == .array

def isNull (v : Json) : Bool := v.kind == .null

def isContainer (v : Json) : Bool := v.isObject || v.isArray

/-- The records of a document: the elements of an array, or the one value itself. -/
def records : Json → List Json
  | arr items => items
  | v => [v]

mutual

/-- The text that searching and grouping see: strings without quotes, arrays as their
elements' texts with commas between, and one fixed text for every object. -/
def stringForm : Json → String
  | null => "null"
  | bool b => if b then "true" else "false"
  | num n => n.text
  | str s => s
  | arr items => ",".intercalate (itemForms items)
  | obj _ => "[object Object]"

/-- The texts of array elements, where null gives the empty text. -/
def itemForms : List Json → List String
  | [] => []
  | item :: rest => (if item.isNull then "" else item.stringForm) :: itemForms rest

end

mutual

/-- Equality of values: numbers by value, objects whatever the order of their entries. -/
def same : Json → Json → Bool
  | null, null => true
  | bool a, bool b => a == b
  | num a, num b => a.same b
  | str a, str b => a == b
  | arr a, arr b => sameItems a b
  | obj a, obj b => a.length == b.length && sameEntries a b
  | _, _ => false

def sameItems : List Json → List Json → Bool
  | [], [] => true
  | a :: as, b :: bs => same a b && sameItems as bs
  | _, _ => false

/-- Whether each entry of the first list is found in the second one. -/
def sameEntries : List (String × Json) → List (String × Json) → Bool
  | [], _ => true
  | (k, a) :: rest, other =>
    (match other.lookup k with
      | some b => same a b
      | none => false) && sameEntries rest other

end

end Json

end JsonInspect
