import JsonInspect.Json.Entries

/-! TOML values, and the tables of a document while it is read. A table remembers whether it
was only implied by a longer key and whether dots in a key made it, since that decides what may
still be added to it. -/

namespace JsonInspect.Toml

/-- A value. Of floats and of dates it is only known that they are well formed. -/
inductive Value where
  | string (s : String)
  | integer (i : Int)
  | boolean (b : Bool)
  | float
  | dateTime
  | array (items : List Value)
  | table (entries : List (String × Value))
deriving Inhabited

/-- A part of a document that is being read. -/
inductive Node where
  | value (v : Value)
  | table (implied dotted : Bool) (entries : List (String × Node))
  /-- An array of tables, the newest first. -/
  | tables (items : List Node)
deriving Inhabited

namespace Node

def empty : Node := table false false []

mutual

/-- The value that a finished part stands for. -/
def toValue : Node → Value
  | value v => v
  | table _ _ entries => .table (toEntries entries)
  | tables items => .array (toItems items).reverse

def toEntries : List (String × Node) → List (String × Value)
  | [] => []
  | (key, node) :: rest => (key, toValue node) :: toEntries rest

def toItems : List Node → List Value
  | [] => []
  | node :: rest => toValue node :: toItems rest

end

/-- Changes the table that keys lead to and makes the missing tables on the way. Nothing can be
added to a value; an array of tables is entered at its newest one; and the dots of a key lead
into no table that has a header. -/
def descend (dotted : Bool) (change : Node → Option Node) : List String → Node → Option Node
  | [], node => change node
  | key :: rest, table implied ownDotted entries => do
    let child ←
      match entries.lookup key with
      | none => descend dotted change rest (table true dotted [])
      | some (tables (newest :: older)) =>
        (descend dotted change rest newest).map fun newest => tables (newest :: older)
      | some (table childImplied childDotted children) =>
        if dotted && !childImplied then none
        else descend dotted change rest (table childImplied childDotted children)
      | _ => none
    some (table implied ownDotted (Entries.put key child entries))
  | _ :: _, _ => none

/-- Adds an entry with a new key to a table. A key that has dots in front of it goes into a
table that dots made, every other one into a table that they did not make. -/
def addEntry (afterDots : Bool) (key : String) (v : Value) : Node → Option Node
  | table implied dotted entries =>
    if dotted != afterDots || Entries.hasKey entries key then none
    else some (table implied dotted (Entries.put key (value v) entries))
  | _ => none

/-- Adds a value under the keys of a dotted key. -/
def assign (path : List String) (v : Value) (node : Node) : Option Node :=
  match path.getLast? with
  | none => none
  | some key =>
    let parents := path.dropLast
    descend true (addEntry (!parents.isEmpty) key v) parents node

end Node

end JsonInspect.Toml
