import JsonInspect.Toml.Scalar

/-! Whole TOML documents: statements, one a line, that give keys values or open tables. -/

namespace JsonInspect.Toml

/-! ## Values with parts -/

/-- One or more elements and the closing bracket, `fuel` elements at most. -/
def elements? (read : Reader Value) : Nat → Reader (List Value)
  | 0, _ => none
  | fuel + 1, cs => do
    let (item, rest) ← read cs
    match ← skipBlankLines rest with
    | ']' :: rest => some ([item], rest)
    | ',' :: rest =>
      match ← skipBlankLines rest with
      | ']' :: rest => some ([item], rest)
      | rest => do
        let (items, rest) ← elements? read fuel rest
        some (item :: items, rest)
    | _ => none

/-- An array after its opening bracket. -/
def array? (read : Reader Value) (cs : List Char) : Option (Value × List Char) := do
  match ← skipBlankLines cs with
  | ']' :: rest => some (.array [], rest)
  | rest => do
    let (items, rest) ← elements? read (rest.length + 1) rest
    some (.array items, rest)

/-- A key, its mark and a value, with the spaces around them. -/
def pair? (read : Reader Value) (cs : List Char) :
    Option ((List String × Value) × List Char) := do
  let (path, rest) ← key? cs
  let rest ← mark? '=' rest
  let (v, rest) ← read (skipSpaces rest)
  some ((path, v), skipSpaces rest)

/-- One or more pairs, read onto a table, and the closing brace, `fuel` pairs at most. -/
def pairs? (read : Reader Value) : Nat → Node → Reader Node
  | 0, _, _ => none
  | fuel + 1, node, cs => do
    let ((path, v), rest) ← pair? read cs
    let node ← node.assign path v
    match rest with
    | '\x7d' :: rest => some (node, rest)
    | ',' :: rest => pairs? read fuel node rest
    | _ => none

/-- A table on one line, after its opening brace. -/
def inlineTable? (read : Reader Value) (cs : List Char) : Option (Value × List Char) :=
  match skipSpaces cs with
  | '\x7d' :: rest => some (.table [], rest)
  | rest => do
    let (node, rest) ← pairs? read (rest.length + 1) Node.empty rest
    some (node.toValue, rest)

/-- A value with at most `depth` containers nested in each other. -/
def value? : Nat → Reader Value
  | 0, '[' :: _ => none
  | 0, '\x7b' :: _ => none
  | depth + 1, '[' :: rest => array? (value? depth) rest
  | depth + 1, '\x7b' :: rest => inlineTable? (value? depth) rest
  | _, cs => scalar? cs

/-! ## Statements -/

/-- What is known of a document: the finished tables, and the table that statements now go
into with the keys of its header. -/
structure Draft where
  root : Node
  current : Node
  path : List String
  /-- Whether the current table is a new element of an array. -/
  isElement : Bool

namespace Draft

def start : Draft := ⟨Node.empty, Node.empty, [], false⟩

/-- Puts a finished table under its key. -/
def place (key : String) (t : Node) : Node → Option Node
  | .table implied dotted entries =>
    match entries.lookup key with
    | none => some (.table implied dotted (Entries.put key t entries))
    | some (.table true _ _) => some (.table implied dotted (Entries.put key t entries))
    | some _ => none
  | _ => none

/-- Adds a finished table to the array of tables under its key. -/
def placeElement (key : String) (t : Node) : Node → Option Node
  | .table implied dotted entries =>
    match entries.lookup key with
    | none => some (.table implied dotted (Entries.put key (.tables [t]) entries))
    | some (.tables items) =>
      some (.table implied dotted (Entries.put key (.tables (t :: items)) entries))
    | some _ => none
  | _ => none

/-- Puts the current table into the finished ones. -/
def close (d : Draft) : Option Node :=
  match d.path.getLast? with
  | none => some d.current
  | some key =>
    let put := if d.isElement then placeElement key d.current else place key d.current
    Node.descend false put d.path.dropLast d.root

/-- Takes the table that a header names out of the finished ones. It may be there already if
longer headers implied it. -/
def takeOut (key : String) : Node → Option (Node × Node)
  | .table implied dotted entries =>
    match entries.lookup key with
    | none => some (Node.empty, .table implied dotted entries)
    | some (.table true false children) =>
      some (.table false false children,
        .table implied dotted (entries.filter fun (k, _) => k != key))
    | some _ => none
  | _ => none

/-- The value under keys, with missing tables on the way as empty ones. -/
def lookAt (path : List String) (root : Node) : Option Node :=
  match path with
  | [] => some root
  | key :: rest =>
    match root with
    | .table _ _ entries =>
      match entries.lookup key with
      | none => some (Node.table true false [])
      | some (.tables (newest :: _)) => lookAt rest newest
      | some (.table implied dotted children) => lookAt rest (.table implied dotted children)
      | some _ => none
    | _ => none

/-- Opens the table of a header. -/
def openTable (path : List String) (d : Draft) : Option Draft := do
  let root ← d.close
  let key ← path.getLast?
  let parents := path.dropLast
  let (current, _) ← takeOut key (← lookAt parents root)
  let root ← Node.descend false (fun parent => (takeOut key parent).map Prod.snd) parents root
  some ⟨root, current, path, false⟩

/-- Opens a new element of the array of tables of a header. -/
def openElement (path : List String) (d : Draft) : Option Draft := do
  let root ← d.close
  let key ← path.getLast?
  let parents := path.dropLast
  let root ← Node.descend false (fun
    | .table implied dotted entries =>
      match entries.lookup key with
      | none => some (.table implied dotted entries)
      | some (.tables _) => some (.table implied dotted entries)
      | some _ => none
    | _ => none) parents root
  some ⟨root, Node.empty, path, true⟩

def assign (path : List String) (v : Value) (d : Draft) : Option Draft :=
  (d.current.assign path v).map fun current => { d with current := current }

end Draft

/-- One statement: a blank or comment line, a header, or a pair. -/
def statement? (d : Draft) (cs : List Char) : Option (Draft × List Char) :=
  match cs with
  | '[' :: '[' :: rest => do
    let (path, rest) ← key? rest
    let rest ← mark? ']' rest
    let rest ← mark? ']' rest
    let rest ← lineEnd? rest
    some (← d.openElement path, rest)
  | '[' :: rest => do
    let (path, rest) ← key? rest
    let rest ← mark? ']' rest
    let rest ← lineEnd? rest
    some (← d.openTable path, rest)
  | '#' :: _ => (lineEnd? cs).map fun rest => (d, rest)
  | '\n' :: rest => some (d, rest)
  | '\r' :: _ => (newline? cs).map fun rest => (d, rest)
  | _ => do
    let ((path, v), rest) ← pair? (value? greatestDepth) cs
    let rest ← lineEnd? rest
    some (← d.assign path v, rest)

/-- Statements up to the end of the text, `fuel` of them at most. -/
def statements? : Nat → Draft → List Char → Option Draft
  | 0, _, _ => none
  | fuel + 1, d, cs =>
    match skipSpaces cs with
    | [] => some d
    | rest => do
      let (d, rest) ← statement? d rest
      statements? fuel d rest

/-- The entries of a document. A byte order mark at its start is skipped. -/
def document? (text : String) : Option (List (String × Value)) := do
  let cs :=
    match text.toList with
    | '\ufeff' :: rest => rest
    | cs => cs
  let d ← statements? (cs.length + 1) Draft.start cs
  match (← d.close).toValue with
  | .table entries => some entries
  | _ => none

end JsonInspect.Toml
