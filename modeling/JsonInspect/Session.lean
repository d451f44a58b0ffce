import JsonInspect.Aggregate
import JsonInspect.Group
import JsonInspect.Json.Reader
import JsonInspect.Palette
import JsonInspect.Rename
import JsonInspect.Render

/-! A session: a text that is searched, transformed and shown. The text is read anew by every
operation; a transformation puts its result in the text's place, and one that is refused, or
finds nothing to change, leaves the text as it is. -/

namespace JsonInspect

structure SessionOptions where
  matching : Matching
  /-- How many levels deep the key palette looks. -/
  paletteDepth : Nat
  /-- The width of one level of indentation. -/
  indent : Nat
deriving DecidableEq

/-- A line that tells how an operation went. -/
structure Status where
  text : String
  severity : Severity
deriving DecidableEq

namespace Status

def info (text : String) : Status := ⟨text, .info⟩

def warning (text : String) : Status := ⟨text, .warning⟩

def ofFailure (f : Failure) : Status := ⟨f.message, f.severity⟩

end Status

/-- What is typed into the search fields. An expression that is not blank goes before the key
and the value. -/
structure SearchRequest where
  expression : String
  key : String
  value : String

structure SearchOutcome where
  status : Status
  /-- The matched records as an indented array. -/
  output : String
  html : String
  found : Matches

structure Formatted where
  pretty : String
  keys : List String

structure Session where
  text : String
  /-- The text that a reset brings back. -/
  initial : String
  options : SessionOptions

namespace Session

def start (text : String) (options : SessionOptions) : Session := ⟨text, text, options⟩

def setText (s : Session) (text : String) : Session := { s with text := text }

def setOptions (s : Session) (options : SessionOptions) : Session := { s with options := options }

def root (s : Session) : Except Failure Json := (Json.parse s.text).mapError .invalidJson

def pretty (s : Session) (v : Json) : String := v.pretty s.options.indent

/-- The session whose text shows a value. -/
def showing (s : Session) (v : Json) : Session := s.setText (s.pretty v)

/-! ## Looking at the document -/

def format (s : Session) : Except Failure Formatted := do
  let root ← s.root
  .ok ⟨s.pretty root, Palette.ofDocument s.options.paletteDepth root⟩

/-- The key palette, empty for a text that is no JSON. -/
def keys (s : Session) : List String :=
  match s.format with
  | .ok formatted => formatted.keys
  | .error _ => []

def clearSearch (s : Session) : Except Failure String := do
  let formatted ← s.format
  .ok formatted.pretty

def renderHtml (s : Session) : Except Failure String := do
  let root ← s.root
  .ok (renderValue .empty root)

/-- Searches by the predicate of an expression. -/
def searchByExpression (s : Session) (root : Json) (expression : String) :
    Except Failure (Matches × Status) := do
  let predicate ← Predicate.parse expression
  let found := queryByPredicate s.options.matching predicate root
  .ok (found,
    if found.isEmpty then .warning ("No matches for " ++ expression)
    else .info (toString found.count ++ " matches for " ++ expression))

/-- Searches by a key and a value, both trimmed. -/
def searchByValue (s : Session) (root : Json) (key value : String) :
    Except Failure (Matches × Status) :=
  if key.isEmpty then .error .missingKey
  else
    let found := queryByValue s.options.matching (Path.parse key) value root
    .ok (found,
      if found.isEmpty then .warning ("No matches found for " ++ key ++ ":" ++ value)
      else .info (toString found.count ++ " matches"))

def search (s : Session) (request : SearchRequest) : Except Failure SearchOutcome := do
  let root ← s.root
  let expression := trim request.expression
  let (found, status) ←
    if expression.isEmpty then s.searchByValue root (trim request.key) (trim request.value)
    else s.searchByExpression root expression
  .ok ⟨status, s.pretty (.arr found.records), renderResults found.marks found.records, found⟩

/-! ## Changing the document -/

def group (s : Session) (key : String) : Except Failure (Session × Status) := do
  let key := trim key
  if key.isEmpty then .error .missingKey
  else
    let root ← s.root
    let groups ← groupBy (Path.parse key) root
    .ok (s.showing groups.toJson,
      .info ("Grouped by " ++ key ++ " into " ++ toString groups.count ++ " groups"))

def rename (s : Session) (old new : String) : Except Failure (Session × Status) := do
  let root ← s.root
  let renamed ← renameKey (Path.parse (trim old)) (Path.parse (trim new)) root
  if renamed.count = 0 then .ok (s, .warning ("Key '" ++ trim old ++ "' not found"))
  else
    .ok (s.showing renamed.value,
      .info ("Renamed '" ++ trim old ++ "' to '" ++ trim new ++ "' in " ++
        toString renamed.count ++ " places"))

/-- The value that a text stands for: JSON if it can be read as such, else a string. -/
def typedValue (text : String) : Json :=
  match Json.parse text with
  | .ok v => v
  | .error _ => .str text

/-- Assigns a value at a path in every record that has an object to hold it, and counts
those. -/
def assignAll (path : Path) (value : Json) : Json → Json × Nat
  | .arr items =>
    let results := items.map fun item => (item, item.assign path value)
    (.arr (results.map fun (item, assigned) => assigned.getD item),
      results.countP fun (_, assigned) => assigned.isSome)
  | record =>
    match record.assign path value with
    | some assigned => (assigned, 1)
    | none => (record, 0)

def set (s : Session) (key valueText : String) : Except Failure (Session × Status) := do
  let key := trim key
  if key.isEmpty then .error .missingKey
  else
    let root ← s.root
    let (value, count) := assignAll (Path.parse key) (typedValue valueText) root
    if count = 0 then .ok (s, .warning ("No object to hold " ++ key))
    else .ok (s.showing value, .info ("Set " ++ key ++ " in " ++ toString count ++ " places"))

def aggregate (s : Session) (options : AggregateOptions) : Except Failure (Session × Status) := do
  let root ← s.root
  let count := (Aggregate.duplicates root).length
  let value ← JsonInspect.aggregate options root
  .ok (s.showing value,
    if count = 0 then .info "No duplicate keys found"
    else
      .info ("Aggregated " ++ toString count ++ " duplicate keys (" ++ options.mode.name ++ ")"))

def reset (s : Session) : Session × Status :=
  (s.setText s.initial, .info "Reset to original")

end Session

end JsonInspect
