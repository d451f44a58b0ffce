import JsonInspect.EditDistance
import JsonInspect.Number.Operand
import JsonInspect.Predicate
import JsonInspect.Text.Lowercase

/-! Searching the records of a document, by the value at a key or by a predicate. A record in
which the key leads nowhere is never a match. -/

namespace JsonInspect

/-- How texts are compared by a search. -/
structure Matching where
  fuzzy : Bool
  threshold : Nat
deriving DecidableEq

/-- Whether a lower-cased text matches a lower-cased wish: close to it, or containing it. -/
def Matching.finds (m : Matching) (text wanted : String) : Bool :=
  if m.fuzzy then closeTo m.threshold text wanted else occursIn wanted.toList text.toList

/-- For each matched record the paths to highlight in it. -/
structure MatchSet where
  marks : List (List Path)
deriving DecidableEq

namespace MatchSet

def empty : MatchSet := ⟨[]⟩

/-- The same path in each of `count` records. -/
def uniform (count : Nat) (path : Path) : MatchSet := ⟨List.replicate count [path]⟩

/-- Whether a path is to be highlighted in any record. -/
def contains (m : MatchSet) (path : Path) : Bool := m.marks.any (·.contains path)

def isEmpty (m : MatchSet) : Bool := m.marks.isEmpty

end MatchSet

/-- The records that a search keeps and where they matched. -/
structure Matches where
  records : List Json
  marks : MatchSet

namespace Matches

def of (records : List Json) (key : Path) : Matches :=
  ⟨records, MatchSet.uniform records.length key⟩

def count (m : Matches) : Nat := m.records.length

def isEmpty (m : Matches) : Bool := m.records.isEmpty

end Matches

/-! ## By key and value -/

/-- Whether a field has a value that a search for `value` keeps. Nothing typed keeps every
field, and null reads as the empty text. -/
def valueMatches (m : Matching) (value : String) (field : Json) : Bool :=
  let wanted := lower value
  wanted.isEmpty || m.finds (if field.isNull then "" else lower field.stringForm) wanted

def queryByValue (m : Matching) (key : Path) (value : String) (root : Json) : Matches :=
  Matches.of (root.records.filter fun record =>
    match record.resolve key with
    | some field => valueMatches m value field
    | none => false) key

/-! ## By predicate -/

/-- Drops a quote at the start of a text, a double one rather than a single one. -/
def dropQuote : List Char → List Char
  | c :: rest => if c = '"' ∨ c = '\'' then rest else c :: rest
  | [] => []

/-- An operand without its blanks and quotes. -/
def unquote (operand : String) : String :=
  String.ofList
    (trimChars (dropQuote (dropQuote (trimChars operand.toList)).reverse).reverse)

/-- Applies an operator to a field and an operand. If both read as numbers they are compared
as numbers; else their lower-cased texts are compared, or measured against each other. -/
def evaluate (m : Matching) (op : Operator) (operand : String) (field : Json) : Bool :=
  let fieldText := trim field.stringForm
  let target := unquote operand
  let left := lower fieldText
  let right := lower target
  if op = .contains then m.finds left right
  else match Operand.number? fieldText, Operand.number? target with
    | some a, some b => op.holds Double.less Double.same a b
    | _, _ =>
      if m.fuzzy && (op = .equal || op = .assigned) then closeTo m.threshold left right
      else if m.fuzzy && op = .notEqual then !closeTo m.threshold left right
      else op.holds (fun s t => decide (s < t)) (· == ·) left right

def queryByPredicate (m : Matching) (p : Predicate) (root : Json) : Matches :=
  Matches.of (root.records.filter fun record =>
    match record.resolve p.key with
    | some field => evaluate m p.operator p.operand field
    | none => false) p.key

end JsonInspect
