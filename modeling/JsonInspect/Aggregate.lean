import JsonInspect.Failure
import JsonInspect.Path
import JsonInspect.Text.Blank

/-! Gathering the keys that occur more than once anywhere in a document into one block of it,
and taking them out of the rest. -/

namespace JsonInspect

/-- How the occurrences of a key are put together. -/
inductive AggregateMode where
  | collect | merge
deriving DecidableEq

namespace AggregateMode

def name : AggregateMode → String
  | collect => "collect"
  | merge => "merge"

/-- The mode of a name, blanks at its ends and the case of ASCII letters apart. A name of no
mode comes back as it was compared. -/
def parse (text : String) : Except String AggregateMode :=
  let asked := String.ofList ((trimChars text.toList).map Char.toLower)
  if asked = "collect" then .ok collect
  else if asked = "merge" then .ok merge
  else .error asked

/-- What is said about a name of no mode. -/
def unknownMessage (asked : String) : String :=
  "unknown aggregate mode '" ++ asked ++ "', expected 'collect' or 'merge'"

end AggregateMode

structure AggregateOptions where
  mode : AggregateMode
  /-- Whether repeated keys are taken out of the document's body. -/
  removal : Bool
deriving DecidableEq

/-- One entry with some key: where it stands and what it holds. -/
structure Occurrence where
  location : String
  value : Json

namespace Aggregate

/-- The location of an array element. -/
def indexed (location : String) (index : Nat) : String :=
  location ++ "[" ++ toString index ++ "]"

mutual

/-- Every entry below a value with its key, in document order. -/
def occurrences (location : String) : Json → List (String × Occurrence)
  | .arr items => itemOccurrences location 0 items
  | .obj entries => entryOccurrences location entries
  | _ => []

def itemOccurrences (location : String) (index : Nat) :
    List Json → List (String × Occurrence)
  | [] => []
  | item :: rest =>
    occurrences (indexed location index) item ++ itemOccurrences location (index + 1) rest

def entryOccurrences (location : String) :
    List (String × Json) → List (String × Occurrence)
  | [] => []
  | (key, child) :: rest =>
    (key, ⟨dotted location key, child⟩) :: occurrences (dotted location key) child ++
      entryOccurrences location rest

end

/-- The keys that occur more than once, in the order in which they first occur, each with all
its occurrences in document order. -/
def duplicates (root : Json) : List (String × List Occurrence) :=
  ((occurrences "" root).foldl (fun seen (key, o) => Entries.append key o seen) []).filter
    fun (_, found) => 1 < found.length

/-- The entries of all objects in one: later values win, keys stay where they first stood. -/
def mergeEntries (found : List Occurrence) : List (String × Json) :=
  Entries.ofPairs (found.flatMap fun o =>
    match o.value with
    | .obj entries => entries
    | _ => [])

/-- The list of an occurrence's location and value. -/
def listing (found : List Occurrence) : Json :=
  .arr (found.map fun o => .obj [("path", .str o.location), ("value", o.value)])

/-- Merging needs objects throughout; everything else is listed. -/
def combine (mode : AggregateMode) (found : List Occurrence) : Json :=
  if mode = .merge ∧ found.all (·.value.isObject) then .obj (mergeEntries found)
  else listing found

mutual

/-- A value without the entries whose keys are dropped, at any depth. -/
def without (dropped : String → Bool) : Json → Json
  | .arr items => .arr (itemsWithout dropped items)
  | .obj entries => .obj (entriesWithout dropped entries)
  | .null => .null
  | .bool b => .bool b
  | .num n => .num n
  | .str s => .str s

def itemsWithout (dropped : String → Bool) : List Json → List Json
  | [] => []
  | item :: rest => without dropped item :: itemsWithout dropped rest

def entriesWithout (dropped : String → Bool) : List (String × Json) → List (String × Json)
  | [] => []
  | (key, child) :: rest =>
    if dropped key then entriesWithout dropped rest
    else (key, without dropped child) :: entriesWithout dropped rest

end

/-- The key of the block. -/
def blockKey : String := "__aggregated"

/-- Gives an object its block; a block without keys is left out. -/
def attach (block : List (String × Json)) : Json → Json
  | .obj entries =>
    .obj (if block.isEmpty then entries else Entries.put blockKey (.obj block) entries)
  | v => v

end Aggregate

open Aggregate in
/-- An object with its repeated keys gathered in a block; no other root can hold one. -/
def aggregate (options : AggregateOptions) (root : Json) : Except Failure Json :=
  if root.isObject then
    let repeated := duplicates root
    let block := repeated.map fun (key, found) => (key, combine options.mode found)
    let body := if options.removal then without (Entries.hasKey repeated) root else root
    .ok (attach block body)
  else .error (.unsupportedShape .aggregate root.kind)

end JsonInspect
