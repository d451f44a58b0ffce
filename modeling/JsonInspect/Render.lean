import JsonInspect.Json.Writer
import JsonInspect.Markup
import JsonInspect.Query

/-! Documents and search results as HTML, with the leaves at matched paths highlighted. Only
keys make paths: what stands inside an array has none and is never highlighted. -/

namespace JsonInspect.Render

open Markup

/-- How deep a value may be nested before the page falls back to plain text. -/
def greatestDepth : Nat := 256

/-- The key of an entry, in quotes and escaped as in a JSON literal. -/
def keyPiece (key : String) : Markup :=
  element .key [layout "\"", text (Quoted.escape key.toList), layout "\""]

/-- The literal of a leaf. -/
def literalPieces : Json → List Markup
  | .str s => [layout "\"", text (Quoted.escape s.toList), layout "\""]
  | .num n => [text n.chars]
  | .bool b => [text (Json.bool b).scalarChars]
  | _ => [text Json.null.scalarChars]

/-- The tag of a leaf that is not highlighted. -/
def leafTag? : Json → Option Tag
  | .num _ => some .number
  | .bool _ => some .boolean
  | .null => some .null
  | _ => none

def leafPieces (marks : MatchSet) (path : Option Path) (leaf : Json) : List Markup :=
  let highlighted :=
    match path with
    | some p => !p.isEmpty && marks.contains p
    | none => false
  if highlighted then [element .found (literalPieces leaf)]
  else match leafTag? leaf with
    | some tag => [element tag (literalPieces leaf)]
    | none => literalPieces leaf

mutual

/-- The pieces of a value below which `depth` more levels may be nested; none if there are
more. -/
def pieces (marks : MatchSet) (depth : Nat) (path : Option Path) : Json → Option (List Markup)
  | .arr [] => some [layout "[]"]
  | .obj [] => some [layout "\x7b\x7d"]
  | .arr (item :: rest) =>
    if depth = 0 then none
    else do
      let first ← pieces marks (depth - 1) none item
      let others ← itemPieces marks (depth - 1) rest
      some (layout "[\n" :: first ++ others ++ [layout "\n]"])
  | .obj ((key, child) :: rest) =>
    if depth = 0 then none
    else do
      let first ← pieces marks (depth - 1) (path.map (·.child key)) child
      let others ← entryPieces marks (depth - 1) path rest
      some (layout "\x7b\n" :: element .line (keyPiece key :: layout ": " :: first) ::
        others ++ [layout "\n\x7d"])
  | .null => some (leafPieces marks path .null)
  | .bool b => some (leafPieces marks path (.bool b))
  | .num n => some (leafPieces marks path (.num n))
  | .str s => some (leafPieces marks path (.str s))

/-- The elements after the first one. -/
def itemPieces (marks : MatchSet) (depth : Nat) : List Json → Option (List Markup)
  | [] => some []
  | item :: rest => do
    let first ← pieces marks depth none item
    let others ← itemPieces marks depth rest
    some (layout ",\n" :: first ++ others)

/-- The entries after the first one. -/
def entryPieces (marks : MatchSet) (depth : Nat) (path : Option Path) :
    List (String × Json) → Option (List Markup)
  | [] => some []
  | (key, child) :: rest => do
    let first ← pieces marks depth (path.map (·.child key)) child
    let others ← entryPieces marks depth path rest
    some (layout "\n" :: element .line (keyPiece key :: layout ": " :: first) :: others)

end

/-- A value as plain text. -/
def plainPage (v : Json) : Markup := element .page [text v.compactChars]

/-- The pieces of a value that is a record of its own. -/
def recordPieces (marks : MatchSet) (v : Json) : Option (List Markup) :=
  pieces marks greatestDepth (some ⟨[]⟩) v

/-- The page of one value. -/
def page (marks : MatchSet) (v : Json) : Markup :=
  match recordPieces marks v with
  | some body => element .page body
  | none => plainPage v

/-- Blocks with rules between them. -/
def ruled : List Markup → List Markup
  | [] => []
  | [block] => [block]
  | block :: rest => block :: rule :: ruled rest

/-- The page of matched records, one block each; plain text if one of them is too deep. -/
def resultPage (marks : MatchSet) (records : List Json) : Markup :=
  match records.mapM (recordPieces marks) with
  | some bodies => element .page (ruled (bodies.map (element .record)))
  | none => plainPage (.arr records)

end JsonInspect.Render

namespace JsonInspect

/-- The HTML of a value. -/
def renderValue (marks : MatchSet) (v : Json) : String :=
  String.ofList (Render.page marks v).html

/-- The HTML of matched records, nothing at all for none. -/
def renderResults (marks : MatchSet) (records : List Json) : String :=
  if records.isEmpty then "" else String.ofList (Render.resultPage marks records).html

end JsonInspect
