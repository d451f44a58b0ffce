import JsonInspect.Json.Basic
import JsonInspect.Text.Search

/-! Paths of object keys, written with dots between them, and the values they reach. A path
walks through objects only; that it leads nowhere is an answer, not an error. -/

namespace JsonInspect

structure Path where
  segments : List String
deriving DecidableEq

namespace Path

/-- The empty text is the empty path; every other text is split at its dots and nowhere else. -/
def parse (text : String) : Path :=
  if text.isEmpty then ⟨[]⟩
  else ⟨(splitAtChar '.' text.toList).map String.ofList⟩

def text (p : Path) : String := ".".intercalate p.segments

def isEmpty (p : Path) : Bool := p.segments.isEmpty

/-- The key that a path names inside the object that holds it. -/
def last? (p : Path) : Option String := p.segments.getLast?

def child (p : Path) (key : String) : Path := ⟨p.segments ++ [key]⟩

end Path

/-- A key below a dotted location. Below the empty location the key stands alone. -/
def dotted (location key : String) : String :=
  if location.isEmpty then key else location ++ "." ++ key

namespace Json

/-- Follows keys from object to object. -/
def walk : List String → Json → Option Json
  | [], v => some v
  | key :: rest, obj entries =>
    match entries.lookup key with
    | some child => walk rest child
    | none => none
  | _ :: _, _ => none

/-- The value that a path reaches. The empty path reaches none. -/
def resolve (path : Path) (root : Json) : Option Json :=
  if path.isEmpty then none else walk path.segments root

/-- The object in which a path's last key is looked up. -/
def parentOf (path : Path) (root : Json) : Option Json :=
  if path.isEmpty then none else (walk path.segments.dropLast root).filter isObject

/-- Changes the value that the keys lead to, if they do and `change` allows it. -/
def updateAt (change : Json → Option Json) : List String → Json → Option Json
  | [], v => change v
  | key :: rest, obj entries =>
    match entries.lookup key with
    | some child => (updateAt change rest child).map fun v => obj (Entries.put key v entries)
    | none => none
  | _ :: _, _ => none

/-- Changes the entries of the object in which a path's last key is looked up. -/
def updateParent (change : List (String × Json) → List (String × Json)) (path : Path)
    (root : Json) : Option Json :=
  if path.isEmpty then none
  else updateAt (fun
    | obj entries => some (obj (change entries))
    | _ => none) path.segments.dropLast root

/-- Gives the path's last key a value. Only that key may be new: without the object that is
to hold it, there is no result. -/
def assign (root : Json) (path : Path) (value : Json) : Option Json :=
  match path.last? with
  | none => none
  | some key => updateParent (Entries.put key value) path root

/-- The same assignment to a value that is changed in place: what stands there afterwards, and
whether it was assigned. Sessions change no value in place and use `assign`. -/
def assignInPlace (value : Json) : List String → Json → Json × Bool
  | [key], obj entries => (obj (Entries.put key value entries), true)
  | key :: next :: rest, obj entries =>
    match entries.lookup key with
    | some child =>
      let (child, assigned) := assignInPlace value (next :: rest) child
      (obj (Entries.put key child entries), assigned)
    | none => (obj entries, false)
  | _, v => (v, false)

end Json

end JsonInspect
