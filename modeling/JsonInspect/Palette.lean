import JsonInspect.Path

/-! The key palette of a document: the dotted form of every key sequence that can be followed
in one of its records, sorted and without repetitions. Elements of arrays add no key of their
own, so the keys of all elements are merged. -/

namespace JsonInspect.Palette

mutual

/-- The dotted keys below a value that stands at `location`, at most `depth` levels deep. An
array directly inside an array is not entered. -/
def below (depth : Nat) (location : String) : Json → List String
  | .obj entries => belowEntries depth location entries
  | .arr items => belowItems depth location items
  | _ => []

def belowEntries (depth : Nat) (location : String) : List (String × Json) → List String
  | [] => []
  | (key, child) :: rest =>
    if depth = 0 then []
    else
      dotted location key :: below (depth - 1) (dotted location key) child ++
        belowEntries depth location rest

def belowItems (depth : Nat) (location : String) : List Json → List String
  | [] => []
  | item :: rest =>
    (if item.isArray then [] else below depth location item) ++ belowItems depth location rest

end

/-- Adds a text to a strictly ascending list. -/
def insertKey (key : String) : List String → List String
  | [] => [key]
  | k :: rest =>
    if key < k then key :: k :: rest
    else if key = k then k :: rest
    else k :: insertKey key rest

/-- The palette of a document, ascending by code points. -/
def ofDocument (depth : Nat) (root : Json) : List String :=
  (below depth "" root).foldl (fun keys key => insertKey key keys) []

end JsonInspect.Palette
