/-! Ordered maps from text keys, written as lists of entries in insertion order. Every
operation keeps the keys distinct and leaves untouched keys where they are. -/

namespace JsonInspect.Entries

variable {α : Type}

def keys (entries : List (String × α)) : List String := entries.map Prod.fst

def hasKey (entries : List (String × α)) (key : String) : Bool := (entries.lookup key).isSome

/-- Gives `key` a value: in place when the key is there, at the end when it is not. -/
def put (key : String) (value : α) : List (String × α) → List (String × α)
  | [] => [(key, value)]
  | (k, v) :: rest => if k = key then (k, value) :: rest else (k, v) :: put key value rest

/-- Each key at its first position with its last value. -/
def ofPairs (pairs : List (String × α)) : List (String × α) :=
  pairs.foldl (fun entries (k, v) => put k v entries) []

/-- Writes `new` for the key `old`, leaving its position and value. -/
def renameKey (old new : String) (entries : List (String × α)) : List (String × α) :=
  entries.map fun (k, v) => (if k = old then new else k, v)

/-- Appends `value` to the list under `key`, which starts empty at the end of the map. -/
def append (key : String) (value : α) (entries : List (String × List α)) :
    List (String × List α) :=
  put key ((entries.lookup key).getD [] ++ [value]) entries

end JsonInspect.Entries
