import JsonInspect.Json.Basic

/-! # Places in a value

A place is the sequence of keys and indices that leads to it from the root. -/

namespace JsonInspect

inductive Step where
  | key (k : String)
  | index (i : Nat)
deriving DecidableEq

namespace Json

def at? : List Step → Json → Option Json
  | [], v => some v
  | .key k :: rest, obj entries => (entries.lookup k).bind (at? rest)
  | .index i :: rest, arr items => items[i]?.bind (at? rest)
  | _ :: _, _ => none

theorem at?_key (k : String) (rest : List Step) (entries : List (String × Json)) :
    at? (.key k :: rest) (obj entries) = (entries.lookup k).bind (at? rest) := rfl

theorem at?_index (i : Nat) (rest : List Step) (items : List Json) :
    at? (.index i :: rest) (arr items) = items[i]?.bind (at? rest) := rfl

theorem at?_append (p q : List Step) (v : Json) : at? (p ++ q) v = (at? p v).bind (at? q) := by
  induction p generalizing v with
  | nil => rfl
  | cons step rest ih =>
    cases step with
    | key k =>
      cases v with
      | obj entries =>
        rw [List.cons_append, at?_key, at?_key]
        cases entries.lookup k with
        | none => rfl
        | some child => exact ih child
      | _ => rfl
    | index i =>
      cases v with
      | arr items =>
        rw [List.cons_append, at?_index, at?_index]
        cases items[i]? with
        | none => rfl
        | some item => exact ih item
      | _ => rfl

def isLeaf (v : Json) : Bool := !v.isContainer

end Json

end JsonInspect
