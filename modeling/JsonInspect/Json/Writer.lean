import JsonInspect.Json.Basic
import JsonInspect.Json.Quoted

/-! JSON text of a value. The indented text grows line by line and keeps count of the depth; the
compact text joins the texts of the parts. Each has a recursion of its own. -/

namespace JsonInspect.Json

def scalarChars : Json → List Char
  | bool b => if b then ['t', 'r', 'u', 'e'] else ['f', 'a', 'l', 's', 'e']
  | num n => n.chars
  | str s => Quoted.literal s
  | _ => ['n', 'u', 'l', 'l']

/-! ## Over several lines -/

/-- What stands at the start of a line at a nesting depth. -/
def indentation (width depth : Nat) : List Char := List.replicate (width * depth) ' '

mutual

/-- The text of a value that stands at a nesting depth, one element or entry a line. -/
def prettyChars (width depth : Nat) : Json → List Char
  | arr items =>
    if items.isEmpty then ['[', ']']
    else '[' :: '\n' :: (prettyItems width (depth + 1) items ++ indentation width depth ++ [']'])
  | obj entries =>
    if entries.isEmpty then ['{', '}']
    else '{' :: '\n' ::
      (prettyEntries width (depth + 1) entries ++ indentation width depth ++ ['}'])
  | null => scalarChars null
  | bool b => scalarChars (bool b)
  | num n => scalarChars (num n)
  | str s => scalarChars (str s)

/-- A comma ends the line of each element but the last. -/
def prettyItems (width depth : Nat) : List Json → List Char
  | [] => []
  | item :: rest =>
    indentation width depth ++ (prettyChars width depth item ++
      ((if rest.isEmpty then [] else [',']) ++ '\n' :: prettyItems width depth rest))

def prettyEntries (width depth : Nat) : List (String × Json) → List Char
  | [] => []
  | (key, child) :: rest =>
    indentation width depth ++ (Quoted.literal key ++ ':' :: ' ' ::
      (prettyChars width depth child ++
        ((if rest.isEmpty then [] else [',']) ++ '\n' :: prettyEntries width depth rest)))

end

/-- The text of a value over several lines. -/
def pretty (width : Nat) (v : Json) : String := String.ofList (v.prettyChars width 0)

/-! ## On one line -/

mutual

def compactChars : Json → List Char
  | arr items => '[' :: ([','].intercalate (compactItems items) ++ [']'])
  | obj entries => '{' :: ([','].intercalate (compactEntries entries) ++ ['}'])
  | null => scalarChars null
  | bool b => scalarChars (bool b)
  | num n => scalarChars (num n)
  | str s => scalarChars (str s)

/-- The texts of the elements, to be joined with commas. -/
def compactItems : List Json → List (List Char)
  | [] => []
  | item :: rest => compactChars item :: compactItems rest

def compactEntries : List (String × Json) → List (List Char)
  | [] => []
  | (key, child) :: rest =>
    (Quoted.literal key ++ ':' :: compactChars child) :: compactEntries rest

end

/-- The text of a value on one line, without spaces. -/
def compact (v : Json) : String := String.ofList v.compactChars

end JsonInspect.Json
