/-! Finding texts in texts and splitting at characters. -/

namespace JsonInspect

/-- Whether `needle` is a substring. -/
def occursIn (needle : List Char) : List Char → Bool
  | [] => needle.isEmpty
  | c :: rest => needle.isPrefixOf (c :: rest) || occursIn needle rest

/-- What stands before and after the leftmost occurrence of `needle`. -/
def breakAt? (needle : List Char) : List Char → Option (List Char × List Char)
  | [] => if needle.isEmpty then some ([], []) else none
  | c :: rest =>
    if needle.isPrefixOf (c :: rest) then some ([], (c :: rest).drop needle.length)
    else (breakAt? needle rest).map fun (before, after) => (c :: before, after)

/-- The parts between the occurrences of a character, one more than there are occurrences. -/
def splitAtChar (sep : Char) : List Char → List (List Char)
  | [] => [[]]
  | c :: rest =>
    if c = sep then [] :: splitAtChar sep rest
    else match splitAtChar sep rest with
      | [] => [[c]]
      | part :: parts => (c :: part) :: parts

end JsonInspect
