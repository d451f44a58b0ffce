/-! The least number of insertions, deletions and substitutions of characters that turn one
text into another. -/

namespace JsonInspect

/-- The distances of `x :: xs` to every suffix of a text, from those of `xs`. -/
def EditDistance.extend (x : Char) : List Char → List Nat → List Nat
  | [], below => [below.headD 0 + 1]
  | y :: ys, below =>
    let shorter := EditDistance.extend x ys below.tail
    let substituted := below.tail.headD 0 + (if x = y then 0 else 1)
    min (min (below.headD 0 + 1) (shorter.headD 0 + 1)) substituted :: shorter

/-- The distances of the empty text to every suffix of a text. -/
def EditDistance.base : List Char → List Nat
  | [] => [0]
  | _ :: ys => (ys.length + 1) :: EditDistance.base ys

def editDistance (a b : String) : Nat :=
  (a.toList.foldr (fun x below => EditDistance.extend x b.toList below)
    (EditDistance.base b.toList)).headD 0

/-- Whether two texts are at most `threshold` edits apart. -/
def closeTo (threshold : Nat) (a b : String) : Bool := editDistance a b ≤ threshold

end JsonInspect
