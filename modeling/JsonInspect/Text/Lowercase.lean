import JsonInspect.Text.CaseTable

/-! Lower-casing a text. Each character is mapped on its own, except that a capital sigma at
the end of a word becomes a final sigma. -/

namespace JsonInspect

def inRanges (ranges : List (Nat × Nat)) (c : Char) : Bool :=
  ranges.any fun r => r.1 ≤ c.toNat && c.toNat ≤ r.2

def isCaseIgnorable (c : Char) : Bool := inRanges caseIgnorableRanges c

def isCased (c : Char) : Bool := inRanges casedRanges c

/-- The lower case of one character. A dotted capital I becomes two characters. -/
def lowerChar (c : Char) : List Char :=
  if c.toNat < 0x80 then [c.toLower]
  else if c = '\u0130' then ['i', '\u0307']
  else match caseRuns.find? (·.covers c.toNat) with
    | some run => [Char.ofNat (c.toNat + run.offset).toNat]
    | none => [c]

/-- Whether a text starts with a cased letter, ignorable characters apart. -/
def startsCased (cs : List Char) : Bool :=
  ((cs.dropWhile isCaseIgnorable).head?.map isCased).getD false

/-- Lower-cases what follows a cased letter, ignorable characters apart, or does not. -/
def lowerFrom : Bool → List Char → List Char
  | _, [] => []
  | afterCased, c :: rest =>
    (if c = '\u03a3' then [if afterCased && !startsCased rest then '\u03c2' else '\u03c3']
      else lowerChar c) ++
      lowerFrom (if isCaseIgnorable c then afterCased else isCased c) rest

def lowerChars (cs : List Char) : List Char := lowerFrom false cs

def lower (s : String) : String := String.ofList (lowerChars s.toList)

end JsonInspect
