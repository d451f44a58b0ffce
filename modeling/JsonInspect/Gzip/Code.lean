import JsonInspect.Gzip.Bits

/-! Canonical prefix codes, given by the length of each symbol's code word. Words of one length
are consecutive numbers in the order of their symbols, and follow those of shorter ones. -/

namespace JsonInspect.Gzip

/-- The longest code word. -/
def greatestLength : Nat := 15

structure Code where
  /-- How many words there are of each length, from one bit on. -/
  counts : List Nat
  /-- The symbols in the order of their words. -/
  symbols : List Nat

namespace Code

def wordLengths : List Nat := (List.range greatestLength).map (· + 1)

/-- The symbols whose words have some length. -/
def symbolsOfLength (lengths : List Nat) (length : Nat) : List Nat :=
  (lengths.zipIdx.filter fun (l, _) => l == length).map Prod.snd

/-- The code of a list of word lengths; symbols of length zero have no word. -/
def ofLengths (lengths : List Nat) : Code :=
  ⟨wordLengths.map fun l => lengths.count l, wordLengths.flatMap (symbolsOfLength lengths)⟩

/-- Whether every sequence of bits starts with one word and no more. -/
def isComplete (c : Code) : Bool :=
  c.counts.foldl (fun total count => 2 * total + count) 0 == Nat.pow 2 greatestLength

/-- Whether a code has no word, or only one, which is a single bit. -/
def isTrivial (c : Code) : Bool := c.symbols.length ≤ 1 && c.counts.tail.all (· == 0)

/-- Reads a word bit by bit: `word` is what was read, `first` the first word of this length
and `index` the number of shorter words. Bits that no word is left for are refused at once. -/
def readFrom (symbols : List Nat) :
    List Nat → Nat → Nat → Nat → Bits → Except Fault (Nat × Bits)
  | [], _, _, _, _ => .error .badDeflate
  | _ :: _, _, _, _, [] => .error .unfinishedDeflate
  | count :: counts, word, first, index, b :: bits =>
    let word := 2 * word + b.toNat
    if word < first + count then
      match symbols[index + (word - first)]? with
      | some symbol => .ok (symbol, bits)
      | none => .error .badDeflate
    else if symbols.length ≤ index + count then .error .badDeflate
    else readFrom symbols counts word (2 * (first + count)) (index + count) bits

/-- Takes one word and gives its symbol. -/
def read (c : Code) (bits : Bits) : Except Fault (Nat × Bits) :=
  readFrom c.symbols c.counts 0 0 0 bits

end Code

end JsonInspect.Gzip
