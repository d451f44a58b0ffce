/-! Lengths and places in a text counted in UTF-8 bytes. -/

namespace JsonInspect

def utf8Length (cs : List Char) : Nat := cs.foldr (fun c n => c.utf8Size + n) 0

/-- A line counted from 1 and the number of bytes before the place on that line. -/
structure Place where
  line : Nat
  column : Nat
deriving DecidableEq

namespace Place

/-- The place reached from `start` after the first `bytes` bytes of a text. -/
def advance (start : Place) : List Char → Nat → Place
  | [], _ => start
  | c :: rest, bytes =>
    if bytes = 0 then start
    else if c = '\n' then advance ⟨start.line + 1, 0⟩ rest (bytes - 1)
    else advance ⟨start.line, start.column + min c.utf8Size bytes⟩ rest (bytes - c.utf8Size)

/-- The place after the first `bytes` bytes of a text. -/
def of (cs : List Char) (bytes : Nat) : Place := advance ⟨1, 0⟩ cs bytes

end Place

end JsonInspect
