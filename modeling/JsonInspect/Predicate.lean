import JsonInspect.Failure
import JsonInspect.Path
import JsonInspect.Text.Blank

/-! Predicates such as `age>=18`: a path, an operator and an operand. In a text the operators
are looked for in a fixed order, and the first one that occurs anywhere is the one. -/

namespace JsonInspect

inductive Operator where
  | greaterOrEqual | lessOrEqual | equal | notEqual | greater | less | contains | assigned
deriving DecidableEq

namespace Operator

/-- The order in which operators are looked for: those of two characters come first. -/
def priority : List Operator :=
  [greaterOrEqual, lessOrEqual, equal, notEqual, greater, less, contains, assigned]

def symbol : Operator → String
  | greaterOrEqual => ">="
  | lessOrEqual => "<="
  | equal => "=="
  | notEqual => "!="
  | greater => ">"
  | less => "<"
  | contains => ":"
  | assigned => "="

/-- Applies an operator to two sides, given which of them are in order and which are equal.
Containment is no comparison. -/
def holds {α : Type} (below same : α → α → Bool) : Operator → α → α → Bool
  | greaterOrEqual, a, b => below b a || same a b
  | lessOrEqual, a, b => below a b || same a b
  | equal, a, b => same a b
  | assigned, a, b => same a b
  | notEqual, a, b => !same a b
  | greater, a, b => below b a
  | less, a, b => below a b
  | contains, _, _ => false

end Operator

structure Predicate where
  key : Path
  operator : Operator
  operand : String
deriving DecidableEq

namespace Predicate

/-- The first operator of a list that occurs in a text, with the text before its leftmost
occurrence and the text after it. -/
def breakAtOperator? (text : List Char) :
    List Operator → Option (Operator × List Char × List Char)
  | [] => none
  | op :: rest =>
    match breakAt? op.symbol.toList text with
    | some (before, after) => some (op, before, after)
    | none => breakAtOperator? text rest

/-- Key and operand are trimmed, and the key must not be blank. -/
def parse? (text : String) : Option Predicate :=
  match breakAtOperator? text.toList Operator.priority with
  | none => none
  | some (op, before, after) =>
    let key := trimChars before
    if key.isEmpty then none
    else some ⟨Path.parse (String.ofList key), op, String.ofList (trimChars after)⟩

def parse (text : String) : Except Failure Predicate :=
  match parse? text with
  | some p => .ok p
  | none => .error (.invalidExpression (trim text))

def text (p : Predicate) : String := p.key.text ++ p.operator.symbol ++ p.operand

end Predicate

end JsonInspect
