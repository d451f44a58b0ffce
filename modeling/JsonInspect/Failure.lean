import JsonInspect.Json.Basic
import JsonInspect.Json.Fault

/-! Why an operation on a document was refused. None of these changes the document. -/

namespace JsonInspect

/-- The operations that need a root of one kind. -/
inductive ShapedOperation where
  | group | aggregate
deriving DecidableEq

def ShapedOperation.name : ShapedOperation → String
  | .group => "group"
  | .aggregate => "aggregate"

inductive Failure where
  | invalidJson (error : Json.ReadError)
  | invalidExpression (expression : String)
  | missingKey
  | unsupportedShape (operation : ShapedOperation) (found : Kind)
  | blankRename
  | renameConflict (key : String)
deriving DecidableEq

/-- How serious a status is. -/
inductive Severity where
  | info | warning | error
deriving DecidableEq

namespace Failure

def message : Failure → String
  | invalidJson e => "Invalid JSON: " ++ e.message
  | invalidExpression expression => "Invalid expression: " ++ expression
  | missingKey => "Enter a key to search"
  | unsupportedShape operation found =>
    "Cannot " ++ operation.name ++ ": root is " ++ found.name
  | blankRename => "Rename needs both an old and a new key"
  | renameConflict key => "Key '" ++ key ++ "' already exists"

/-- A text that is no JSON is an error; a request that does not fit is a warning. -/
def severity : Failure → Severity
  | invalidJson _ => .error
  | _ => .warning

end Failure

end JsonInspect
