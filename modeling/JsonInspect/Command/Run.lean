import JsonInspect.Command.Arguments
import JsonInspect.Files.Load
import JsonInspect.Files.Save
import JsonInspect.Settings

/-! Carrying out a command line: reading the document, running one operation on it, and
printing or saving what comes out. -/

namespace JsonInspect.Command

/-- What a run leaves behind apart from files. -/
structure Report where
  code : Nat
  output : String
  errors : String
deriving DecidableEq

/-- The result of an action: a text, whether it is JSON, and a status to report. -/
structure Product where
  text : String
  isJson : Bool
  status : Option Status

def statusLine (s : Status) : String :=
  (match s.severity with
    | .info => ""
    | .warning => "warning: "
    | .error => "error: ") ++ s.text ++ "\n"

/-- The session of a search, with the command's own way of matching. -/
def searching (s : Session) (fuzzy : Bool) (threshold : Option Nat) : Session :=
  let m := s.options.matching
  s.setOptions { s.options with matching := ⟨m.fuzzy || fuzzy, threshold.getD m.threshold⟩ }

/-- The changed document with its status. -/
def changedText (result : Except Failure (Session × Status)) : Except Failure Product := do
  let (s, status) ← result
  .ok ⟨s.text, true, some status⟩

def perform (settings : Settings) (s : Session) : Action → Except Failure Product
  | .format => do
    let formatted ← s.format
    .ok ⟨formatted.pretty, true, none⟩
  | .keys => do
    let formatted ← s.format
    .ok ⟨"\n".intercalate formatted.keys, false,
      some (.info (toString formatted.keys.length ++ " keys"))⟩
  | .query request fuzzy threshold html => do
    let outcome ← (searching s fuzzy threshold).search request
    .ok (if html then ⟨outcome.html, false, some outcome.status⟩
      else ⟨outcome.output, true, some outcome.status⟩)
  | .group key => changedText (s.group key)
  | .rename old new => changedText (s.rename old new)
  | .set key value => changedText (s.set key value)
  | .aggregate mode keepOriginal =>
    let options := settings.aggregateOptions
    changedText (s.aggregate ⟨mode.getD options.mode, options.removal && !keepOriginal⟩)

/-! ## Errors -/

/-- A text whose lines after the first one are indented. -/
def indentLines (width : Nat) (s : String) : String :=
  String.ofList (s.toList.flatMap fun c =>
    if c = '\n' then '\n' :: List.replicate width ' ' else [c])

/-- Causes with their numbers, one a line. -/
def numbered : Nat → List String → String
  | _, [] => ""
  | n, cause :: rest =>
    "    " ++ toString n ++ ": " ++ indentLines 7 cause ++ "\n" ++ numbered (n + 1) rest

/-- An error and its causes; a lone cause has no number. -/
def errorText (message : String) (causes : List String) : String :=
  "Error: " ++ message ++ "\n" ++
    match causes with
    | [] => ""
    | [cause] => "\nCaused by:\n    " ++ indentLines 4 cause ++ "\n"
    | causes => "\nCaused by:\n" ++ numbered 0 causes

def fileError (fault : FileFault) : String := errorText fault.message fault.causes

/-! ## Running -/

section

variable {m : Type → Type} [Monad m]

/-- Where the document comes from if no file is named. -/
structure Input (m : Type → Type) where
  /-- Whether there is anything but a person at a keyboard. -/
  isPiped : m Bool
  readAll : m (List UInt8)

/-- Reads the document. A lone dash stands for the input. -/
def readDocument (disk : Disk m) (input : Input m) : Option String → m (Except FileFault String)
  | none => do
    if ← input.isPiped then
      let bytes ← input.readAll
      pure (decodeText bytes)
    else pure (.error .noInput)
  | some path =>
    if path = "-" then do
      let bytes ← input.readAll
      pure (decodeText bytes)
    else do
      let text ← loadText disk path
      pure (text.mapError (.unloaded path))

/-- Prints or saves a product. -/
def deliver (disk : Disk m) (settings : Settings) (output : Option String) (p : Product) :
    m Report := do
  let status := (p.status.map statusLine).getD ""
  match output with
  | none => pure ⟨0, p.text ++ "\n", status⟩
  | some path => do
    let saved ←
      if p.isJson then saveOutput disk settings.createBackup path p.text
      else saveText disk settings.createBackup path p.text
    match saved with
    | .ok () => pure ⟨0, "", status ++ "Saved " ++ path ++ "\n"⟩
    | .error fault => pure ⟨1, "", status ++ fileError fault⟩

/-- Carries out an invocation. -/
def execute (disk : Disk m) (input : Input m) (settings : Settings) (inv : Invocation) :
    m Report := do
  match ← readDocument disk input inv.file with
  | .error fault => pure ⟨1, "", fileError fault⟩
  | .ok text =>
    match perform settings (Session.start text settings.sessionOptions) inv.action with
    | .error failure => pure ⟨1, "", errorText failure.message []⟩
    | .ok p => deliver disk settings inv.output p

/-- The program's name and version. -/
def versionLine : String := "jsonsieve 0.1.0\n"

/-- What a command line that is not carried out leaves behind. -/
def stopReport : Stop → Report
  | .usage => ⟨2, "", ""⟩
  | .help => ⟨0, "", ""⟩
  | .version => ⟨0, versionLine, ""⟩

/-- Runs a command line. -/
def run (disk : Disk m) (input : Input m) (settings : Settings) (args : List String) :
    m Report :=
  match parse args with
  | .error stop => pure (stopReport stop)
  | .ok inv => execute disk input settings inv

end

end JsonInspect.Command
