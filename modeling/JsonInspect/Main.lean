import JsonInspect.Command.Run
import JsonInspect.Files.SettingsFile

/-! The command line on a real machine: its disk, its standard streams, and the settings in the
home folder. Everything else is decided by `Command.run`. -/

namespace JsonInspect.Machine

/-- The number and the text that the system gives for an error. -/
def systemError? : IO.Error → Option (Nat × String)
  | .alreadyExists _ code text | .inappropriateType _ code text | .interrupted _ code text
  | .invalidArgument _ code text | .noFileOrDirectory _ code text | .noSuchThing _ code text
  | .permissionDenied _ code text | .resourceExhausted _ code text
  | .hardwareFault code text | .illegalOperation code text | .otherError code text
  | .protocolError code text | .resourceBusy code text | .resourceVanished code text
  | .timeExpired code text | .unsatisfiedConstraints code text
  | .unsupportedOperation code text => some (code.toNat, text)
  | .unexpectedEof | .userError _ => none

def fault (e : IO.Error) : DiskFault :=
  match systemError? e with
  | none => .other (toString e)
  | some (2, _) => .missing
  | some (16, _) => .busy
  | some (20, _) => .notFolder
  | some (21, _) => .isFolder
  | some (36, _) => .nameTooLong
  | some (code, text) => .other (text ++ " (os error " ++ toString code ++ ")")

/-- Runs an action and hands out what it fails with. -/
def attempt {α : Type} (action : IO α) : IO (Except DiskFault α) := do
  try pure (.ok (← action)) catch e => pure (.error (fault e))

def readFile (path : String) : IO (Except ReadFault (List UInt8)) := do
  match ← attempt (IO.FS.Handle.mk path .read) with
  | .error fault => pure (.error (.opening fault))
  | .ok handle => do
    match ← attempt handle.readBinToEnd with
    | .error fault => pure (.error (.reading fault))
    | .ok bytes => pure (.ok bytes.data.toList)

def writeFile (path : String) (bytes : List UInt8) : IO Unit :=
  IO.FS.writeBinFile path ⟨bytes.toArray⟩

def copyFile (source target : String) : IO (Except DiskFault Unit) := do
  match ← readFile source with
  | .error (.reading .isFolder) => pure (.error .notRegular)
  | .error fault => pure (.error fault.disk)
  | .ok bytes => attempt (writeFile target bytes)

def disk : Disk IO where
  hasPath path := do pure (← attempt (IO.FS.realPath path)).isOk
  read := readFile
  create path := attempt (writeFile path [])
  write path bytes := attempt (writeFile path bytes)
  copy := copyFile
  rename source target := attempt (IO.FS.rename source target)
  remove path := attempt (IO.FS.removeFile path)
  makeFolders path := attempt (IO.FS.createDirAll path)

def input : Command.Input IO where
  isPiped := do pure !(← (← IO.getStdin).isTty)
  readAll := do pure (← (← IO.getStdin).readBinToEnd).data.toList

/-- The settings in the home folder, the defaults without one. -/
def settings : IO Settings := do
  match ← IO.getEnv "HOME" with
  | none => pure Settings.default
  | some home => Settings.load disk (home ++ "/" ++ Settings.pathBelowHome)

end JsonInspect.Machine

open JsonInspect in
def main (args : List String) : IO UInt32 := do
  let report ← Command.run Machine.disk Machine.input (← Machine.settings) args
  IO.eprint report.errors
  IO.print report.output
  pure report.code.toUInt32
