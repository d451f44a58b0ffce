import JsonInspect.Files.Disk
import JsonInspect.Files.Name
import JsonInspect.Settings
import JsonInspect.Text.Utf8

/-! The file in which settings are kept. -/

namespace JsonInspect.Settings

/-- Where the file lies below the home folder. -/
def pathBelowHome : String := ".config/jsonsieve/config.toml"

/-- Why settings could not be saved. -/
inductive SaveFault where
  | sizeTooLarge
  | disk (fault : DiskFault)
deriving DecidableEq

def SaveFault.message : SaveFault → String
  | sizeTooLarge => sizeMessage
  | disk fault => fault.message

/-- The settings that a file holds. -/
def ofFile (found : Except ReadFault (List UInt8)) : Settings :=
  match found with
  | .error _ => default
  | .ok bytes =>
    match Utf8.decode bytes with
    | .error _ => default
    | .ok text => ofText text

section

variable {m : Type → Type} [Monad m]

def load (diskAt : Disk m) (path : String) : m Settings := do
  let found ← diskAt.read path
  pure (ofFile found)

/-- Saves settings and makes the folders that the file needs. -/
def save (diskAt : Disk m) (path : String) (s : Settings) : m (Except SaveFault Unit) := do
  match ← diskAt.makeFolders (FilePath.folder path) with
  | .error fault => pure (.error (.disk fault))
  | .ok () =>
    match s.toText? with
    | none => pure (.error .sizeTooLarge)
    | some text => do
      match ← diskAt.create path with
      | .error fault => pure (.error (.disk fault))
      | .ok () => do
        let written ← diskAt.write path (Utf8.encode text)
        pure (written.mapError .disk)

end

end JsonInspect.Settings
