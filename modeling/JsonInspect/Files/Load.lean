import JsonInspect.Files.Fault
import JsonInspect.Files.Name
import JsonInspect.Gzip.Member

/-! Loading texts. Compressed files are told by their extension or by their first bytes. -/

namespace JsonInspect

/-- The text that compressed bytes hold. -/
def unpackText (bytes : List UInt8) : Except UnpackFault String :=
  match Gzip.unpack bytes with
  | .error fault => .error (.damaged fault)
  | .ok content => (Utf8.decode content).mapError fun _ => .notText

/-- The text of some input, unpacked if it looks compressed. -/
def decodeText (bytes : List UInt8) : Except FileFault String :=
  if Gzip.looksCompressed bytes then (unpackText bytes).mapError .badCompressedInput
  else (Utf8.decode bytes).mapError .notText

/-- The text of a file whose name says that it is compressed. -/
def decodeCompressed (found : Except ReadFault (List UInt8)) : Except FileFault String :=
  match found with
  | .error (.opening fault) => .error (.unopenedCompressed fault)
  | .error (.reading fault) => .error (.badCompressedFile (.unreadable fault))
  | .ok bytes => (unpackText bytes).mapError .badCompressedFile

/-- The text of any other file. -/
def decodePlain (path : String) (found : Except ReadFault (List UInt8)) :
    Except FileFault String :=
  match found with
  | .error fault => .error (.unreadable path fault.disk)
  | .ok bytes => decodeText bytes

/-- Loads the text of a file. -/
def loadText {m : Type → Type} [Monad m] (disk : Disk m) (path : String) :
    m (Except FileFault String) := do
  let found ← disk.read path
  if FilePath.extension? path = some "gz" then pure (decodeCompressed found)
  else pure (decodePlain path found)

end JsonInspect
