import JsonInspect.Files.Fault
import JsonInspect.Files.Name
import JsonInspect.Gzip.Member
import JsonInspect.Json.Reader

/-! Saving texts. A text is written to a temporary file, which then takes the target's place,
so that the target is never half written. -/

namespace JsonInspect

/-- Whether a path asks for compression. -/
def asksCompression (path : String) : Bool := ['z', 'g', '.'].isPrefixOf path.toList.reverse

/-- The text with a line end at its end. -/
def withLineEnd (text : String) : String :=
  if text.toList.getLast? = some '\n' then text else String.ofList (text.toList ++ ['\n'])

/-- The bytes that are written for a text, packed by `pack` if they are to be compressed. -/
def fileBytes (pack : List UInt8 → List UInt8) (compress : Bool) (text : String) : List UInt8 :=
  let bytes := Utf8.encode (withLineEnd text)
  if compress then pack bytes else bytes

/-- The path of the temporary file. -/
def temporaryPath (path : String) : String := FilePath.withExtension path "tmp"

section

variable {m : Type → Type} [Monad m]

/-- Goes on only after a success, and says what a fault was met in. -/
def andThen {ε α β : Type} (first : m (Except ε α)) (what : ε → FileFault)
    (next : α → m (Except FileFault β)) : m (Except FileFault β) := do
  match ← first with
  | .error fault => pure (.error (what fault))
  | .ok a => next a

/-- Copies a file that is about to be replaced to the same name with an ending. -/
def keepBackup (disk : Disk m) (path : String) : m (Except FileFault Unit) :=
  match FilePath.withSuffix? path ".bak" with
  | none => pure (.error .nameless)
  | some backup => andThen (disk.copy path backup) .backup fun _ => pure (.ok ())

/-- Writes a new file. -/
def writeTemporary (disk : Disk m) (path : String) (compress : Bool) (bytes : List UInt8) :
    m (Except FileFault Unit) :=
  andThen (disk.create path) (if compress then .temporaryCreation else .temporaryWrite) fun _ =>
  andThen (disk.write path bytes) (if compress then .compressedWrite else .temporaryWrite)
    fun _ => pure (.ok ())

/-- Writes a file by way of a temporary one, which is removed if that fails. -/
def replaceFile (disk : Disk m) (path : String) (compress : Bool) (bytes : List UInt8) :
    m (Except FileFault Unit) := do
  let temporary := temporaryPath path
  let result ← andThen (writeTemporary disk temporary compress bytes) id fun _ =>
    andThen (disk.rename temporary path) .temporaryRename fun _ => pure (.ok ())
  match result with
  | .ok () => pure (.ok ())
  | .error fault => do
    if ← disk.hasPath temporary then
      let _ ← disk.remove temporary
    pure (.error fault)

/-- Saves any text, with a backup of what was there if that is wished for. Which of the many
packed forms of the bytes is written is up to `pack`. -/
def saveTextWith (pack : List UInt8 → List UInt8) (disk : Disk m) (backup : Bool)
    (path text : String) : m (Except FileFault Unit) := do
  let needed ← if backup then disk.hasPath path else pure false
  let compress := asksCompression path
  let save := replaceFile disk path compress (fileBytes pack compress text)
  if needed then andThen (keepBackup disk path) id fun _ => save else save

/-- Saves a text that has to be JSON. -/
def saveOutputWith (pack : List UInt8 → List UInt8) (disk : Disk m) (backup : Bool)
    (path text : String) : m (Except FileFault Unit) :=
  match Json.read text with
  | .error error => pure (.error (.invalidOutput error))
  | .ok _ => saveTextWith pack disk backup path text

def saveText (disk : Disk m) (backup : Bool) (path text : String) : m (Except FileFault Unit) :=
  saveTextWith Gzip.pack disk backup path text

def saveOutput (disk : Disk m) (backup : Bool) (path text : String) :
    m (Except FileFault Unit) :=
  saveOutputWith Gzip.pack disk backup path text

end

end JsonInspect
