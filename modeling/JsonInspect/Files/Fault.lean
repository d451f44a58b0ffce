import JsonInspect.Files.Disk
import JsonInspect.Gzip.Bits
import JsonInspect.Json.Fault
import JsonInspect.Text.Utf8

/-! Why a text could not be loaded or saved: what was being done, and the causes below it. -/

namespace JsonInspect

/-- Why compressed bytes give no text. -/
inductive UnpackFault where
  | damaged (fault : Gzip.Fault)
  | notText
  | unreadable (fault : DiskFault)
deriving DecidableEq

def UnpackFault.message : UnpackFault → String
  | damaged fault => fault.message
  | notText => "stream did not contain valid UTF-8"
  | unreadable fault => fault.message

inductive FileFault where
  | unreadable (path : String) (fault : DiskFault)
  | notText (fault : Utf8.Fault)
  | badCompressedInput (fault : UnpackFault)
  | unopenedCompressed (fault : DiskFault)
  | badCompressedFile (fault : UnpackFault)
  | invalidOutput (error : Json.ReadError)
  | nameless
  | backup (fault : DiskFault)
  | temporaryWrite (fault : DiskFault)
  | temporaryCreation (fault : DiskFault)
  | compressedWrite (fault : DiskFault)
  | temporaryRename (fault : DiskFault)
  | noInput
  | unloaded (path : String) (fault : FileFault)
deriving DecidableEq

namespace FileFault

def message : FileFault → String
  | unreadable path _ => "Failed to read file " ++ path
  | notText _ => "Input is not valid UTF-8"
  | badCompressedInput _ => "Failed to decompress gzipped input"
  | unopenedCompressed _ => "Failed to open gzipped file"
  | badCompressedFile _ => "Failed to decompress gzipped file - file may be corrupted"
  | invalidOutput _ => "Refusing to save invalid JSON"
  | nameless => "Invalid file name"
  | backup _ => "Failed to create backup"
  | temporaryWrite _ => "Failed to write temp file"
  | temporaryCreation _ => "Failed to create temp file"
  | compressedWrite _ => "Failed to write compressed data"
  | temporaryRename _ => "Failed to rename temp file"
  | noInput => "No input: pass a FILE or pipe JSON on stdin"
  | unloaded path _ => "Failed to load " ++ path

/-- The texts of the causes, the nearest one first. -/
def causes : FileFault → List String
  | unreadable _ fault => [fault.message]
  | notText fault => [fault.message]
  | badCompressedInput fault => [fault.message]
  | unopenedCompressed fault => [fault.message]
  | badCompressedFile fault => [fault.message]
  | invalidOutput error => [error.message]
  | nameless => []
  | backup fault => [fault.message]
  | temporaryWrite fault => [fault.message]
  | temporaryCreation fault => [fault.message]
  | compressedWrite fault => [fault.message]
  | temporaryRename fault => [fault.message]
  | noInput => []
  | unloaded _ fault => fault.message :: fault.causes

end FileFault

end JsonInspect
