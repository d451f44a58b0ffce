/-! What is asked of a disk, in any monad, and what it may answer. A path is a text; what it
leads to is the disk's business. -/

namespace JsonInspect

inductive DiskFault where
  | missing | notFolder | isFolder | busy | notRegular | nameTooLong | nulInPath
  | other (text : String)
deriving DecidableEq

def DiskFault.message : DiskFault → String
  | missing => "No such file or directory (os error 2)"
  | notFolder => "Not a directory (os error 20)"
  | isFolder => "Is a directory (os error 21)"
  | busy => "Device or resource busy (os error 16)"
  | notRegular => "the source path is neither a regular file nor a symlink to a regular file"
  | nameTooLong => "File name too long (os error 36)"
  | nulInPath => "file name contained an unexpected NUL byte"
  | other text => text

/-- A file that cannot be opened, or that is open and cannot be read. -/
inductive ReadFault where
  | opening (fault : DiskFault)
  | reading (fault : DiskFault)
deriving DecidableEq

def ReadFault.disk : ReadFault → DiskFault
  | opening fault => fault
  | reading fault => fault

structure Disk (m : Type → Type) where
  /-- Whether a path leads to anything. -/
  hasPath : String → m Bool
  read : String → m (Except ReadFault (List UInt8))
  /-- Makes a file empty, or a new empty file. -/
  create : String → m (Except DiskFault Unit)
  /-- Gives a file that was created its content. -/
  write : String → List UInt8 → m (Except DiskFault Unit)
  copy : String → String → m (Except DiskFault Unit)
  /-- Moves a file to a path, in place of a file that is there. -/
  rename : String → String → m (Except DiskFault Unit)
  /-- Removes a file. -/
  remove : String → m (Except DiskFault Unit)
  /-- Makes a folder and the folders above it. -/
  makeFolders : String → m (Except DiskFault Unit)

end JsonInspect
