/-! The parts of a file path as written: its last name, that name's extension, and the paths
that differ from it in nothing else. -/

namespace JsonInspect.FilePath

/-- A path with its characters turned round, without slashes and lone dots at its end. -/
def withoutTail : List Char → List Char
  | '/' :: rest => withoutTail rest
  | '.' :: '/' :: rest => withoutTail rest
  | cs => cs

/-- What stands before the last name of a path, and that name. Two dots are no name. -/
def split? (path : String) : Option (List Char × List Char) :=
  let turned := withoutTail path.toList.reverse
  let name := (turned.takeWhile (· != '/')).reverse
  let folder := (turned.dropWhile (· != '/')).reverse
  if name = [] ∨ name = ['.'] ∨ name = ['.', '.'] then none else some (folder, name)

/-- The parts of a name before and after its last dot. A dot at its start does not count. -/
def splitName? (name : List Char) : Option (List Char × List Char) :=
  let turned := name.reverse
  match turned.dropWhile (· != '.') with
  | [] => none
  | _ :: stem =>
    if stem.isEmpty then none
    else some (stem.reverse, (turned.takeWhile (· != '.')).reverse)

def extension? (path : String) : Option String := do
  let (_, name) ← split? path
  let (_, extension) ← splitName? name
  some (String.ofList extension)

/-- The path with another extension, which is added if there was none. The old one is taken off
the end of the path first; where that leaves no name, as two dots are none, nothing is added. -/
def withExtension (path extension : String) : String :=
  let old := (extension? path).getD ""
  let kept := String.ofList (path.toList.take (path.length - old.length))
  match split? kept with
  | none => kept
  | some (folder, name) =>
    let stem := ((splitName? name).map Prod.fst).getD name
    String.ofList (folder ++ stem ++ '.' :: extension.toList)

/-- The path of a neighbour whose name has something added to it. -/
def withSuffix? (path added : String) : Option String :=
  (split? path).map fun (folder, name) => String.ofList (folder ++ name ++ added.toList)

/-- The path without its last part, which may also be two dots. -/
def folder (path : String) : String :=
  let turned := withoutTail path.toList.reverse
  String.ofList (withoutTail (turned.dropWhile (· != '/'))).reverse

end JsonInspect.FilePath
