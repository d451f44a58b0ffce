import JsonInspect.Files.Disk
import JsonInspect.Text.Search

/-! A volume of files and folders, as a value. It does what a disk does when nothing fails on
its own. -/

namespace JsonInspect

inductive Volume.Entry where
  | file (bytes : List UInt8)
  | folder
deriving DecidableEq

/-- What is found at each place. A place is the list of names that lead to it from the folder
in which all paths start; that folder itself is always there. -/
structure Volume where
  entries : List (List String × Volume.Entry)

namespace Volume

def empty : Volume := ⟨[]⟩

def entry? (v : Volume) (place : List String) : Option Entry :=
  if place.isEmpty then some .folder else v.entries.lookup place

def erase (v : Volume) (place : List String) : Volume :=
  ⟨v.entries.filter fun (p, _) => p != place⟩

def put (v : Volume) (place : List String) (e : Entry) : Volume :=
  ⟨(place, e) :: (v.erase place).entries⟩

/-! ## Following paths -/

/-- The names of a path, lone dots among them, and whether a slash ends it. -/
structure Route where
  names : List String
  endsInSlash : Bool

def Route.of (path : String) : Route :=
  let parts := (splitAtChar '/' path.toList).map String.ofList
  ⟨parts.filter (!·.isEmpty), parts.getLast? == some "" && !path.isEmpty⟩

/-- How many bytes a name may have. -/
def greatestName : Nat := 255

/-- How many bytes a path may have. -/
def greatestPath : Nat := 4095

/-- The route of a path that has a length and a form that a disk takes at all. -/
def routeOf (path : String) : Except DiskFault Route :=
  if path.toList.contains '\x00' then .error .nulInPath
  else if greatestPath < path.utf8ByteSize then .error .nameTooLong
  else .ok (Route.of path)

/-- Goes on by one name from a place, which has to be a folder. -/
def step (v : Volume) (place : List String) (name : String) : Except DiskFault (List String) :=
  match v.entry? place with
  | none => .error .missing
  | some (.file _) => .error .notFolder
  | some .folder =>
    if name = "." then .ok place
    else if name = ".." then .ok place.dropLast
    else if greatestName < name.utf8ByteSize then .error .nameTooLong
    else .ok (place ++ [name])

/-- The place that a path leads to, where something is or something new may be put. -/
def locate (v : Volume) (path : String) : Except DiskFault (List String) := do
  let route ← routeOf path
  if path.isEmpty then .error .missing
  else route.names.foldlM v.step []

/-- What a path leads to. Only a folder can have a slash behind it. -/
def find (v : Volume) (path : String) : Except DiskFault (List String × Entry) := do
  let place ← v.locate path
  match v.entry? place with
  | none => .error .missing
  | some (.file bytes) =>
    if (Route.of path).endsInSlash then .error .notFolder else .ok (place, .file bytes)
  | some .folder => .ok (place, .folder)

/-! ## Operations -/

def hasPath (v : Volume) (path : String) : Bool := (v.find path).isOk

def read (v : Volume) (path : String) : Except ReadFault (List UInt8) :=
  match v.find path with
  | .error fault => .error (.opening fault)
  | .ok (_, .folder) => .error (.reading .isFolder)
  | .ok (_, .file bytes) => .ok bytes

/-- The place at which a path lets a file be written. -/
def writable (v : Volume) (path : String) : Except DiskFault (List String) := do
  let place ← v.locate path
  match v.entry? place with
  | some .folder => .error .isFolder
  | _ => if (Route.of path).endsInSlash then .error .isFolder else .ok place

/-- Puts a file with some content in the place of a path. -/
def write (v : Volume) (path : String) (bytes : List UInt8) : Except DiskFault Volume := do
  let place ← v.writable path
  .ok (v.put place (.file bytes))

def copy (v : Volume) (source target : String) : Except DiskFault Volume := do
  match ← v.find source with
  | (_, .folder) => .error .notRegular
  | (_, .file bytes) => v.write target bytes

/-- The place at which a path lets a file be moved. -/
def movable (v : Volume) (path : String) : Except DiskFault (List String) := do
  let route := Route.of path
  let place ← v.locate path
  if route.names.getLast? = some "." ∨ route.names.getLast? = some ".." ∨ route.names = [] then
    .error .busy
  else if route.endsInSlash then .error .notFolder
  else match v.entry? place with
    | some .folder => .error .isFolder
    | _ => .ok place

def rename (v : Volume) (source target : String) : Except DiskFault Volume := do
  match ← v.find source with
  | (_, .folder) => .error .isFolder
  | (place, .file bytes) =>
    let goal ← v.movable target
    .ok ((v.erase place).put goal (.file bytes))

def remove (v : Volume) (path : String) : Except DiskFault Volume := do
  match ← v.find path with
  | (_, .folder) => .error .isFolder
  | (place, .file _) => .ok (v.erase place)

/-- Makes the folder at a place below one that is there. -/
def makeFolder (v : Volume) (place : List String) : Except DiskFault Volume :=
  match v.entry? place with
  | some .folder => .ok v
  | some (.file _) => .error .notFolder
  | none => .ok (v.put place .folder)

/-- Makes every folder on the way along some names. -/
def makeFoldersFrom (v : Volume) (place : List String) : List String → Except DiskFault Volume
  | [] => .ok v
  | name :: rest => do
    let place ← v.step place name
    let v ← v.makeFolder place
    makeFoldersFrom v place rest

def makeFolders (v : Volume) (path : String) : Except DiskFault Volume := do
  let route ← routeOf path
  v.makeFoldersFrom [] route.names

/-! ## As a disk -/

/-- Runs an operation that changes the volume if it succeeds. -/
def change (f : Volume → Except DiskFault Volume) : StateM Volume (Except DiskFault Unit) := do
  match f (← get) with
  | .ok v => do
    set v
    pure (.ok ())
  | .error fault => pure (.error fault)

/-- The disk whose state is a volume. -/
def disk : Disk (StateM Volume) where
  hasPath path := do pure ((← get).hasPath path)
  read path := do pure ((← get).read path)
  create path := change (·.write path [])
  write path bytes := change (·.write path bytes)
  copy source target := change (·.copy source target)
  rename source target := change (·.rename source target)
  remove path := change (·.remove path)
  makeFolders path := change (·.makeFolders path)

end Volume

end JsonInspect
