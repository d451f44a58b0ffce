import JsonInspect.Failure
import JsonInspect.Path

/-! Partitioning the elements of an array by the value at a path. -/

namespace JsonInspect

/-- Buckets of records in the order of their first records, each in document order. -/
structure Groups where
  buckets : List (String × List Json)

namespace Groups

/-- The bucket of the records in which the path leads nowhere. -/
def undefinedBucket : String := "__undefined__"

/-- The bucket of the records in which the path leads to null. -/
def nullBucket : String := "__null__"

def bucketOf (key : Path) (record : Json) : String :=
  match record.resolve key with
  | none => undefinedBucket
  | some .null => nullBucket
  | some field => field.stringForm

def count (g : Groups) : Nat := g.buckets.length

/-- An object with an array for each bucket. -/
def toJson (g : Groups) : Json := .obj (g.buckets.map fun (name, items) => (name, .arr items))

end Groups

/-- Groups the elements of an array; no other root has any. -/
def groupBy (key : Path) : Json → Except Failure Groups
  | .arr items =>
    .ok ⟨items.foldl
      (fun buckets item => Entries.append (Groups.bucketOf key item) item buckets) []⟩
  | root => .error (.unsupportedShape .group root.kind)

end JsonInspect
