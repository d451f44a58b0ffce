import JsonInspect.Failure
import JsonInspect.Path
import JsonInspect.Text.Blank

/-! Renaming the key at a path in every record, in place. -/

namespace JsonInspect

/-- A renamed document and the number of records in which the key was found. -/
structure Renamed where
  value : Json
  count : Nat

/-- Renames the last key of a path in one record and says whether it was there. A key that is
there may keep its name, but not take that of a neighbour. -/
def renameRecord (path : Path) (new : String) (record : Json) : Except Failure (Json × Bool) :=
  match path.last?, record.parentOf path with
  | some old, some (.obj entries) =>
    if !Entries.hasKey entries old then .ok (record, false)
    else if old = new then .ok (record, true)
    else if Entries.hasKey entries new then .error (.renameConflict new)
    else .ok ((record.updateParent (Entries.renameKey old new) path).getD record, true)
  | _, _ => .ok (record, false)

/-- Renames the key at `old` to the last key of `new`, unless either of them is blank. -/
def renameKey (old new : Path) (root : Json) : Except Failure Renamed :=
  match old.last?, new.last? with
  | some oldKey, some newKey =>
    if isBlankText oldKey || isBlankText newKey then .error .blankRename
    else match root with
      | .arr items => do
        let results ← items.mapM (renameRecord old newKey)
        .ok ⟨.arr (results.map Prod.fst), results.countP Prod.snd⟩
      | record => do
        let (value, found) ← renameRecord old newKey record
        .ok ⟨value, found.toNat⟩
  | _, _ => .error .blankRename

end JsonInspect
