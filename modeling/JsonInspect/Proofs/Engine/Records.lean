import JsonInspect.Proofs.Lists
import JsonInspect.Rename
import JsonInspect.Session

/-! # A document and its records

Renaming and assigning run through the records of a document and put what they make of each in its
place (`renameKey_eq`, `assignAll_eq`), whether the document is an array or is its only record. -/

namespace JsonInspect

namespace Json

theorem records_of_isArray {v : Json} (h : v.isArray = false) : v.records = [v] := by
  cases v with
  | arr items => cases h
  | _ => rfl

def withRecords (records : List Json) : Json → Json
  | arr _ => arr records
  | v => records.headD v

theorem withRecords_of_isArray {v : Json} (h : v.isArray = false) (record : Json) :
    v.withRecords [record] = record := by
  cases v with
  | arr items => cases h
  | _ => rfl

theorem withRecords_records {root v : Json} (h : v.isArray = root.isArray) :
    v.withRecords root.records = root := by
  cases root with
  | arr items =>
    cases v with
    | arr _ => rfl
    | _ => cases h
  | _ =>
    cases v with
    | arr _ => cases h
    | _ => rfl

end Json

variable {old new : Path} {oldKey newKey : String} {root : Json} {renamed : Renamed}

theorem renameKey_eq (old new : Path) (root : Json) : renameKey old new root =
    match old.last?, new.last? with
    | some oldKey, some newKey =>
      if isBlankText oldKey || isBlankText newKey then .error .blankRename
      else (root.records.mapM (renameRecord old newKey)).map fun results =>
        ⟨root.withRecords (results.map Prod.fst), results.countP Prod.snd⟩
    | _, _ => .error .blankRename := by
  unfold renameKey
  cases old.last? with
  | none => rfl
  | some oldKey =>
    cases new.last? with
    | none => rfl
    | some newKey =>
      refine ite_congr rfl (fun _ => rfl) fun _ => ?_
      cases root with
      | arr items =>
        simp only [Json.records]
        cases items.mapM (renameRecord old newKey) <;> rfl
      | _ =>
        simp only [Json.records, List.mapM_cons, List.mapM_nil]
        cases renameRecord old newKey _ with
        | error e => rfl
        | ok result => obtain ⟨v, _ | _⟩ := result <;> rfl

theorem renameKey_of_last? (hold : old.last? = some oldKey) (hnew : new.last? = some newKey)
    (hblank : isBlankText oldKey = false) (hblank' : isBlankText newKey = false) :
    renameKey old new root = (root.records.mapM (renameRecord old newKey)).map fun results =>
      ⟨root.withRecords (results.map Prod.fst), results.countP Prod.snd⟩ := by
  simp [renameKey_eq, hold, hnew, hblank, hblank']

/-- What is known of a renaming that succeeds. -/
theorem exists_of_renameKey (h : renameKey old new root = .ok renamed) :
    ∃ oldKey newKey results, old.last? = some oldKey ∧ new.last? = some newKey ∧
      isBlankText oldKey = false ∧ isBlankText newKey = false ∧
      root.records.mapM (renameRecord old newKey) = .ok results ∧
      renamed = ⟨root.withRecords (results.map Prod.fst), results.countP Prod.snd⟩ := by
  rw [renameKey_eq] at h
  split at h
  · rename_i oldKey newKey hold hnew
    split at h
    · cases h
    · rename_i hblank
      rw [Bool.or_eq_true, not_or, Bool.not_eq_true, Bool.not_eq_true] at hblank
      cases hresults : root.records.mapM (renameRecord old newKey) with
      | error e =>
        rw [hresults] at h
        cases h
      | ok results =>
        rw [hresults] at h
        cases h
        exact ⟨oldKey, newKey, results, hold, hnew, hblank.1, hblank.2, hresults, rfl⟩
  · cases h

theorem assignAll_eq (path : Path) (value root : Json) : Session.assignAll path value root =
    (root.withRecords (root.records.map fun record => (record.assign path value).getD record),
      root.records.countP fun record => (record.assign path value).isSome) := by
  unfold Session.assignAll
  split
  · simp only [Json.records, Json.withRecords, List.map_map, List.countP_map, Function.comp_def]
  · rename_i harr
    have hroot : root.isArray = false := by
      cases root with
      | arr items => exact absurd rfl (harr items)
      | _ => rfl
    rw [Json.records_of_isArray hroot, List.map_singleton, Json.withRecords_of_isArray hroot,
      List.countP_singleton]
    cases root.assign path value <;> rfl

end JsonInspect
