import JsonInspect.Aggregate
import JsonInspect.Group
import JsonInspect.Proofs.Engine.Records
import JsonInspect.Proofs.Json.Reread

/-! # Transforming what a text reads back as

Every transformation commutes with rereading: it looks at keys and texts, which rereading keeps,
and moves values around without looking into their numbers. -/

namespace JsonInspect

namespace Json

/-! ## Paths -/

theorem walk_reread (keys : List String) (v : Json) :
    walk keys v.reread = (walk keys v).map reread := by
  induction keys generalizing v with
  | nil => rfl
  | cons key rest ih =>
    cases v with
    | obj entries =>
      rw [reread_obj, walk, walk, Entries.lookup_mapValues]
      cases entries.lookup key with
      | none => rfl
      | some child => exact ih child
    | _ => rfl

theorem resolve_reread (path : Path) (v : Json) :
    v.reread.resolve path = (v.resolve path).map reread := by
  unfold resolve
  split
  · rfl
  · exact walk_reread path.segments v

theorem parentOf_reread (path : Path) (v : Json) :
    v.reread.parentOf path = (v.parentOf path).map reread := by
  unfold parentOf
  split
  · rfl
  · rw [walk_reread]
    cases walk path.segments.dropLast v with
    | none => rfl
    | some parent =>
      simp only [Option.map_some, Option.filter_some, isObject_reread]
      cases parent.isObject <;> rfl

theorem updateAt_reread {change change' : Json → Option Json}
    (h : ∀ u, change' u.reread = (change u).map reread) (keys : List String) (v : Json) :
    updateAt change' keys v.reread = (updateAt change keys v).map reread := by
  induction keys generalizing v with
  | nil => exact h v
  | cons key rest ih =>
    cases v with
    | obj entries =>
      rw [reread_obj, updateAt, updateAt, Entries.lookup_mapValues]
      cases entries.lookup key with
      | none => rfl
      | some child =>
        simp only [Option.map_some, ih child, Option.map_map]
        refine congrArg (Option.map · (updateAt change rest child)) (funext fun u => ?_)
        simp only [Function.comp_apply, reread_obj, Entries.put_mapValues]
    | _ => rfl

theorem updateParent_reread
    {change change' : List (String × Json) → List (String × Json)}
    (h : ∀ entries, change' (Entries.mapValues reread entries) =
      Entries.mapValues reread (change entries)) (path : Path) (v : Json) :
    updateParent change' path v.reread = (updateParent change path v).map reread := by
  unfold updateParent
  split
  · rfl
  · refine updateAt_reread (fun u => ?_) _ v
    cases u with
    | obj entries => simp only [reread_obj, h, Option.map_some]
    | _ => rfl

theorem assign_reread (v : Json) (path : Path) (w : Json) :
    v.reread.assign path w.reread = (v.assign path w).map reread := by
  unfold assign
  split
  · rfl
  · exact updateParent_reread (fun entries => Entries.put_mapValues reread _ w entries) path v

end Json

open Json

/-! ## Grouping -/

def Groups.reread (g : Groups) : Groups := ⟨Entries.mapValues (List.map Json.reread) g.buckets⟩

theorem Groups.count_reread (g : Groups) : g.reread.count = g.count := by
  rw [count, reread, Entries.mapValues, List.length_map, count]

theorem Groups.toJson_eq (g : Groups) : g.toJson = .obj (Entries.mapValues .arr g.buckets) := rfl

theorem Groups.toJson_reread (g : Groups) : g.reread.toJson = g.toJson.reread := by
  simp [toJson_eq, reread, Entries.mapValues]

theorem Groups.bucketOf_reread (key : Path) (record : Json) :
    bucketOf key record.reread = bucketOf key record := by
  unfold bucketOf
  rw [resolve_reread]
  cases record.resolve key with
  | none => rfl
  | some field =>
    cases field with
    | null => rfl
    | bool b => rfl
    | num n => exact Number.text_reread n
    | str s => rfl
    | arr items => exact stringForm_reread (.arr items)
    | obj entries => exact stringForm_reread (.obj entries)

theorem groupBy_arr (key : Path) (items : List Json) :
    groupBy key (.arr items) =
      .ok ⟨Entries.gather (items.map fun item => (Groups.bucketOf key item, item))⟩ := by
  rw [Entries.gather, List.foldl_map, groupBy]

theorem groupBy_reread (key : Path) (v : Json) :
    groupBy key v.reread = (groupBy key v).map Groups.reread := by
  cases v with
  | arr items =>
    have hpairs : (items.map Json.reread).map (fun item => (Groups.bucketOf key item, item)) =
        Entries.mapValues Json.reread
          (items.map fun item => (Groups.bucketOf key item, item)) := by
      simp [Entries.mapValues, Groups.bucketOf_reread]
    rw [reread_arr, groupBy_arr, groupBy_arr, hpairs, Entries.gather_mapValues]
    rfl
  | _ => rfl

/-! ## Renaming -/

theorem records_reread (v : Json) : v.reread.records = v.records.map Json.reread := by
  cases v with
  | arr items => rw [reread_arr, records, records]
  | _ => rfl

theorem withRecords_reread (records : List Json) (v : Json) :
    v.reread.withRecords (records.map Json.reread) = (v.withRecords records).reread := by
  cases v with
  | arr items => rw [reread_arr, withRecords, withRecords, reread_arr]
  | _ => cases records <;> rfl

theorem mapM_map {α β γ δ ε : Type} {f : β → Except ε δ} {g : α → Except ε γ} {h : α → β}
    {k : γ → δ} (hf : ∀ a, f (h a) = (g a).map k) (as : List α) :
    (as.map h).mapM f = (as.mapM g).map (List.map k) := by
  induction as with
  | nil => rfl
  | cons a as ih =>
    rw [List.map_cons, List.mapM_cons, List.mapM_cons, hf, ih]
    cases g a with
    | error e => rfl
    | ok c => cases as.mapM g <;> rfl

theorem renameRecord_reread (path : Path) (new : String) (record : Json) :
    renameRecord path new record.reread =
      (renameRecord path new record).map fun (r, found) => (r.reread, found) := by
  unfold renameRecord
  rw [parentOf_reread]
  cases path.last? with
  | none => rfl
  | some old =>
    cases record.parentOf path with
    | none => rfl
    | some parent =>
      cases parent with
      | obj entries =>
        simp only [Option.map_some, reread_obj, Entries.hasKey_mapValues]
        split
        · rfl
        · split
          · rfl
          · split
            · rfl
            · rw [updateParent_reread fun es => Entries.renameKey_mapValues Json.reread old new es]
              cases record.updateParent (Entries.renameKey old new) path <;> rfl
      | _ => rfl

def Renamed.reread (r : Renamed) : Renamed := ⟨r.value.reread, r.count⟩

theorem renameKey_reread (old new : Path) (v : Json) :
    renameKey old new v.reread = (renameKey old new v).map Renamed.reread := by
  rw [renameKey_eq, renameKey_eq]
  split
  · split
    · rfl
    · rename_i newKey _ _ _
      rw [records_reread, mapM_map (renameRecord_reread old newKey)]
      cases v.records.mapM (renameRecord old newKey) with
      | error e => rfl
      | ok results =>
        simp [Except.map, Renamed.reread, Function.comp_def, List.countP_map,
          ← withRecords_reread]
  · rfl

/-! ## Assigning -/

theorem assignAll_reread (path : Path) (w v : Json) :
    Session.assignAll path w.reread v.reread =
      ((Session.assignAll path w v).1.reread, (Session.assignAll path w v).2) := by
  simp only [assignAll_eq, records_reread, ← withRecords_reread, List.map_map, List.countP_map,
    Function.comp_def, assign_reread, Option.getD_map, Option.isSome_map]

/-! ## Aggregating -/

def Occurrence.reread (o : Occurrence) : Occurrence := ⟨o.location, o.value.reread⟩

namespace Aggregate

theorem occurrences_arr (location : String) (items : List Json) :
    occurrences location (.arr items) =
      items.zipIdx.flatMap fun (item, i) => occurrences (indexed location i) item := by
  have h : ∀ start, itemOccurrences location start items =
      (items.zipIdx start).flatMap fun (item, i) => occurrences (indexed location i) item := by
    induction items with
    | nil => exact fun _ => rfl
    | cons item rest ih =>
      intro start
      rw [itemOccurrences, ih, List.zipIdx_cons, List.flatMap_cons]
  exact h 0

theorem occurrences_obj (location : String) (entries : List (String × Json)) :
    occurrences location (.obj entries) = entries.flatMap fun e =>
      (e.1, ⟨dotted location e.1, e.2⟩) :: occurrences (dotted location e.1) e.2 := by
  rw [occurrences]
  induction entries with
  | nil => rfl
  | cons e rest ih => rw [entryOccurrences, ih, List.flatMap_cons]

theorem occurrences_reread (location : String) (v : Json) :
    occurrences location v.reread =
      Entries.mapValues Occurrence.reread (occurrences location v) := by
  induction v using Json.induction generalizing location with
  | null => rfl
  | bool b => rfl
  | num n => rfl
  | str s => rfl
  | arr items ih =>
    rw [reread_arr, occurrences_arr, occurrences_arr, Entries.mapValues_flatMap, List.zipIdx_map,
      List.flatMap_map]
    exact List.flatMap_congr fun e he => ih e.1 (List.fst_mem_of_mem_zipIdx he) _
  | obj entries ih =>
    rw [reread_obj, occurrences_obj, occurrences_obj, Entries.mapValues_flatMap, Entries.mapValues,
      List.flatMap_map]
    refine List.flatMap_congr fun e he => ?_
    rw [Entries.mapValues_cons, ← ih e he]
    rfl

theorem duplicates_eq_repeated (root : Json) :
    duplicates root = Entries.repeated (occurrences "" root) := rfl

theorem duplicates_reread (v : Json) :
    duplicates v.reread = Entries.mapValues (List.map Occurrence.reread) (duplicates v) := by
  rw [duplicates_eq_repeated, occurrences_reread, Entries.repeated_mapValues,
    ← duplicates_eq_repeated]

theorem mergeEntries_reread (found : List Occurrence) :
    mergeEntries (found.map Occurrence.reread) =
      Entries.mapValues Json.reread (mergeEntries found) := by
  unfold mergeEntries
  rw [← Entries.ofPairs_mapValues, Entries.mapValues, List.map_flatMap, List.flatMap_map]
  refine congrArg (fun f => Entries.ofPairs (found.flatMap f)) (funext fun o => ?_)
  unfold Occurrence.reread
  cases o.value with
  | obj entries => simp [Entries.mapValues]
  | _ => rfl

theorem combine_reread (mode : AggregateMode) (found : List Occurrence) :
    combine mode (found.map Occurrence.reread) = (combine mode found).reread := by
  have hall : (found.map Occurrence.reread).all (·.value.isObject) =
      found.all (·.value.isObject) := by
    simp [Occurrence.reread, List.all_map, Function.comp_def]
  unfold combine
  rw [hall, mergeEntries_reread]
  split
  · rw [reread_obj]
  · simp [listing, Occurrence.reread, Function.comp_def]

theorem without_arr (dropped : String → Bool) (items : List Json) :
    without dropped (.arr items) = .arr (items.map (without dropped)) := by
  have h : itemsWithout dropped items = items.map (without dropped) := by
    induction items with
    | nil => rfl
    | cons item rest ih => rw [itemsWithout, ih, List.map_cons]
  rw [without, h]

theorem without_obj (dropped : String → Bool) (entries : List (String × Json)) :
    without dropped (.obj entries) =
      .obj (Entries.mapValues (without dropped) (entries.filter fun e => !dropped e.1)) := by
  have h : entriesWithout dropped entries =
      Entries.mapValues (without dropped) (entries.filter fun e => !dropped e.1) := by
    induction entries with
    | nil => rfl
    | cons e rest ih =>
      rw [entriesWithout, ih, List.filter_cons]
      cases dropped e.1 <;> rfl
  rw [without, h]

theorem without_reread (dropped : String → Bool) (v : Json) :
    without dropped v.reread = (without dropped v).reread := by
  induction v using Json.induction with
  | null => rfl
  | bool b => rfl
  | num n => rfl
  | str s => rfl
  | arr items ih =>
    rw [reread_arr, without_arr, without_arr, reread_arr, List.map_map, List.map_map]
    exact congrArg arr (List.map_congr_left ih)
  | obj entries ih =>
    rw [reread_obj, without_obj, without_obj, reread_obj]
    simp only [Entries.mapValues, List.filter_map, List.map_map, Function.comp_def]
    refine congrArg obj (List.map_congr_left fun e he => ?_)
    rw [ih e (List.mem_of_mem_filter he)]

theorem attach_reread (block : List (String × Json)) (v : Json) :
    attach (Entries.mapValues Json.reread block) v.reread = (attach block v).reread := by
  cases v with
  | obj entries =>
    rw [reread_obj, attach, attach, Entries.mapValues, List.isEmpty_map, ← Entries.mapValues]
    split
    · rw [reread_obj]
    · rw [← reread_obj, Entries.put_mapValues, reread_obj]
  | _ => rfl

end Aggregate

open Aggregate in
theorem aggregate_reread (options : AggregateOptions) (v : Json) :
    aggregate options v.reread = (aggregate options v).map Json.reread := by
  unfold aggregate
  rw [isObject_reread, kind_reread]
  split
  · have hblock : (duplicates v.reread).map (fun e => (e.1, combine options.mode e.2)) =
        Entries.mapValues Json.reread
          ((duplicates v).map fun e => (e.1, combine options.mode e.2)) := by
      simp [duplicates_reread, Entries.mapValues, combine_reread]
    have hkeys : Entries.hasKey (duplicates v.reread) = Entries.hasKey (duplicates v) := by
      funext key
      rw [duplicates_reread, Entries.hasKey_mapValues]
    dsimp only
    rw [hblock, hkeys]
    split
    · rw [without_reread, attach_reread]
      rfl
    · rw [attach_reread]
      rfl
  · rfl

end JsonInspect
