import JsonInspect.Proofs.Engine.Reread
import JsonInspect.Proofs.Json.Accepted

/-! # Transformations keep values well-formed

Whatever a transformation gives for a well-formed value has distinct keys and finite numbers. -/

namespace JsonInspect

open Json

namespace Json

theorem wellFormed_put {key : String} {w : Json} {entries : List (String × Json)}
    (h : (obj entries).wellFormed = true) (hw : w.wellFormed = true) :
    (obj (Entries.put key w entries)).wellFormed = true := by
  rw [wellFormed_obj] at h ⊢
  refine ⟨Entries.nodup_put key w h.1, fun e he => ?_⟩
  rcases Entries.mem_put he with rfl | he
  · exact hw
  · exact h.2 e he

theorem wellFormed_lookup {key : String} {child : Json} {entries : List (String × Json)}
    (h : (obj entries).wellFormed = true) (hc : entries.lookup key = some child) :
    child.wellFormed = true :=
  (wellFormed_obj.mp h).2 (key, child) (Entries.mem_of_lookup hc)

theorem wellFormed_updateAt {change : Json → Option Json} {keys : List String} {v v' : Json}
    (h : ∀ u u', walk keys v = some u → u.wellFormed = true → change u = some u' →
      u'.wellFormed = true)
    (hv : v.wellFormed = true) (hu : updateAt change keys v = some v') :
    v'.wellFormed = true := by
  induction keys generalizing v v' with
  | nil => exact h v v' rfl hv hu
  | cons key rest ih =>
    cases v with
    | obj entries =>
      cases hc : entries.lookup key with
      | none =>
        rw [updateAt, hc] at hu
        cases hu
      | some child =>
        rw [updateAt, hc] at hu
        obtain ⟨u, hchild, rfl⟩ := Option.map_eq_some_iff.mp hu
        refine wellFormed_put hv (ih (fun u u' hw => h u u' ?_) (wellFormed_lookup hv hc) hchild)
        rw [walk, hc]
        exact hw
    | _ => cases hu

theorem wellFormed_updateParent {change : List (String × Json) → List (String × Json)}
    {path : Path} {v v' : Json}
    (h : ∀ entries, v.parentOf path = some (obj entries) → (obj entries).wellFormed = true →
      (obj (change entries)).wellFormed = true)
    (hv : v.wellFormed = true) (hu : updateParent change path v = some v') :
    v'.wellFormed = true := by
  unfold updateParent at hu
  split at hu
  · cases hu
  · rename_i hpath
    refine wellFormed_updateAt (fun u u' hwalk hw hchange => ?_) hv hu
    cases u with
    | obj entries =>
      cases hchange
      refine h entries ?_ hw
      rw [parentOf, if_neg hpath, hwalk]
      rfl
    | _ => cases hchange

theorem wellFormed_assign {path : Path} {v w v' : Json} (hv : v.wellFormed = true)
    (hw : w.wellFormed = true) (ha : v.assign path w = some v') : v'.wellFormed = true := by
  unfold assign at ha
  split at ha
  · cases ha
  · exact wellFormed_updateParent (fun _ _ h => wellFormed_put h hw) hv ha

end Json

/-! ## Grouping -/

theorem wellFormed_groups {key : Path} {v : Json} {g : Groups} (hv : v.wellFormed = true)
    (h : groupBy key v = .ok g) : g.toJson.wellFormed = true := by
  cases v with
  | arr items =>
    rw [groupBy_arr] at h
    cases h
    rw [wellFormed_arr] at hv
    rw [Groups.toJson_eq, wellFormed_obj, Entries.keys_mapValues, Entries.mapValues,
      List.forall_mem_map]
    refine ⟨Entries.nodup_gather _, fun bucket hb => wellFormed_arr.mpr fun item hi => ?_⟩
    rw [(Entries.mem_gather hb).1, Entries.mem_valuesOf] at hi
    obtain ⟨item', hmem, he⟩ := List.mem_map.mp hi
    obtain rfl := (Prod.mk.inj he).2
    exact hv item' hmem
  | _ => cases h

/-! ## Renaming -/

theorem wellFormed_entriesRenameKey {old new : String} {entries : List (String × Json)}
    (hnew : Entries.hasKey entries new = false) (h : (obj entries).wellFormed = true) :
    (obj (Entries.renameKey old new entries)).wellFormed = true := by
  rw [wellFormed_obj] at h ⊢
  have hnot : new ∉ Entries.keys entries := by
    rw [← Entries.hasKey_iff, hnew]
    exact Bool.false_ne_true
  have hkeys : Entries.keys (Entries.renameKey old new entries) =
      (Entries.keys entries).map fun k => if k = old then new else k := by
    simp [Entries.keys, Entries.renameKey, Function.comp_def]
  rw [hkeys, Entries.renameKey, List.forall_mem_map]
  refine ⟨List.Nodup.map_on (fun a ha b hb he => ?_) h.1, fun e he => h.2 e he⟩
  by_cases hao : a = old
  · by_cases hbo : b = old
    · rw [hao, hbo]
    · rw [if_pos hao, if_neg hbo] at he
      exact absurd (he ▸ hb) hnot
  · by_cases hbo : b = old
    · rw [if_neg hao, if_pos hbo] at he
      exact absurd (he ▸ ha) hnot
    · rwa [if_neg hao, if_neg hbo] at he

theorem wellFormed_renameRecord {path : Path} {new : String} {v v' : Json} {found : Bool}
    (hv : v.wellFormed = true) (h : renameRecord path new v = .ok (v', found)) :
    v'.wellFormed = true := by
  unfold renameRecord at h
  split at h
  · rename_i old entries hold hparent
    split at h
    · cases h
      exact hv
    · split at h
      · cases h
        exact hv
      · split at h
        · cases h
        · rename_i hnew
          cases h
          cases hu : updateParent (Entries.renameKey old new) path v with
          | none => exact hv
          | some u =>
            refine wellFormed_updateParent (fun es hes hw => ?_) hv hu
            rw [hparent] at hes
            cases hes
            exact wellFormed_entriesRenameKey (Bool.not_eq_true _ ▸ hnew) hw
  · cases h
    exact hv

theorem wellFormed_records {v : Json} (h : v.wellFormed = true) :
    ∀ record ∈ v.records, record.wellFormed = true := by
  cases v with
  | arr items => exact wellFormed_arr.mp h
  | _ => exact List.forall_mem_singleton.mpr h

theorem wellFormed_withRecords {v : Json} {records : List Json} (hv : v.wellFormed = true)
    (h : ∀ record ∈ records, record.wellFormed = true) :
    (v.withRecords records).wellFormed = true := by
  cases v with
  | arr items => exact wellFormed_arr.mpr h
  | _ =>
    cases records with
    | nil => exact hv
    | cons record rest => exact h record List.mem_cons_self

theorem wellFormed_renameKey {old new : Path} {v : Json} {r : Renamed}
    (hv : v.wellFormed = true) (h : renameKey old new v = .ok r) : r.value.wellFormed = true := by
  obtain ⟨_, _, results, -, -, -, -, hresults, rfl⟩ := exists_of_renameKey h
  refine wellFormed_withRecords hv (List.forall_mem_map.mpr fun result hr => ?_)
  obtain ⟨record, hrecord, hrename⟩ :=
    exists_of_forall₂ (mapM_eq_ok_iff.mp hresults) result hr
  exact wellFormed_renameRecord (wellFormed_records hv record hrecord) hrename

/-! ## Assigning -/

theorem wellFormed_typedValue (text : String) : (Session.typedValue text).wellFormed = true := by
  unfold Session.typedValue
  split
  · rename_i h
    exact (parse_fits h).1
  · rfl

theorem wellFormed_assignAll {path : Path} {w v : Json} (hv : v.wellFormed = true)
    (hw : w.wellFormed = true) : (Session.assignAll path w v).1.wellFormed = true := by
  rw [assignAll_eq]
  refine wellFormed_withRecords hv (List.forall_mem_map.mpr fun record hr => ?_)
  have hrecord := wellFormed_records hv record hr
  cases ha : record.assign path w with
  | none => exact hrecord
  | some assigned => exact wellFormed_assign hrecord hw ha

/-! ## Aggregating -/

namespace Aggregate

/-- What holds of an object's own entries, and of a container if it holds of what it contains,
holds of all occurrences. -/
theorem occurrences_induction {P : Json → String × Occurrence → Prop}
    (entry : ∀ entries e location, e ∈ entries → P (obj entries) (e.1, ⟨location, e.2⟩))
    (inObject : ∀ entries e o, e ∈ entries → P e.2 o → P (obj entries) o)
    (inArray : ∀ items item o, item ∈ items → P item o → P (arr items) o) (location : String)
    (v : Json) : ∀ o ∈ occurrences location v, P v o := by
  induction v using Json.induction generalizing location with
  | null =>
    intro _ h
    cases h
  | bool b =>
    intro _ h
    cases h
  | num n =>
    intro _ h
    cases h
  | str s =>
    intro _ h
    cases h
  | arr items ih =>
    intro o ho
    rw [occurrences_arr, List.mem_flatMap] at ho
    obtain ⟨e, he, ho⟩ := ho
    have hitem := List.fst_mem_of_mem_zipIdx he
    exact inArray items e.1 o hitem (ih e.1 hitem _ o ho)
  | obj entries ih =>
    intro o ho
    rw [occurrences_obj, List.mem_flatMap] at ho
    obtain ⟨e, he, ho⟩ := ho
    rcases List.mem_cons.mp ho with rfl | ho
    · exact entry entries e _ he
    · exact inObject entries e o he (ih e he _ o ho)

theorem wellFormed_occurrences {location : String} {v : Json} (hv : v.wellFormed = true) :
    ∀ o ∈ occurrences location v, o.2.value.wellFormed = true := by
  intro o ho
  refine occurrences_induction
    (P := fun v o => v.wellFormed = true → o.2.value.wellFormed = true)
    ?_ ?_ ?_ location v o ho hv
  · intro entries e _ he h
    exact (wellFormed_obj.mp h).2 e he
  · intro entries e o he ih h
    exact ih ((wellFormed_obj.mp h).2 e he)
  · intro items item o hi ih h
    exact ih (wellFormed_arr.mp h item hi)

/-- The duplicates are distinct keys with occurrences that stand in the document. -/
theorem mem_duplicates {v : Json} {key : String} {found : List Occurrence}
    (h : (key, found) ∈ duplicates v) : ∀ o ∈ found, (key, o) ∈ occurrences "" v := by
  intro o ho
  rw [duplicates_eq_repeated, Entries.mem_repeated] at h
  rw [h.1] at ho
  exact Entries.mem_valuesOf.mp ho

theorem nodup_duplicates (v : Json) : (Entries.keys (duplicates v)).Nodup :=
  Entries.nodup_repeated (occurrences "" v)

theorem wellFormed_combine {mode : AggregateMode} {found : List Occurrence}
    (h : ∀ o ∈ found, o.value.wellFormed = true) : (combine mode found).wellFormed = true := by
  unfold combine
  split
  · refine wellFormed_obj.mpr ⟨Entries.nodup_ofPairs _, fun e he => ?_⟩
    obtain ⟨o, ho, he⟩ := List.mem_flatMap.mp (Entries.mem_of_mem_ofPairs _ e he)
    have hw := h o ho
    split at he
    · rename_i entries hvalue
      rw [hvalue] at hw
      exact (wellFormed_obj.mp hw).2 e he
    · cases he
  · refine wellFormed_arr.mpr (List.forall_mem_map.mpr fun o ho => wellFormed_obj.mpr ⟨?_, ?_⟩)
    · exact List.nodup_cons.mpr ⟨by simp, List.nodup_singleton _⟩
    · exact List.forall_mem_cons.mpr ⟨rfl, List.forall_mem_singleton.mpr (h o ho)⟩

theorem wellFormed_without {dropped : String → Bool} {v : Json} (hv : v.wellFormed = true) :
    (without dropped v).wellFormed = true := by
  induction v using Json.induction with
  | null => rfl
  | bool b => rfl
  | num n => exact hv
  | str s => rfl
  | arr items ih =>
    rw [wellFormed_arr] at hv
    rw [without_arr, wellFormed_arr, List.forall_mem_map]
    intro item hi
    exact ih item hi (hv item hi)
  | obj entries ih =>
    rw [wellFormed_obj] at hv
    rw [without_obj, wellFormed_obj, Entries.keys_mapValues, Entries.mapValues,
      List.forall_mem_map]
    refine ⟨hv.1.sublist (List.filter_sublist.map Prod.fst), fun e he => ?_⟩
    have hmem := List.mem_of_mem_filter he
    exact ih e hmem (hv.2 e hmem)

theorem wellFormed_attach {block : List (String × Json)} {v : Json} (hv : v.wellFormed = true)
    (hb : (obj block).wellFormed = true) : (attach block v).wellFormed = true := by
  unfold attach
  split
  · split
    · exact hv
    · exact wellFormed_put hv hb
  · exact hv

end Aggregate

open Aggregate in
theorem wellFormed_aggregate {options : AggregateOptions} {v v' : Json}
    (hv : v.wellFormed = true) (h : aggregate options v = .ok v') : v'.wellFormed = true := by
  unfold aggregate at h
  split at h
  · cases h
    have hkeys : Entries.keys ((duplicates v).map fun e => (e.1, combine options.mode e.2)) =
        Entries.keys (duplicates v) := by
      simp [Entries.keys, Function.comp_def]
    refine wellFormed_attach ?_ (wellFormed_obj.mpr ⟨?_, List.forall_mem_map.mpr fun e he => ?_⟩)
    · split
      · exact wellFormed_without hv
      · exact hv
    · rw [hkeys]
      exact nodup_duplicates v
    · exact wellFormed_combine fun o ho =>
        wellFormed_occurrences hv (e.1, o) (mem_duplicates he o ho)
  · cases h

end JsonInspect
