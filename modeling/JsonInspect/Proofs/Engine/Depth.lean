import JsonInspect.Proofs.Engine.WellFormed

/-! # How much deeper a transformation makes a value

Renaming adds no container and grouping one; assigning adds at most those of the assigned value,
and the block of an aggregate at most three. -/

namespace JsonInspect

open Json

namespace Json

section

variable {entries : List (String × Json)} {key : String} {v w : Json} {n : Nat}

theorem depth_lt_of_mem {e : String × Json} (h : e ∈ entries) :
    e.2.depth < (obj entries).depth :=
  Nat.lt_succ_of_le (entriesDepth_le.mp (Nat.le_refl _) e h)

theorem depth_lt_of_mem_items {items : List Json} (h : v ∈ items) : v.depth < (arr items).depth :=
  Nat.lt_succ_of_le (itemsDepth_le.mp (Nat.le_refl _) v h)

theorem depth_put_le (h : (obj entries).depth ≤ n) (hw : w.depth < n) :
    (obj (Entries.put key w entries)).depth ≤ n := by
  obtain ⟨n, rfl⟩ := Nat.exists_eq_succ_of_ne_zero (Nat.ne_zero_of_lt hw)
  refine depth_obj_le.mpr fun e he => ?_
  rcases Entries.mem_put he with rfl | he
  · exact Nat.le_of_lt_succ hw
  · exact depth_obj_le.mp h e he

end

/-- What a change adds to the depth of the value that it changes bounds what it adds to the
whole. -/
theorem depth_updateAt_le {change : Json → Option Json} {added : Nat}
    (h : ∀ u u', change u = some u' → u'.depth ≤ u.depth + added) {keys : List String}
    {v v' : Json} (hu : updateAt change keys v = some v') : v'.depth ≤ v.depth + added := by
  induction keys generalizing v v' with
  | nil => exact h v v' hu
  | cons key rest ih =>
    cases v with
    | obj entries =>
      cases hc : entries.lookup key with
      | none =>
        rw [updateAt, hc] at hu
        cases hu
      | some child =>
        rw [updateAt, hc] at hu
        obtain ⟨u, hchild, rfl⟩ := Option.map_eq_some_iff.mp hu
        have hlt : child.depth < (obj entries).depth := depth_lt_of_mem (Entries.mem_of_lookup hc)
        have hle := ih hchild
        exact depth_put_le (Nat.le_add_right _ _) (by omega)
    | _ => cases hu

theorem depth_updateParent_le {change : List (String × Json) → List (String × Json)} {added : Nat}
    (h : ∀ entries, (obj (change entries)).depth ≤ (obj entries).depth + added) {path : Path}
    {v v' : Json} (hu : updateParent change path v = some v') : v'.depth ≤ v.depth + added := by
  unfold updateParent at hu
  split at hu
  · cases hu
  · refine depth_updateAt_le (fun u u' hchange => ?_) hu
    cases u with
    | obj entries =>
      cases hchange
      exact h entries
    | _ => cases hchange

theorem depth_assign_le {path : Path} {v w v' : Json} (h : v.assign path w = some v') :
    v'.depth ≤ v.depth + w.depth := by
  unfold assign at h
  split at h
  · cases h
  · refine depth_updateParent_le (fun entries => ?_) h
    exact depth_put_le (Nat.le_add_right _ _) (by rw [depth]; omega)

end Json

/-! ## Grouping, renaming and assigning -/

theorem depth_groupBy_le {key : Path} {v : Json} {g : Groups} (h : groupBy key v = .ok g) :
    g.toJson.depth ≤ v.depth + 1 := by
  cases v with
  | arr items =>
    rw [groupBy_arr] at h
    cases h
    rw [Groups.toJson_eq, depth_obj_le, Entries.mapValues, List.forall_mem_map]
    intro bucket hb
    rw [depth, depth, Nat.add_le_add_iff_right, itemsDepth_le]
    intro item hi
    rw [(Entries.mem_gather hb).1, Entries.mem_valuesOf] at hi
    obtain ⟨item', hmem, he⟩ := List.mem_map.mp hi
    obtain rfl := (Prod.mk.inj he).2
    exact itemsDepth_le.mp (Nat.le_refl _) item' hmem
  | _ => cases h

theorem depth_renameRecord_le {path : Path} {new : String} {v v' : Json} {found : Bool}
    (h : renameRecord path new v = .ok (v', found)) : v'.depth ≤ v.depth := by
  unfold renameRecord at h
  split at h
  · rename_i old _ _ _
    split at h
    · cases h
      exact Nat.le_refl _
    · split at h
      · cases h
        exact Nat.le_refl _
      · split at h
        · cases h
        · cases h
          cases hu : updateParent (Entries.renameKey old new) path v with
          | none => exact Nat.le_refl _
          | some u =>
            have hle : u.depth ≤ v.depth + 0 := by
              refine depth_updateParent_le (fun es => ?_) hu
              rw [Nat.add_zero, depth, depth, Nat.add_le_add_iff_right, entriesDepth_le,
                Entries.renameKey, List.forall_mem_map]
              exact entriesDepth_le.mp (Nat.le_refl _)
            exact hle
  · cases h
    exact Nat.le_refl _

theorem depth_withRecords_le {v : Json} {records : List Json}
    (h : ∀ record ∈ records, ∃ record' ∈ v.records, record.depth ≤ record'.depth + n) :
    (v.withRecords records).depth ≤ v.depth + n := by
  cases v with
  | arr items =>
    rw [withRecords, depth, depth, Nat.add_right_comm, Nat.add_le_add_iff_right, itemsDepth_le]
    intro record hr
    obtain ⟨item, hi, hle⟩ := h record hr
    exact hle.trans (Nat.add_le_add_right (itemsDepth_le.mp (Nat.le_refl _) item hi) n)
  | _ =>
    cases records with
    | nil => exact Nat.le_add_right _ n
    | cons record rest =>
      obtain ⟨record', hr, hle⟩ := h record List.mem_cons_self
      rwa [List.mem_singleton.mp hr] at hle

theorem depth_renameKey_le {old new : Path} {v : Json} {r : Renamed}
    (h : renameKey old new v = .ok r) : r.value.depth ≤ v.depth := by
  obtain ⟨_, _, results, -, -, -, -, hresults, rfl⟩ := exists_of_renameKey h
  refine depth_withRecords_le (n := 0) (List.forall_mem_map.mpr fun result hr => ?_)
  obtain ⟨record, hrecord, hrename⟩ :=
    exists_of_forall₂ (mapM_eq_ok_iff.mp hresults) result hr
  exact ⟨record, hrecord, depth_renameRecord_le hrename⟩

theorem depth_assignAll_le (path : Path) (w v : Json) :
    (Session.assignAll path w v).1.depth ≤ v.depth + w.depth := by
  rw [assignAll_eq]
  refine depth_withRecords_le (List.forall_mem_map.mpr fun record hr => ⟨record, hr, ?_⟩)
  cases ha : record.assign path w with
  | none => exact Nat.le_add_right _ _
  | some assigned => exact depth_assign_le ha

/-! ## Aggregating -/

namespace Aggregate

theorem depth_occurrences_lt {location : String} {v : Json} :
    ∀ o ∈ occurrences location v, o.2.value.depth < v.depth :=
  occurrences_induction (P := fun v o => o.2.value.depth < v.depth)
    (fun _ _ _ he => depth_lt_of_mem he)
    (fun _ _ _ he ih => ih.trans (depth_lt_of_mem he))
    (fun _ _ _ hi ih => ih.trans (depth_lt_of_mem_items hi)) location v

theorem depth_combine_le {mode : AggregateMode} {found : List Occurrence} {n : Nat}
    (h : ∀ o ∈ found, o.value.depth ≤ n) : (combine mode found).depth ≤ n + 2 := by
  unfold combine
  split
  · refine depth_obj_le.mpr fun e he => ?_
    obtain ⟨o, ho, he⟩ := List.mem_flatMap.mp (Entries.mem_of_mem_ofPairs _ e he)
    have hle := h o ho
    split at he
    · rename_i entries hvalue
      rw [hvalue] at hle
      have hlt := depth_lt_of_mem he
      omega
    · cases he
  · refine depth_arr_le.mpr (List.forall_mem_map.mpr fun o ho => depth_obj_le.mpr ?_)
    exact List.forall_mem_cons.mpr ⟨Nat.zero_le n, List.forall_mem_singleton.mpr (h o ho)⟩

theorem depth_without_le (dropped : String → Bool) (v : Json) :
    (without dropped v).depth ≤ v.depth := by
  induction v using Json.induction with
  | arr items ih =>
    rw [without_arr, depth, depth, Nat.add_le_add_iff_right, itemsDepth_le, List.forall_mem_map]
    intro item hi
    exact (ih item hi).trans (itemsDepth_le.mp (Nat.le_refl _) item hi)
  | obj entries ih =>
    rw [without_obj, depth, depth, Nat.add_le_add_iff_right, entriesDepth_le, Entries.mapValues,
      List.forall_mem_map]
    intro e he
    have hmem := List.mem_of_mem_filter he
    exact (ih e hmem).trans (entriesDepth_le.mp (Nat.le_refl _) e hmem)
  | _ => exact Nat.le_refl _

theorem depth_attach_le {block : List (String × Json)} {v : Json} {n : Nat} (hv : v.depth ≤ n)
    (hb : (obj block).depth < n) : (attach block v).depth ≤ n := by
  unfold attach
  split
  · split
    · exact hv
    · exact depth_put_le hv hb
  · exact hv

end Aggregate

open Aggregate in
theorem depth_aggregate_le {options : AggregateOptions} {v v' : Json}
    (h : aggregate options v = .ok v') : v'.depth ≤ v.depth + 3 := by
  unfold aggregate at h
  split at h
  · rename_i hobject
    cases h
    refine depth_attach_le ?_ (Nat.lt_succ_of_le (depth_obj_le.mpr (List.forall_mem_map.mpr ?_)))
    · split
      · exact (depth_without_le _ v).trans (Nat.le_add_right _ _)
      · exact Nat.le_add_right _ _
    · intro e he
      have hlt : ∀ o ∈ e.2, o.value.depth < v.depth := fun o ho =>
        depth_occurrences_lt (e.1, o) (mem_duplicates he o ho)
      obtain ⟨n, hn⟩ : ∃ n, v.depth = n + 1 := by
        cases v with
        | obj entries => exact ⟨_, rfl⟩
        | _ => cases hobject
      rw [hn] at hlt ⊢
      exact depth_combine_le fun o ho => Nat.le_of_lt_succ (hlt o ho)
  · cases h

end JsonInspect
