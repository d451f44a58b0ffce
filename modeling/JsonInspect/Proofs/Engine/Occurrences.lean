import JsonInspect.Proofs.Engine.Reread
import JsonInspect.Proofs.Json.Place
import JsonInspect.Proofs.Json.Positions

/-! # Occurrences and the places of entries

The traversal that looks for repeated keys meets the entry at every position of a document once, in
document order, and gives it the location of the steps that lead there (`occurrences_eq`). Where the
keys of every object are distinct, these steps lead to that entry (`at?_stepsAt`) and to no other
(`stepsAt_injective`). -/

namespace JsonInspect

namespace Json

variable {key : String} {v root : Json} {p q : List Nat} {e e' : String × Json}

def stepsAt : List Nat → Json → List Step
  | i :: rest, obj entries => (entries[i]?.map fun e => .key e.1 :: stepsAt rest e.2).getD []
  | i :: rest, arr items => (items[i]?.map fun item => .index i :: stepsAt rest item).getD []
  | _, _ => []

theorem stepsAt_obj {i : Nat} {entries : List (String × Json)} (h : entries[i]? = some e)
    (rest : List Nat) : stepsAt (i :: rest) (obj entries) = .key e.1 :: stepsAt rest e.2 := by
  rw [stepsAt, h]
  rfl

theorem stepsAt_arr {i : Nat} {items : List Json} {item : Json} (h : items[i]? = some item)
    (rest : List Nat) : stepsAt (i :: rest) (arr items) = .index i :: stepsAt rest item := by
  rw [stepsAt, h]
  rfl

theorem stepsAt_nil (v : Json) : stepsAt [] v = [] := by
  cases v <;> rfl

/-! ## From positions to steps -/

/-- An entry below a container is one of its own or stands below one of its children. -/
theorem entryAt?_cases (h : entryAt? p root = some e) :
    (∃ items i item rest, root = arr items ∧ p = i :: rest ∧ items[i]? = some item ∧
      entryAt? rest item = some e) ∨
    (∃ entries i, root = obj entries ∧ p = [i] ∧ entries[i]? = some e) ∨
    ∃ entries i child rest, root = obj entries ∧ p = i :: rest ∧ entries[i]? = some child ∧
      entryAt? rest child.2 = some e := by
  cases p with
  | nil =>
    rw [entryAt?_nil] at h
    cases h
  | cons i rest =>
    cases root with
    | arr items =>
      rw [entryAt?_arr] at h
      obtain ⟨item, hi, hitem⟩ := Option.bind_eq_some_iff.mp h
      exact .inl ⟨items, i, item, rest, rfl, rfl, hi, hitem⟩
    | obj entries =>
      rw [entryAt?_obj] at h
      obtain ⟨child, hi, hchild⟩ := Option.bind_eq_some_iff.mp h
      split at hchild
      · rename_i hrest
        subst hrest
        exact .inr (.inl ⟨entries, i, rfl, rfl, hi.trans hchild⟩)
      · exact .inr (.inr ⟨entries, i, child, rest, rfl, rfl, hi, hchild⟩)
    | _ => cases h

theorem stepsAt_ne_nil (h : entryAt? p root = some e) : stepsAt p root ≠ [] := by
  obtain ⟨items, i, item, rest, rfl, rfl, hi, -⟩ | ⟨entries, i, rfl, rfl, hi⟩ |
    ⟨entries, i, child, rest, rfl, rfl, hi, -⟩ := entryAt?_cases h
  · rw [stepsAt_arr hi]
    exact List.cons_ne_nil _ _
  · rw [stepsAt_obj hi]
    exact List.cons_ne_nil _ _
  · rw [stepsAt_obj hi]
    exact List.cons_ne_nil _ _

/-- No steps are left exactly at the entry itself. -/
theorem stepsAt_eq_nil_iff {rest : List Nat}
    (h : (if rest = [] then some e else entryAt? rest e.2) = some e') :
    stepsAt rest e.2 = [] ↔ rest = [] := by
  by_cases hrest : rest = []
  · subst hrest
    exact iff_of_true (stepsAt_nil e.2) rfl
  · rw [if_neg hrest] at h
    exact iff_of_false (stepsAt_ne_nil h) hrest

/-- The steps to a position lead to the entry there. -/
theorem at?_stepsAt (hdistinct : root.everywhere hasDistinctKeys = true)
    (h : entryAt? p root = some e) :
    at? (stepsAt p root) root = some e.2 ∧ (stepsAt p root).getLast? = some (.key e.1) := by
  induction p generalizing root with
  | nil =>
    rw [entryAt?_nil] at h
    cases h
  | cons i rest ih =>
    obtain ⟨items, i, item, rest, rfl, hp, hi, hitem⟩ | ⟨entries, i, rfl, hp, hi⟩ |
      ⟨entries, i, child, rest, rfl, hp, hi, hchild⟩ := entryAt?_cases h
    · cases hp
      have hbelow := (everywhere_arr.mp hdistinct).2 item (List.mem_of_getElem? hi)
      obtain ⟨hat, hlast⟩ := ih hbelow hitem
      rw [stepsAt_arr hi, at?_index, hi, List.getLast?_cons, hlast]
      exact ⟨hat, rfl⟩
    · cases hp
      have hkeys := of_decide_eq_true (everywhere_self hdistinct)
      have hmem := List.mem_of_getElem? hi
      rw [stepsAt_obj hi, stepsAt_nil, at?_key, Entries.lookup_of_mem hkeys hmem]
      exact ⟨rfl, rfl⟩
    · cases hp
      have hkeys := of_decide_eq_true (everywhere_self hdistinct)
      have hmem := List.mem_of_getElem? hi
      obtain ⟨hat, hlast⟩ := ih ((everywhere_obj.mp hdistinct).2 child hmem) hchild
      rw [stepsAt_obj hi, at?_key, Entries.lookup_of_mem hkeys hmem, List.getLast?_cons, hlast]
      exact ⟨hat, rfl⟩

/-- Steps lead to one entry only. -/
theorem stepsAt_injective (hdistinct : root.everywhere hasDistinctKeys = true)
    (hp : entryAt? p root = some e) (hq : entryAt? q root = some e')
    (h : stepsAt p root = stepsAt q root) : p = q := by
  induction p generalizing q root with
  | nil =>
    rw [entryAt?_nil] at hp
    cases hp
  | cons i rest ih =>
    cases q with
    | nil =>
      rw [entryAt?_nil] at hq
      cases hq
    | cons j rest' =>
      cases root with
      | arr items =>
        rw [entryAt?_arr] at hp hq
        obtain ⟨item, hi, hitem⟩ := Option.bind_eq_some_iff.mp hp
        obtain ⟨item', hj, hitem'⟩ := Option.bind_eq_some_iff.mp hq
        rw [stepsAt_arr hi, stepsAt_arr hj] at h
        obtain ⟨hstep, hrest⟩ := List.cons.inj h
        cases hstep
        rw [hi] at hj
        cases hj
        have hbelow := (everywhere_arr.mp hdistinct).2 item (List.mem_of_getElem? hi)
        rw [ih hbelow hitem hitem' hrest]
      | obj entries =>
        rw [entryAt?_obj] at hp hq
        obtain ⟨child, hi, hchild⟩ := Option.bind_eq_some_iff.mp hp
        obtain ⟨child', hj, hchild'⟩ := Option.bind_eq_some_iff.mp hq
        rw [stepsAt_obj hi, stepsAt_obj hj] at h
        obtain ⟨hstep, hrest⟩ := List.cons.inj h
        have hkeys := of_decide_eq_true (everywhere_self hdistinct)
        have hij : i = j := Entries.getElem?_inj hkeys hi hj (Step.key.inj hstep)
        subst hij
        rw [hi] at hj
        cases hj
        have hends : rest = [] ↔ rest' = [] := by
          rw [← stepsAt_eq_nil_iff hchild, ← stepsAt_eq_nil_iff hchild', hrest]
        by_cases hnil : rest = []
        · rw [hnil, hends.mp hnil]
        · rw [if_neg hnil] at hchild
          rw [if_neg (mt hends.mpr hnil)] at hchild'
          have hbelow := (everywhere_obj.mp hdistinct).2 child (List.mem_of_getElem? hi)
          rw [ih hbelow hchild hchild' hrest]
      | _ => cases hp

/-! ## From steps to positions -/

/-- Where steps lead to an entry, there is a position of it. -/
theorem exists_position {s : List Step} (h : at? (s ++ [.key key]) root = some v) :
    ∃ p, entryAt? p root = some (key, v) ∧ stepsAt p root = s ++ [.key key] := by
  induction s generalizing root with
  | nil =>
    cases root with
    | obj entries =>
      rw [List.nil_append, at?_key] at h
      obtain ⟨child, hk, hv⟩ := Option.bind_eq_some_iff.mp h
      cases hv
      obtain ⟨i, hi⟩ := List.mem_iff_getElem?.mp (Entries.mem_of_lookup hk)
      refine ⟨[i], ?_, by rw [stepsAt_obj hi, stepsAt_nil, List.nil_append]⟩
      rw [entryAt?_obj, hi, Option.bind_some, if_pos rfl]
    | _ => cases h
  | cons step rest ih =>
    rw [List.cons_append] at h
    cases step with
    | key k =>
      cases root with
      | obj entries =>
        rw [at?_key] at h
        obtain ⟨child, hk, hv⟩ := Option.bind_eq_some_iff.mp h
        obtain ⟨i, hi⟩ := List.mem_iff_getElem?.mp (Entries.mem_of_lookup hk)
        obtain ⟨p, hp, hsteps⟩ := ih hv
        have hne : p ≠ [] := by
          rintro rfl
          rw [entryAt?_nil] at hp
          cases hp
        refine ⟨i :: p, ?_, by rw [stepsAt_obj hi, hsteps, List.cons_append]⟩
        rw [entryAt?_obj, hi, Option.bind_some, if_neg hne, hp]
      | _ => cases h
    | index i =>
      cases root with
      | arr items =>
        rw [at?_index] at h
        obtain ⟨item, hi, hv⟩ := Option.bind_eq_some_iff.mp h
        obtain ⟨p, hp, hsteps⟩ := ih hv
        refine ⟨i :: p, ?_, by rw [stepsAt_arr hi, hsteps, List.cons_append]⟩
        rw [entryAt?_arr, hi, Option.bind_some, hp]
      | _ => cases h

theorem forest_eq (index : Nat) (children : List Places) :
    forest index children = (children.zipIdx index).flatMap fun child => child.1.below child.2 := by
  induction children generalizing index with
  | nil => rfl
  | cons places rest ih => rw [forest, ih, List.zipIdx_cons, List.flatMap_cons]

end Json

namespace Aggregate

open Json

def locationFrom (location : String) : List Step → String
  | [] => location
  | .key k :: rest => locationFrom (dotted location k) rest
  | .index i :: rest => locationFrom (indexed location i) rest

def occurrenceAt (location : String) (root : Json) (place : String × List Nat × Json) :
    String × Occurrence :=
  (place.1, ⟨locationFrom location (stepsAt place.2.1 root), place.2.2⟩)

theorem occurrenceAt_arr {location : String} {i : Nat} {items : List Json} {item : Json}
    (hi : items[i]? = some item) (places : Places) :
    (places.below i).map (occurrenceAt location (.arr items)) =
      places.map (occurrenceAt (indexed location i) item) := by
  rw [Places.below, Entries.mapValues, List.map_map]
  refine List.map_congr_left fun place _ => ?_
  rw [Function.comp_apply, occurrenceAt, stepsAt_arr hi]
  rfl

theorem occurrenceAt_obj {location : String} {i : Nat} {entries : List (String × Json)}
    {e : String × Json} (hi : entries[i]? = some e) (places : Places) :
    (places.below i).map (occurrenceAt location (.obj entries)) =
      places.map (occurrenceAt (dotted location e.1) e.2) := by
  rw [Places.below, Entries.mapValues, List.map_map]
  refine List.map_congr_left fun place _ => ?_
  rw [Function.comp_apply, occurrenceAt, stepsAt_obj hi]
  rfl

/-- The occurrences are those of all entries, each with the location of the steps to it. -/
theorem occurrences_eq (location : String) (v : Json) :
    occurrences location v = (located v).map (occurrenceAt location v) := by
  induction v using Json.induction generalizing location with
  | arr items ih =>
    rw [occurrences_arr, located_arr, forest_eq, List.zipIdx_map, List.flatMap_map,
      List.map_flatMap]
    refine List.flatMap_congr ?_
    rintro ⟨item, i⟩ hchild
    dsimp only [Prod.map_apply, id_eq]
    rw [ih item (List.fst_mem_of_mem_zipIdx hchild),
      occurrenceAt_arr (List.mk_mem_zipIdx_iff_getElem?.mp hchild)]
  | obj entries ih =>
    rw [occurrences_obj, located_obj, forest_eq, List.zipIdx_map, List.flatMap_map,
      List.map_flatMap]
    conv_lhs => rw [← List.zipIdx_map_fst 0 entries, List.flatMap_map]
    refine List.flatMap_congr ?_
    rintro ⟨e, i⟩ hchild
    dsimp only [Prod.map_apply, id_eq]
    rw [ih e (List.fst_mem_of_mem_zipIdx hchild),
      occurrenceAt_obj (List.mk_mem_zipIdx_iff_getElem?.mp hchild), entryLocated, List.map_cons]
    rw [occurrenceAt, stepsAt_nil]
    rfl
  | _ => rfl

end Aggregate

end JsonInspect
