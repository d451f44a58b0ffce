import JsonInspect.Proofs.Engine.Duplicates
import JsonInspect.Proofs.Text.Location

/-! # What locations identify

The location of a listed entry is the text of the steps that lead to it. Where keys are bare, it
tells the entry from all others and leads to its value, unless the entry stands inside the value of
an empty key of the root: there the location reads as if that key were not (`identified_iff`). -/

namespace JsonInspect.Aggregate

open Json

variable {root : Json} {key : String} {p : List Nat} {v : Json}

/-! ## The places of repeated keys -/

def repeatedPlaces (root : Json) : Places :=
  (located root).filter fun place => Repeated root place.1

theorem mem_repeatedPlaces :
    (key, p, v) ∈ repeatedPlaces root ↔ entryAt? p root = some (key, v) ∧ Repeated root key := by
  rw [repeatedPlaces, List.mem_filter, mem_located, decide_eq_true_eq]

theorem nodup_repeatedPlaces (root : Json) : (repeatedPlaces root).Nodup := by
  refine List.Nodup.filter _ ((sorted_located root).imp ?_)
  rintro a b hab rfl
  exact hab.irrefl

theorem one_lt_length_occurrences :
    1 < (Entries.valuesOf key (occurrences "" root)).length ↔ Repeated root key := by
  rw [← Entries.mem_keys_repeated, ← Entries.hasKey_iff]
  exact hasKey_duplicates

/-- One occurrence is listed for each place of a repeated key. -/
theorem listed_perm (root : Json) : ((duplicates root).flatMap Prod.snd).Perm
    ((repeatedPlaces root).map fun place => (occurrenceAt "" root place).2) := by
  have hplaces : (occurrences "" root).filter
      (fun e => 1 < (Entries.valuesOf e.1 (occurrences "" root)).length) =
        (repeatedPlaces root).map (occurrenceAt "" root) := by
    simp only [one_lt_length_occurrences]
    rw [occurrences_eq, List.filter_map]
    rfl
  rw [duplicates_eq_repeated]
  refine (Entries.repeated_perm _).trans (.of_eq ?_)
  rw [hplaces, List.map_map]
  rfl

theorem mem_listed {o : Occurrence} : (∃ e ∈ duplicates root, o ∈ e.2) ↔
    ∃ key p, entryAt? p root = some (key, o.value) ∧ Repeated root key ∧
      o.location = locationFrom "" (stepsAt p root) := by
  rw [← List.mem_flatMap, (listed_perm root).mem_iff, List.mem_map]
  constructor
  · rintro ⟨⟨key, p, v⟩, hplace, rfl⟩
    obtain ⟨hp, hkey⟩ := mem_repeatedPlaces.mp hplace
    exact ⟨key, p, hp, hkey, rfl⟩
  · rintro ⟨key, p, hp, hkey, hlocation⟩
    refine ⟨(key, p, o.value), mem_repeatedPlaces.mpr ⟨hp, hkey⟩, ?_⟩
    rw [occurrenceAt, ← hlocation]

/-! ## Identifying -/

/-- The listed locations identify their entries: no two entries have the same one, and from the
root each leads to the value that is listed with it. -/
structure Identified (root : Json) : Prop where
  distinct : ((duplicates root).flatMap fun e => e.2.map Occurrence.location).Nodup
  read : ∀ e ∈ duplicates root, ∀ o ∈ e.2, Location.read o.location root = some o.value

theorem nodup_locations_iff :
    ((duplicates root).flatMap fun e => e.2.map Occurrence.location).Nodup ↔
      ∀ place ∈ repeatedPlaces root, ∀ place' ∈ repeatedPlaces root,
        locationFrom "" (stepsAt place.2.1 root) = locationFrom "" (stepsAt place'.2.1 root) →
          place = place' := by
  rw [← List.map_flatMap, ((listed_perm root).map Occurrence.location).nodup_iff, List.map_map]
  exact List.nodup_map_iff_inj_on (nodup_repeatedPlaces root)

/-! ## Bare keys -/

theorem bareSteps_stepsAt (hbare : root.everywhere Location.hasBareKeys = true) (p : List Nat) :
    Location.BareSteps (stepsAt p root) := by
  induction p generalizing root with
  | nil =>
    rw [stepsAt_nil]
    exact Location.bareSteps_nil
  | cons i rest ih =>
    cases root with
    | arr items =>
      cases hi : items[i]? with
      | none =>
        rw [stepsAt, hi]
        exact Location.bareSteps_nil
      | some item =>
        rw [stepsAt_arr hi]
        exact .index i (ih ((everywhere_arr.mp hbare).2 item (List.mem_of_getElem? hi)))
    | obj entries =>
      cases hi : entries[i]? with
      | none =>
        rw [stepsAt, hi]
        exact Location.bareSteps_nil
      | some e =>
        have hmem := List.mem_of_getElem? hi
        rw [stepsAt_obj hi]
        refine .key ?_ (ih ((everywhere_obj.mp hbare).2 e hmem))
        exact List.all_eq_true.mp (everywhere_self hbare) e.1 (Entries.mem_keys_of_mem hmem)
    | _ => exact Location.bareSteps_nil

section

variable (hdistinct : root.everywhere hasDistinctKeys = true)
  (hbare : root.everywhere Location.hasBareKeys = true)

include hdistinct in
/-- Of a place that is not inside the value of an empty key of the root everything is seen. -/
theorem visible_stepsAt (hp : entryAt? p root = some (key, v))
    (hinside : ∀ q : List Step, at? (.key "" :: q ++ [.key key]) root = none) :
    Location.visible (stepsAt p root) = stepsAt p root := by
  obtain ⟨hat, hlast⟩ := at?_stepsAt hdistinct hp
  obtain ⟨step, rest, hsteps⟩ := List.exists_cons_of_ne_nil (stepsAt_ne_nil hp)
  rw [hsteps] at hat hlast ⊢
  obtain h | ⟨rfl, hrest, -⟩ := Location.visible_cons step rest
  · exact h
  · rw [List.getLast?_cons_of_ne_nil hrest] at hlast
    obtain ⟨q, rfl⟩ := List.getLast?_eq_some_iff.mp hlast
    rw [← List.cons_append, hinside q] at hat
    cases hat

include hbare in
theorem steps_location (hp : entryAt? p root = some (key, v)) :
    Location.steps (locationFrom "" (stepsAt p root)) = Location.visible (stepsAt p root) :=
  Location.steps_locationFrom (stepsAt_ne_nil hp) (bareSteps_stepsAt hbare p)

include hdistinct hbare in
theorem identified_of_outside
    (houtside : ∀ key, Repeated root key →
      ∀ q : List Step, at? (.key "" :: q ++ [.key key]) root = none) :
    Identified root where
  distinct := by
    refine nodup_locations_iff.mpr ?_
    rintro ⟨key, p, v⟩ hplace ⟨key', p', v'⟩ hplace' hlocation
    obtain ⟨hp, hkey⟩ := mem_repeatedPlaces.mp hplace
    obtain ⟨hp', hkey'⟩ := mem_repeatedPlaces.mp hplace'
    have hsteps := congrArg Location.steps hlocation
    rw [steps_location hbare hp, steps_location hbare hp',
      visible_stepsAt hdistinct hp (houtside key hkey),
      visible_stepsAt hdistinct hp' (houtside key' hkey')] at hsteps
    obtain rfl := stepsAt_injective hdistinct hp hp' hsteps
    cases hp.symm.trans hp'
    rfl
  read := by
    intro e he o ho
    obtain ⟨key, p, hp, hkey, hlocation⟩ := mem_listed.mp ⟨e, he, ho⟩
    rw [Location.read, hlocation, steps_location hbare hp,
      visible_stepsAt hdistinct hp (houtside key hkey)]
    exact (at?_stepsAt hdistinct hp).1

include hbare in
/-- An entry inside the value of an empty key of the root has a location that is read as the place
without that key. So it leads elsewhere, or the entry there has the same location. -/
theorem outside_of_identified (hid : Identified root) (hkey : Repeated root key) (q : List Step) :
    at? (.key "" :: q ++ [.key key]) root = none := by
  by_contra hsome
  obtain ⟨v, hv⟩ := Option.ne_none_iff_exists'.mp hsome
  obtain ⟨p, hp, hsteps⟩ := exists_position hv
  have hne : q ++ [.key key] ≠ [] := List.append_ne_nil_of_right_ne_nil q (List.cons_ne_nil _ _)
  have hvisible : Location.visible (stepsAt p root) = Location.visible (q ++ [.key key]) := by
    rw [hsteps, List.cons_append, Location.visible_empty hne]
  have hread : at? (Location.visible (q ++ [.key key])) root = some v := by
    have hlisted : ∃ e ∈ duplicates root, ⟨locationFrom "" (stepsAt p root), v⟩ ∈ e.2 :=
      mem_listed.mpr ⟨key, p, hp, hkey, rfl⟩
    obtain ⟨e, he, ho⟩ := hlisted
    have hfound := hid.read e he _ ho
    rwa [Location.read, steps_location hbare hp, hvisible] at hfound
  have hsuffix := Location.visible_suffix (q ++ [.key key])
  obtain hnil | ⟨q', hq', -⟩ := List.suffix_concat_iff.mp hsuffix
  · exact Location.visible_ne_nil hne hnil
  · rw [hq'] at hread
    obtain ⟨p', hp', hsteps'⟩ := exists_position hread
    have hlocation : locationFrom "" (stepsAt p root) = locationFrom "" (stepsAt p' root) := by
      rw [hsteps', ← hq', ← hvisible, Location.locationFrom_visible]
    have hplaces := nodup_locations_iff.mp hid.distinct _ (mem_repeatedPlaces.mpr ⟨hp, hkey⟩) _
      (mem_repeatedPlaces.mpr ⟨hp', hkey⟩) hlocation
    cases hplaces
    -- The place that is read is shorter.
    have hlength := hsuffix.length_le
    rw [hq', ← hsteps', hsteps] at hlength
    simp at hlength

end

/-- In a document with bare keys, locations identify the listed entries if and only if none of them
stands inside the value of an empty key of the root. -/
theorem identified_iff (root : Json) (hdistinct : root.everywhere hasDistinctKeys = true)
    (hbare : root.everywhere Location.hasBareKeys = true) :
    Identified root ↔ ∀ key, Repeated root key →
      ∀ q : List Step, at? (.key "" :: q ++ [.key key]) root = none :=
  ⟨fun hid _ hkey q => outside_of_identified hbare hid hkey q,
    identified_of_outside hdistinct hbare⟩

/-- Elements of an array share a key, and the root has an empty key with nothing inside. -/
def sharedItems : Json :=
  .obj [("", .null), ("items", .arr [.obj [("id", .bool true)], .arr [.obj [("id", .null)]]])]

theorem sharedItems_identified :
    sharedItems.everywhere hasDistinctKeys = true ∧
      sharedItems.everywhere Location.hasBareKeys = true ∧
      (Identified sharedItems ↔ ∀ key, Repeated sharedItems key →
        ∀ q : List Step, at? (.key "" :: q ++ [.key key]) sharedItems = none) := by
  have hdistinct : sharedItems.everywhere hasDistinctKeys = true := by decide +kernel
  have hbare : sharedItems.everywhere Location.hasBareKeys = true := by decide +kernel
  exact ⟨hdistinct, hbare, identified_iff sharedItems hdistinct hbare⟩

/-- A key of the root stands inside the value of its empty key as well. -/
def emptyKeyed : Json :=
  .obj [("", .obj [("a", .num (.int 1))]), ("a", .num (.int 2))]

/-- Two entries get the same location, and it leads to one of them only. -/
theorem emptyKeyed_same_location :
    emptyKeyed.everywhere hasDistinctKeys = true ∧
      emptyKeyed.everywhere Location.hasBareKeys = true ∧
      duplicates emptyKeyed = [("a", [⟨"a", .num (.int 1)⟩, ⟨"a", .num (.int 2)⟩])] ∧
      entryAt? [0, 0] emptyKeyed = some ("a", .num (.int 1)) ∧
      entryAt? [1] emptyKeyed = some ("a", .num (.int 2)) ∧
      Location.read "a" emptyKeyed = some (.num (.int 2)) ∧ ¬ Identified emptyKeyed := by
  refine ⟨by decide +kernel, by decide +kernel, rfl, rfl, rfl, rfl, fun hid => ?_⟩
  have hsame : ((duplicates emptyKeyed).flatMap fun e => e.2.map Occurrence.location) =
      ["a", "a"] := rfl
  have hnodup := hid.distinct
  rw [hsame] at hnodup
  simp at hnodup

end JsonInspect.Aggregate
