import JsonInspect.Proofs.Engine.Occurrences
import JsonInspect.Proofs.Json.Gathered

/-! # Repeated keys

The traversal that looks for repeated keys meets every entry of a document once, in document
order (`values_occurrences`, with `mem_located` and `sorted_located`). So the keys that are found
are those of two entries or more, with one occurrence for each entry
(`duplicates_repeatedKeys`). -/

namespace JsonInspect.Aggregate

open Json

/-! ## The traversal -/

/-- The occurrences are all entries. -/
theorem values_occurrences (location : String) (v : Json) :
    Entries.mapValues Occurrence.value (occurrences location v) =
      Entries.mapValues Prod.snd (located v) := by
  rw [occurrences_eq, Entries.mapValues, List.map_map]
  rfl

/-- Repeated keys are those of the places, with the values that stand there. -/
theorem values_duplicates (root : Json) :
    Entries.mapValues (List.map Occurrence.value) (duplicates root) =
      Entries.mapValues (List.map Prod.snd) (Entries.repeated (located root)) := by
  rw [duplicates_eq_repeated, ← Entries.repeated_mapValues, values_occurrences,
    Entries.repeated_mapValues]

theorem keys_duplicates (root : Json) :
    Entries.keys (duplicates root) = Entries.keys (Entries.repeated (located root)) := by
  rw [← Entries.keys_mapValues (List.map Occurrence.value), values_duplicates,
    Entries.keys_mapValues]

/-! ## The places of one key -/

variable {root : Json} {key : String}

theorem mem_places {p : List Nat} {v : Json} :
    (p, v) ∈ Entries.valuesOf key (located root) ↔ entryAt? p root = some (key, v) :=
  Entries.mem_valuesOf.trans (mem_located root key p v)

theorem sorted_places (root : Json) (key : String) :
    (Entries.valuesOf key (located root)).Pairwise fun a b => Before a.1 b.1 :=
  List.pairwise_map.mpr ((sorted_located root).filter _)

theorem nodup_places (root : Json) (key : String) :
    (Entries.valuesOf key (located root)).Nodup := by
  refine (sorted_places root key).imp ?_
  rintro a b hab rfl
  exact hab.irrefl

theorem places_several : 1 < (Entries.valuesOf key (located root)).length ↔
    ∃ p q v w, p ≠ q ∧ entryAt? p root = some (key, v) ∧ entryAt? q root = some (key, w) := by
  rw [one_lt_length_iff (nodup_places root key)]
  constructor
  · rintro ⟨⟨p, v⟩, hp, ⟨q, w⟩, hq, hne⟩
    rw [mem_places] at hp hq
    refine ⟨p, q, v, w, fun hpq => hne ?_, hp, hq⟩
    subst hpq
    cases hp.symm.trans hq
    rfl
  · rintro ⟨p, q, v, w, hne, hp, hq⟩
    exact ⟨_, mem_places.mpr hp, _, mem_places.mpr hq, fun he => hne (Prod.mk.inj he).1⟩

/-- Two entries of a document, at different positions, have the key. -/
def Repeated (root : Json) (key : String) : Prop :=
  ∃ p q v w, p ≠ q ∧ entryAt? p root = some (key, v) ∧ entryAt? q root = some (key, w)

theorem hasKey_duplicates : Entries.hasKey (duplicates root) key = true ↔ Repeated root key := by
  rw [Entries.hasKey_iff, keys_duplicates, Entries.mem_keys_repeated, places_several, Repeated]

theorem repeated_iff_count : Repeated root key ↔ 1 < (Entries.keys (located root)).count key := by
  rw [Repeated, ← places_several, Entries.length_valuesOf]

instance : DecidablePred (Repeated root) := fun _ => decidable_of_iff _ repeated_iff_count.symm

/-! ## What is listed -/

/-- The occurrences of a key: all its entries in document order, each with the location of the
steps that lead to it. -/
def occurrencesOf (root : Json) (key : String) : List Occurrence :=
  (Entries.valuesOf key (located root)).map fun place =>
    ⟨locationFrom "" (stepsAt place.1 root), place.2⟩

theorem valuesOf_occurrences (root : Json) (key : String) :
    Entries.valuesOf key (occurrences "" root) = occurrencesOf root key := by
  rw [occurrencesOf, occurrences_eq, Entries.valuesOf, Entries.valuesOf, List.filter_map,
    List.map_map, List.map_map]
  rfl

theorem listed_eq {e : String × List Occurrence} (h : e ∈ duplicates root) :
    e.2 = occurrencesOf root e.1 :=
  (Entries.mem_repeated.mp h).1.trans (valuesOf_occurrences root e.1)

/-- A list of repeated keys is exhaustive and in document order: it has the keys of two entries
or more, at any depth, in the order of their first entries, and each with the values of all its
entries as they stand in the document. -/
structure RepeatedKeys (root : Json) (found : List (String × List Occurrence)) : Prop where
  keys_iff : ∀ key, key ∈ Entries.keys found ↔
    ∃ p q v w, p ≠ q ∧ entryAt? p root = some (key, v) ∧ entryAt? q root = some (key, w)
  ordered : (Entries.keys found).Pairwise fun a b =>
    ∃ p v, entryAt? p root = some (a, v) ∧ ∀ q w, entryAt? q root = some (b, w) → Before p q
  listed : ∀ key all, (key, all) ∈ found → ∃ ps : List (List Nat), ps.Pairwise Before ∧
    (∀ p, p ∈ ps ↔ ∃ v, entryAt? p root = some (key, v)) ∧
    (ps.map fun p => entryAt? p root) = all.map fun o => some (key, o.value)

theorem duplicates_repeatedKeys (root : Json) : RepeatedKeys root (duplicates root) where
  keys_iff key := by
    rw [keys_duplicates, Entries.mem_keys_repeated, places_several]
  ordered := by
    rw [keys_duplicates]
    refine List.Pairwise.sublist (Entries.keys_repeated_sublist _) ?_
    refine (Entries.keys_gather_pairwise (sorted_located root)).imp ?_
    rintro a b ⟨⟨k, p, v⟩, hmem, rfl, hfirst⟩
    exact ⟨p, v, (mem_located root k p v).mp hmem, fun q w hq =>
      hfirst (b, q, w) ((mem_located root b q w).mpr hq) rfl⟩
  listed key all hall := by
    have hmem : (key, all.map Occurrence.value) ∈
        Entries.mapValues (List.map Prod.snd) (Entries.repeated (located root)) := by
      rw [← values_duplicates]
      exact List.mem_map_of_mem hall
    obtain ⟨⟨k, places⟩, hplaces, he⟩ := List.mem_map.mp hmem
    obtain ⟨rfl, hvalues⟩ := Prod.mk.inj he
    obtain ⟨rfl, -⟩ := Entries.mem_repeated.mp hplaces
    refine ⟨(Entries.valuesOf k (located root)).map Prod.fst,
      List.pairwise_map.mpr (sorted_places root k), fun p => ?_, ?_⟩
    · rw [List.mem_map]
      constructor
      · rintro ⟨⟨p, v⟩, hp, rfl⟩
        exact ⟨v, mem_places.mp hp⟩
      · rintro ⟨v, hv⟩
        exact ⟨(p, v), mem_places.mpr hv, rfl⟩
    · have hplaced : ∀ place ∈ Entries.valuesOf k (located root),
          entryAt? place.1 root = some (k, place.2) := fun place hplace => mem_places.mp hplace
      calc ((Entries.valuesOf k (located root)).map Prod.fst).map (fun p => entryAt? p root)
          = (Entries.valuesOf k (located root)).map fun place => some (k, place.2) := by
            rw [List.map_map]
            exact List.map_congr_left hplaced
        _ = ((Entries.valuesOf k (located root)).map Prod.snd).map fun v => some (k, v) := by
            rw [List.map_map]
            rfl
        _ = all.map fun o => some (k, o.value) := by
            rw [hvalues, List.map_map]
            rfl

end JsonInspect.Aggregate
