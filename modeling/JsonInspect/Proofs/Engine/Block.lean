import JsonInspect.Proofs.Engine.Removal

/-! # The block of repeated keys

An aggregate has a block exactly if some key of the document repeats, with the repeated keys in the
order in which they are found (`aggregate_block`). Merging unites the occurrences of a key if all of
them are objects; in every other case they are listed. -/

namespace JsonInspect

def Json.entries : Json → List (String × Json)
  | .obj entries => entries
  | _ => []

namespace Aggregate

open Json

/-! ## One key of the block -/

/-- What a repeated key has in the block: its occurrences united, in merge mode and if all of them
are objects, or listed with their locations. -/
inductive Combined (mode : AggregateMode) (found : List Occurrence) : Json → Prop
  | united {all : List (String × Json)} :
    mode = .merge → (∀ o ∈ found, o.value.isObject = true) →
      Entries.United (found.map fun o => o.value.entries) all → Combined mode found (.obj all)
  | listed :
    mode = .collect ∨ (∃ o ∈ found, o.value.isObject = false) →
      Combined mode found (.arr (found.map fun o =>
        .obj [("path", .str o.location), ("value", o.value)]))

theorem mergeEntries_eq (found : List Occurrence) :
    mergeEntries found = Entries.ofPairs (found.map fun o => o.value.entries).flatten := by
  rw [mergeEntries, List.flatMap_def]
  refine congrArg (fun f => Entries.ofPairs (List.map f found).flatten) (funext fun o => ?_)
  cases o.value with
  | _ => rfl

theorem combined_combine (mode : AggregateMode) (found : List Occurrence) :
    Combined mode found (combine mode found) := by
  rw [combine]
  split
  · rename_i h
    rw [mergeEntries_eq]
    exact .united h.1 (List.all_eq_true.mp h.2) (Entries.united_ofPairs _)
  · rename_i h
    refine .listed ?_
    cases mode with
    | collect => exact .inl rfl
    | merge =>
      right
      simpa using h

/-! ## The whole block -/

theorem without_nothing {dropped : String → Bool} (h : ∀ k, dropped k = false) (v : Json) :
    without dropped v = v := by
  induction v using Json.induction with
  | arr items ih =>
    have hitems : items.map (without dropped) = items.map id := List.map_congr_left ih
    rw [without_arr, hitems, List.map_id]
  | obj entries ih =>
    have hall : (entries.filter fun e => !dropped e.1) = entries :=
      List.filter_eq_self.mpr fun e _ => by rw [h e.1]; rfl
    have hentries : Entries.mapValues (without dropped) entries = entries.map id :=
      List.map_congr_left fun e he => Prod.ext rfl (ih e he)
    rw [without_obj, hall, hentries, List.map_id]
  | _ => rfl

theorem body_of_no_duplicates {root : Json} (h : duplicates root = []) (removal : Bool) :
    body removal root = root := by
  cases removal with
  | false => rfl
  | true => exact without_nothing (fun _ => by rw [h]; rfl) root

/-- What an aggregate is for an object: the object itself if no key repeats. Otherwise it has a
block with the repeated keys in the order in which they are found, each with all its occurrences in
document order put together. Without removal everything else is as it was. -/
structure Aggregated (options : AggregateOptions) (root result : Json) : Prop where
  unchanged : duplicates root = [] → result = root
  attached : duplicates root ≠ [] → ∃ block,
    at? [.key "__aggregated"] result = some (.obj block) ∧
      List.Forall₂ (fun key e => e.1 = key ∧ Combined options.mode (occurrencesOf root key) e.2)
        (Entries.keys (duplicates root)) block
  kept : options.removal = false → unblocked result = unblocked root

theorem aggregate_block (options : AggregateOptions) (entries : List (String × Json)) :
    ∃ result, aggregate options (.obj entries) = .ok result ∧
      Aggregated options (.obj entries) result := by
  refine ⟨_, aggregate_obj options entries, ?_, ?_, ?_⟩
  · intro hnone
    rw [block, hnone, body_of_no_duplicates hnone]
    rfl
  · intro hsome
    obtain ⟨rest, hrest⟩ := body_obj options.removal entries
    refine ⟨block options.mode (.obj entries), ?_, ?_⟩
    · have hblock : block options.mode (.obj entries) ≠ [] := mt List.map_eq_nil_iff.mp hsome
      rw [hrest, ← blockKey, at?_attach_block hblock]
      rfl
    · rw [block, Entries.mapValues, Entries.keys, List.forall₂_map_left_iff,
        List.forall₂_map_right_iff, List.forall₂_same]
      intro e he
      rw [← listed_eq he]
      exact ⟨rfl, combined_combine options.mode e.2⟩
  · intro hkeep
    rw [unblocked_attach, hkeep]
    rfl

end Aggregate

end JsonInspect
