import JsonInspect.Proofs.Engine.Duplicates
import JsonInspect.Proofs.Engine.Leaves
import Mathlib.Data.List.Flatten

/-! # Taking repeated keys out

With removal, what an aggregate has beside its block is the document beside its own block, less
the entries to which a repeated key leads (`removal_exact`). The keys that stay are counted among
those of the document (`keys_located_without`), so each of them stands there once. -/

namespace JsonInspect.Aggregate

open Json

/-! ## The keys of all entries -/

theorem keys_forest (index : Nat) (children : List Places) :
    Entries.keys (forest index children) = children.flatMap Entries.keys := by
  induction children generalizing index with
  | nil => rfl
  | cons places rest ih =>
    rw [forest, Entries.keys, List.map_append, ← Entries.keys, ← Entries.keys, ih, Places.below,
      Entries.keys_mapValues, List.flatMap_cons]

theorem keys_located_arr (items : List Json) :
    Entries.keys (located (.arr items)) =
      items.flatMap fun item => Entries.keys (located item) := by
  rw [located_arr, keys_forest, List.flatMap_map]

theorem keys_located_obj (entries : List (String × Json)) :
    Entries.keys (located (.obj entries)) =
      entries.flatMap fun e => e.1 :: Entries.keys (located e.2) := by
  rw [located_obj, keys_forest, List.flatMap_map]
  rfl

/-- Dropping keys leaves some of the entries, none of which has a dropped key. -/
theorem keys_located_without (dropped : String → Bool) (v : Json) :
    (Entries.keys (located (without dropped v))).Sublist
      ((Entries.keys (located v)).filter fun k => !dropped k) := by
  induction v using Json.induction with
  | arr items ih =>
    rw [without_arr, keys_located_arr, keys_located_arr, List.flatMap_map, List.filter_flatMap]
    exact List.Sublist.flatMap_right items ih
  | obj entries ih =>
    rw [without_obj, keys_located_obj, keys_located_obj, Entries.mapValues, List.flatMap_map,
      List.filter_flatMap]
    refine .trans (List.Sublist.flatMap_right _ fun e he => ?_)
      (List.filter_sublist.flatMap _)
    obtain ⟨hmem, hkeep⟩ := List.mem_filter.mp he
    rw [List.filter_cons, if_pos hkeep]
    exact (ih e hmem).cons_cons e.1
  | _ => exact List.Sublist.refl []

/-! ## A document and its block -/

/-- A document without its block, if it has one. -/
def unblocked : Json → Json
  | .obj entries => .obj (entries.filter fun e => e.1 ≠ blockKey)
  | v => v

theorem keys_located_unblocked (v : Json) :
    (Entries.keys (located (unblocked v))).Sublist (Entries.keys (located v)) := by
  cases v with
  | obj entries =>
    rw [unblocked, keys_located_obj, keys_located_obj]
    exact List.filter_sublist.flatMap _
  | _ => exact .refl _

theorem unblocked_attach (block : List (String × Json)) (v : Json) :
    unblocked (attach block v) = unblocked v := by
  cases v with
  | obj entries =>
    rw [attach]
    split
    · rfl
    · rw [unblocked, unblocked, Entries.filter_put fun k => k ≠ blockKey]
      simp
  | _ => rfl

theorem unblocked_without (dropped : String → Bool) (v : Json) :
    unblocked (without dropped v) = without dropped (unblocked v) := by
  cases v with
  | obj entries =>
    rw [without_obj, unblocked, unblocked, without_obj, Entries.mapValues, List.filter_map,
      List.filter_filter, Entries.mapValues, List.filter_filter]
    simp [Bool.and_comm]
  | _ => rfl

/-! ## What stays -/

/-- How a value keeps what it holds when the entries of some keys are taken out: arrays keep their
length, the keys that stay keep their order, and what holds nothing is as it was. -/
inductive Thinned (gone : String → Prop) [DecidablePred gone] : Json → Json → Prop
  | leaf {v : Json} : v.isLeaf = true → Thinned gone v v
  | array {items items' : List Json} :
    items'.length = items.length → Thinned gone (.arr items) (.arr items')
  | object {entries entries' : List (String × Json)} :
    Entries.keys entries' = (Entries.keys entries).filter (fun k => ¬ gone k) →
      Thinned gone (.obj entries) (.obj entries')

/-- The rest of a document without the entries of some keys: a place stays if and only if none of
these keys leads to it, and what stands there is thinned in the same way. -/
structure Remains (gone : String → Prop) [DecidablePred gone] (whole rest : Json) : Prop where
  stays_iff : ∀ p, (∃ w, at? p rest = some w) ↔
    (∃ v, at? p whole = some v) ∧ ∀ k, .key k ∈ p → ¬ gone k
  thinned : ∀ p v w, at? p whole = some v → at? p rest = some w → Thinned gone v w

section

variable {gone : String → Prop} [DecidablePred gone] {dropped : String → Bool}

theorem thinned_without (h : ∀ k, dropped k = true ↔ gone k) (v : Json) :
    Thinned gone v (without dropped v) := by
  cases v with
  | arr items =>
    rw [without_arr]
    exact .array (List.length_map _)
  | obj entries =>
    rw [without_obj]
    refine .object ?_
    rw [Entries.keys_mapValues, Entries.keys, Entries.keys, List.filter_map]
    refine congrArg _ (List.filter_congr fun e _ => ?_)
    simp [← h]
  | _ => exact .leaf rfl

theorem remains_without (h : ∀ k, dropped k = true ↔ gone k) (v : Json) :
    Remains gone v (without dropped v) where
  stays_iff p := by
    simp only [at?_without_iff, ← h, Bool.not_eq_true]
    constructor
    · rintro ⟨w, hp, u, hu, -⟩
      exact ⟨⟨u, hu⟩, hp⟩
    · rintro ⟨⟨u, hu⟩, hp⟩
      exact ⟨_, hp, u, hu, rfl⟩
  thinned p v w hv hw := by
    obtain ⟨-, u, hu, rfl⟩ := at?_without_iff.mp hw
    rw [hv] at hu
    cases hu
    exact thinned_without h v

end

/-- Taking out all repeated keys leaves no key twice, in any part of the document. -/
theorem not_repeated_without {root part : Json} {dropped : String → Bool}
    (h : ∀ k, Repeated root k → dropped k = true)
    (hpart : (Entries.keys (located part)).Sublist (Entries.keys (located root))) (key : String) :
    ¬ Repeated (without dropped part) key := by
  intro hkey
  rw [repeated_iff_count] at hkey
  have hkept := keys_located_without dropped part
  have hmem : key ∈ (Entries.keys (located part)).filter fun k => !dropped k :=
    hkept.subset (List.count_pos_iff.mp (Nat.zero_lt_of_lt hkey))
  have hcount : 1 < (Entries.keys (located root)).count key :=
    calc 1 < (Entries.keys (located (without dropped part))).count key := hkey
      _ ≤ (Entries.keys (located part)).count key := (hkept.trans List.filter_sublist).count_le key
      _ ≤ (Entries.keys (located root)).count key := hpart.count_le key
  have hdropped := h key (repeated_iff_count.mpr hcount)
  simp [hdropped] at hmem

/-- In either mode, removal takes out of an object the entries to which a key leads that is
repeated anywhere in it, and nothing else. The block apart, no key stands twice in what remains. -/
theorem removal_exact (mode : AggregateMode) (entries : List (String × Json)) :
    ∃ result, aggregate ⟨mode, true⟩ (.obj entries) = .ok result ∧
      Remains (Repeated (.obj entries)) (unblocked (.obj entries)) (unblocked result) ∧
      ∀ key, ¬ Repeated (unblocked result) key := by
  refine ⟨_, aggregate_obj ⟨mode, true⟩ entries, ?_⟩
  have hbody : body true (.obj entries) =
      without (Entries.hasKey (duplicates (.obj entries))) (.obj entries) := rfl
  rw [unblocked_attach, hbody, unblocked_without]
  exact ⟨remains_without (fun _ => hasKey_duplicates) _,
    not_repeated_without (fun _ => hasKey_duplicates.mpr) (keys_located_unblocked _)⟩

end JsonInspect.Aggregate
