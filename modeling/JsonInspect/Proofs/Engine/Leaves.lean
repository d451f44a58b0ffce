import JsonInspect.Proofs.Engine.Occurrences
import JsonInspect.Proofs.Engine.WellFormed

/-! # What aggregating keeps

Collecting lists every occurrence of a repeated key with the whole value that stood there, so
what is taken out of the body is found in the block (`keeps_of_repeated`). What is lost is what
the root had under the block's own key, unless a repeated key leads to it. -/

namespace JsonInspect

open Json

namespace Aggregate

/-! ## Occurrences -/

/-- Every entry of every object is an occurrence of its key. -/
theorem mem_occurrences {location k : String} {q : List Step} {root v : Json}
    (h : at? (q ++ [.key k]) root = some v) :
    (k, ⟨locationFrom location (q ++ [.key k]), v⟩) ∈ occurrences location root := by
  obtain ⟨p, hp, hsteps⟩ := exists_position h
  rw [occurrences_eq, ← hsteps]
  exact List.mem_map_of_mem ((mem_located root k p v).mpr hp)

/-- A repeated key is found with all its occurrences. -/
theorem lookup_duplicates {root : Json} {k : String}
    (h : Entries.hasKey (duplicates root) k = true) :
    (duplicates root).lookup k = some (Entries.valuesOf k (occurrences "" root)) := by
  obtain ⟨⟨k, found⟩, he, rfl⟩ := List.mem_map.mp (Entries.hasKey_iff.mp h)
  rw [← (Entries.mem_repeated.mp he).1]
  exact Entries.lookup_of_mem (nodup_duplicates root) he

/-! ## The body -/

/-- What stands at a place stays there exactly if no dropped key leads to it. -/
theorem at?_without_iff {dropped : String → Bool} {p : List Step} {root w : Json} :
    at? p (without dropped root) = some w ↔
      (∀ k, .key k ∈ p → dropped k = false) ∧ ∃ v, at? p root = some v ∧ w = without dropped v := by
  induction p generalizing root with
  | nil =>
    constructor
    · intro h
      refine ⟨?_, root, rfl, (Option.some.inj h).symm⟩
      intro k hk
      cases hk
    · rintro ⟨-, v, hv, rfl⟩
      cases hv
      rfl
  | cons step rest ih =>
    cases step with
    | key k =>
      cases root with
      | obj entries =>
        rw [without_obj, at?_key, at?_key, Entries.lookup_mapValues,
          Entries.lookup_filter (fun k => !dropped k)]
        cases hk : dropped k with
        | true => simp [hk]
        | false =>
          cases entries.lookup k with
          | none => simp
          | some child => simpa [hk] using ih
      | _ => simp [without, at?]
    | index i =>
      cases root with
      | arr items =>
        rw [without_arr, at?_index, at?_index, List.getElem?_map]
        cases items[i]? with
        | none => simp
        | some item => simpa using ih
      | _ => simp [without, at?]

theorem without_leaf {dropped : String → Bool} {v : Json} (h : v.isLeaf = true) :
    without dropped v = v := by
  cases v with
  | arr items => cases h
  | obj entries => cases h
  | _ => rfl

/-- The document without its block, in an aggregate. -/
def body (removal : Bool) (root : Json) : Json :=
  if removal then without (Entries.hasKey (duplicates root)) root else root

theorem at?_body {removal : Bool} {p : List Step} {root leaf : Json} (hl : leaf.isLeaf = true)
    (hp : ∀ k, .key k ∈ p → Entries.hasKey (duplicates root) k = false)
    (h : at? p root = some leaf) : at? p (body removal root) = some leaf := by
  unfold body
  split
  · exact at?_without_iff.mpr ⟨hp, leaf, h, (without_leaf hl).symm⟩
  · exact h

theorem body_obj (removal : Bool) (entries : List (String × Json)) :
    ∃ rest, body removal (.obj entries) = .obj rest := by
  unfold body
  split
  · exact ⟨_, without_obj _ entries⟩
  · exact ⟨entries, rfl⟩

/-! ## The block -/

def listings (root : Json) : List (String × Json) := Entries.mapValues listing (duplicates root)

theorem listings_eq_nil {root : Json} : listings root = [] ↔ duplicates root = [] :=
  List.map_eq_nil_iff

/-- The block of a document: its repeated keys, each with its occurrences put together. -/
def block (mode : AggregateMode) (root : Json) : List (String × Json) :=
  Entries.mapValues (combine mode) (duplicates root)

theorem aggregate_obj (options : AggregateOptions) (entries : List (String × Json)) :
    aggregate options (.obj entries) =
      .ok (attach (block options.mode (.obj entries)) (body options.removal (.obj entries))) := rfl

theorem aggregate_collect (removal : Bool) (entries : List (String × Json)) :
    aggregate ⟨.collect, removal⟩ (.obj entries) =
      .ok (attach (listings (.obj entries)) (body removal (.obj entries))) := rfl

/-- The occurrence that an entry with a repeated key is has its place in the block. -/
theorem at?_listings {root v : Json} {q : List Step} {k : String}
    (hk : Entries.hasKey (duplicates root) k = true) (h : at? (q ++ [.key k]) root = some v) :
    ∃ i, ∀ r, at? (.key k :: .index i :: r) (.obj (listings root)) =
      at? r (.obj [("path", .str (locationFrom "" (q ++ [.key k]))), ("value", v)]) := by
  have hmem : _ ∈ Entries.valuesOf k (occurrences "" root) :=
    Entries.mem_valuesOf.mpr (mem_occurrences h)
  obtain ⟨i, hi⟩ := List.mem_iff_getElem?.mp hmem
  refine ⟨i, fun r => ?_⟩
  rw [at?_key, listings, Entries.lookup_mapValues, lookup_duplicates hk, Option.map_some,
    Option.bind_some, listing, at?_index, List.getElem?_map, hi]
  rfl

section

variable {block rest : List (String × Json)}

theorem at?_attach_block (hb : block ≠ []) (r : List Step) :
    at? (.key blockKey :: r) (attach block (.obj rest)) = at? r (.obj block) := by
  rw [attach, if_neg (mt List.isEmpty_iff.mp hb), at?_key, Entries.lookup_put_self]
  rfl

theorem at?_attach_of_ne {step : Step} (r : List Step) (hs : step ≠ .key blockKey) :
    at? (step :: r) (attach block (.obj rest)) = at? (step :: r) (.obj rest) := by
  rw [attach]
  split
  · rfl
  · cases step with
    | key k =>
      rw [at?_key, at?_key, Entries.lookup_put_of_ne]
      intro h
      exact hs (h ▸ rfl)
    | index i => rfl

end

/-! ## Keeping a leaf -/

/-- A leaf of the root is found in the result: at its place, or at its place in the value of an
occurrence that the block lists with its location. -/
def Keeps (result : Json) (p : List Step) (leaf : Json) : Prop :=
  at? p result = some leaf ∨
    ∃ q k r i, p = q ++ .key k :: r ∧
      at? [.key blockKey, .key k, .index i, .key "path"] result =
        some (.str (locationFrom "" (q ++ [.key k]))) ∧
      at? (.key blockKey :: .key k :: .index i :: .key "value" :: r) result = some leaf

/-- A leaf to which a repeated key leads is listed in the block. -/
theorem keeps_of_repeated {rest : List (String × Json)} {root leaf : Json} {p : List Step}
    {k : String} (hp : at? p root = some leaf) (hk : .key k ∈ p)
    (hrep : Entries.hasKey (duplicates root) k = true) :
    Keeps (attach (listings root) (.obj rest)) p leaf := by
  obtain ⟨q, r, rfl⟩ := List.append_of_mem hk
  have hsplit : at? (q ++ .key k :: r) root = (at? (q ++ [.key k]) root).bind (at? r) := by
    rw [← at?_append, List.append_assoc]
    rfl
  rw [hsplit] at hp
  obtain ⟨v, hv, hleaf⟩ := Option.bind_eq_some_iff.mp hp
  obtain ⟨i, hi⟩ := at?_listings hrep hv
  have hblock : listings root ≠ [] := by
    rw [Ne, listings_eq_nil]
    intro hnil
    rw [hnil] at hrep
    cases hrep
  refine .inr ⟨q, k, r, i, rfl, ?_, ?_⟩
  · rw [at?_attach_block hblock, hi]
    rfl
  · rw [at?_attach_block hblock, hi, at?_key]
    exact hleaf

/-- A leaf to which no repeated key leads stays at its place if the block is not put above it. -/
theorem keeps_of_body {entries : List (String × Json)} {removal : Bool} {leaf : Json}
    {p : List Step} (hl : leaf.isLeaf = true) (hp : at? p (.obj entries) = some leaf)
    (hrep : ∀ k, .key k ∈ p → Entries.hasKey (duplicates (.obj entries)) k = false)
    (h : duplicates (.obj entries) = [] ∨ p.head? ≠ some (.key blockKey)) :
    Keeps (attach (listings (.obj entries)) (body removal (.obj entries))) p leaf := by
  have hbody : at? p (body removal (.obj entries)) = some leaf := at?_body hl hrep hp
  obtain ⟨rest, hrest⟩ := body_obj removal entries
  rw [hrest] at hbody ⊢
  left
  rcases h with hnil | hhead
  · rw [listings_eq_nil.mpr hnil]
    exact hbody
  · cases p with
    | nil =>
      cases hp
      cases hl
    | cons step r =>
      rw [at?_attach_of_ne r fun hs => hhead (hs ▸ rfl)]
      exact hbody

/-- Under the block's key nothing but the listings of repeated keys is found. -/
theorem not_keeps_of_overwritten {rest : List (String × Json)} {root leaf : Json} {p : List Step}
    (hl : leaf.isLeaf = true) (hdup : duplicates root ≠ [])
    (hrep : ∀ k, .key k ∈ p → Entries.hasKey (duplicates root) k = false)
    (hhead : p.head? = some (.key blockKey)) :
    ¬ Keeps (attach (listings root) (.obj rest)) p leaf := by
  have hblock : listings root ≠ [] := fun h => hdup (listings_eq_nil.mp h)
  have hnone : ∀ k, Entries.hasKey (duplicates root) k = false →
      ∀ r, at? (.key k :: r) (.obj (listings root)) = none := by
    intro k hk r
    have hlookup : (duplicates root).lookup k = none := by
      rwa [Entries.hasKey, Option.isSome_eq_false_iff, Option.isNone_iff_eq_none] at hk
    rw [at?_key, listings, Entries.lookup_mapValues, hlookup]
    rfl
  rintro (h | ⟨q, k, r, i, rfl, h, -⟩)
  · cases p with
    | nil => cases hhead
    | cons step r =>
      obtain rfl := Option.some.inj hhead
      rw [at?_attach_block hblock] at h
      cases r with
      | nil =>
        cases h
        cases hl
      | cons step r =>
        cases step with
        | key k =>
          rw [hnone k (hrep k (by simp)) r] at h
          cases h
        | index i => cases h
  · rw [at?_attach_block hblock, hnone k (hrep k (by simp))] at h
    cases h

/-- In collect mode every leaf of an object is kept, whether repeated keys are taken out or not,
except for what no repeated key leads to under a key with the name of the block, when there is a
block to put in its place. -/
theorem collect_keeps_iff (entries : List (String × Json)) (removal : Bool) (p : List Step)
    (leaf : Json) (hl : leaf.isLeaf = true) (hp : at? p (.obj entries) = some leaf) :
    ∃ result, aggregate ⟨.collect, removal⟩ (.obj entries) = .ok result ∧
      (Keeps result p leaf ↔
        duplicates (.obj entries) = [] ∨ p.head? ≠ some (.key "__aggregated") ∨
          ∃ k, .key k ∈ p ∧ Entries.hasKey (duplicates (.obj entries)) k = true) := by
  refine ⟨_, aggregate_collect removal entries, ?_⟩
  by_cases hrep : ∃ k, .key k ∈ p ∧ Entries.hasKey (duplicates (.obj entries)) k = true
  · refine iff_of_true ?_ (.inr (.inr hrep))
    obtain ⟨k, hk, hdup⟩ := hrep
    obtain ⟨rest, hrest⟩ := body_obj removal entries
    rw [hrest]
    exact keeps_of_repeated hp hk hdup
  · have hnone : ∀ k, .key k ∈ p → Entries.hasKey (duplicates (.obj entries)) k = false := by
      intro k hk
      rw [← Bool.not_eq_true]
      intro hdup
      exact hrep ⟨k, hk, hdup⟩
    by_cases hbody : duplicates (.obj entries) = [] ∨ p.head? ≠ some (.key blockKey)
    · refine iff_of_true (keeps_of_body hl hp hnone hbody) ?_
      exact hbody.imp id .inl
    · rw [not_or, not_not] at hbody
      obtain ⟨rest, hrest⟩ := body_obj removal entries
      rw [hrest]
      refine iff_of_false (not_keeps_of_overwritten hl hbody.1 hnone hbody.2) ?_
      rintro (h | h | h)
      · exact hbody.1 h
      · exact h hbody.2
      · exact hrep h

def sharedKey : List (String × Json) :=
  [("a", .obj [("x", .num (.int 1))]), ("b", .obj [("x", .num (.int 2))])]

/-- A leaf under a repeated key is kept. -/
theorem collect_keeps_shared :
    (Json.num (.int 1)).isLeaf = true ∧
      at? [.key "a", .key "x"] (.obj sharedKey) = some (.num (.int 1)) ∧
      ∃ result, aggregate ⟨.collect, true⟩ (.obj sharedKey) = .ok result ∧
        (Keeps result [.key "a", .key "x"] (.num (.int 1)) ↔
          duplicates (.obj sharedKey) = [] ∨
            [Step.key "a", .key "x"].head? ≠ some (.key "__aggregated") ∨
            ∃ k, .key k ∈ [Step.key "a", .key "x"] ∧
              Entries.hasKey (duplicates (.obj sharedKey)) k = true) :=
  ⟨rfl, rfl, collect_keeps_iff sharedKey true [.key "a", .key "x"] (.num (.int 1)) rfl rfl⟩

def shadowedNumber : List (String × Json) := sharedKey ++ [("__aggregated", .num (.int 5))]

def sharedBlock : Json :=
  .obj [("x", .arr [.obj [("path", .str "a.x"), ("value", .num (.int 1))],
    .obj [("path", .str "b.x"), ("value", .num (.int 2))]])]

/-- A number under the block's key is nowhere in the result, with or without removal. -/
theorem collect_overwrites_number :
    at? [.key "__aggregated"] (.obj shadowedNumber) = some (.num (.int 5)) ∧
      (∃ result, aggregate ⟨.collect, true⟩ (.obj shadowedNumber) = .ok result ∧
        result = .obj [("a", .obj []), ("b", .obj []), ("__aggregated", sharedBlock)] ∧
        ¬ Keeps result [.key "__aggregated"] (.num (.int 5))) ∧
      ∃ result, aggregate ⟨.collect, false⟩ (.obj shadowedNumber) = .ok result ∧
        result = .obj (sharedKey ++ [("__aggregated", sharedBlock)]) ∧
        ¬ Keeps result [.key "__aggregated"] (.num (.int 5)) := by
  have hdup : duplicates (.obj shadowedNumber) ≠ [] := by
    intro h
    have hx : Entries.hasKey (duplicates (.obj shadowedNumber)) "x" = true := by decide +kernel
    rw [h] at hx
    cases hx
  have hrep : ∀ k, .key k ∈ [Step.key "__aggregated"] →
      Entries.hasKey (duplicates (.obj shadowedNumber)) k = false := by
    intro k hk
    cases List.mem_singleton.mp hk
    decide +kernel
  refine ⟨rfl, ⟨_, aggregate_collect true shadowedNumber, rfl, ?_⟩,
    _, aggregate_collect false shadowedNumber, rfl, ?_⟩
  · exact not_keeps_of_overwritten rfl hdup hrep rfl
  · exact not_keeps_of_overwritten rfl hdup hrep rfl

end Aggregate

end JsonInspect
