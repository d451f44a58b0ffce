import JsonInspect.Proofs.Json.Tree

/-! # Positions of entries

The position of an entry is the list of the indices that lead to it, through elements of arrays
and entries of objects. Positions are ordered lexicographically: an entry comes before everything
below it, and all of that before what follows the entry. This is the order of the document.
`located` lists all entries, each once (`mem_located`) and in that order (`sorted_located`). -/

namespace JsonInspect.Json

def entryAt? : List Nat → Json → Option (String × Json)
  | i :: rest, obj entries =>
    entries[i]?.bind fun e => if rest = [] then some e else entryAt? rest e.2
  | i :: rest, arr items => items[i]?.bind (entryAt? rest)
  | _, _ => none

/-- The order of positions in a document. -/
def Before (p q : List Nat) : Prop := List.Lex (· < ·) p q

theorem Before.irrefl (p : List Nat) : ¬ Before p p := by
  induction p with
  | nil =>
    intro h
    cases h
  | cons i p ih =>
    intro h
    cases h with
    | cons h => exact ih h
    | rel h => exact Nat.lt_irrefl i h

/-! ## One list of positions for the children of a container -/

abbrev Places := List (String × List Nat × Json)

/-- Everything that stands below a child, one level up. -/
def Places.below (index : Nat) (places : Places) : Places :=
  Entries.mapValues (fun place => (index :: place.1, place.2)) places

/-- What stands below several children, numbered from an index. -/
def forest (index : Nat) : List Places → Places
  | [] => []
  | places :: rest => places.below index ++ forest (index + 1) rest

def Places.Sorted (places : Places) : Prop := places.Pairwise fun a b => Before a.2.1 b.2.1

variable {key : String} {p : List Nat} {v : Json} {index : Nat}

theorem mem_below {places : Places} :
    (key, p, v) ∈ places.below index ↔ ∃ rest, p = index :: rest ∧ (key, rest, v) ∈ places := by
  rw [Places.below, Entries.mapValues, List.mem_map]
  constructor
  · rintro ⟨⟨k, rest, w⟩, hmem, he⟩
    cases he
    exact ⟨rest, rfl, hmem⟩
  · rintro ⟨rest, rfl, hmem⟩
    exact ⟨_, hmem, rfl⟩

theorem mem_forest {children : List Places} :
    (key, p, v) ∈ forest index children ↔
      ∃ i rest places, p = (index + i) :: rest ∧ children[i]? = some places ∧
        (key, rest, v) ∈ places := by
  induction children generalizing index with
  | nil => simp [forest]
  | cons places children ih =>
    rw [forest, List.mem_append, mem_below, ih]
    constructor
    · rintro (⟨rest, rfl, hmem⟩ | ⟨i, rest, places', rfl, hi, hmem⟩)
      · exact ⟨0, rest, places, rfl, rfl, hmem⟩
      · refine ⟨i + 1, rest, places', ?_, hi, hmem⟩
        rw [Nat.add_right_comm, Nat.add_assoc]
    · rintro ⟨i, rest, places', rfl, hi, hmem⟩
      cases i with
      | zero =>
        cases hi
        exact .inl ⟨rest, rfl, hmem⟩
      | succ i =>
        refine .inr ⟨i, rest, places', ?_, hi, hmem⟩
        rw [Nat.add_right_comm, Nat.add_assoc]

theorem sorted_below {places : Places} (h : places.Sorted) : (places.below index).Sorted :=
  List.pairwise_map.mpr (h.imp fun hab => .cons hab)

theorem sorted_forest {children : List Places} (h : ∀ places ∈ children, places.Sorted) :
    (forest index children).Sorted := by
  induction children generalizing index with
  | nil => exact .nil
  | cons places children ih =>
    rw [List.forall_mem_cons] at h
    refine List.pairwise_append.mpr ⟨sorted_below h.1, ih h.2, ?_⟩
    rintro ⟨k, p, v⟩ ha ⟨k', q, w⟩ hb
    obtain ⟨rest, rfl, -⟩ := mem_below.mp ha
    obtain ⟨i, rest', _, rfl, -⟩ := mem_forest.mp hb
    exact .rel (by omega)

/-! ## All entries of a value -/

mutual

def located : Json → Places
  | arr items => itemsLocated 0 items
  | obj entries => entriesLocated 0 entries
  | _ => []

def itemsLocated (index : Nat) : List Json → Places
  | [] => []
  | item :: rest => (located item).below index ++ itemsLocated (index + 1) rest

def entriesLocated (index : Nat) : List (String × Json) → Places
  | [] => []
  | (key, child) :: rest =>
    Places.below index ((key, [], child) :: located child) ++ entriesLocated (index + 1) rest

end

/-- An entry, at no distance from itself, and the entries below it. -/
def entryLocated (e : String × Json) : Places := (e.1, [], e.2) :: located e.2

theorem located_arr (items : List Json) : located (arr items) = forest 0 (items.map located) := by
  have h : ∀ index, itemsLocated index items = forest index (items.map located) := by
    induction items with
    | nil => exact fun _ => rfl
    | cons item rest ih =>
      intro index
      rw [itemsLocated, ih, List.map_cons, forest]
  rw [located, h]

theorem located_obj (entries : List (String × Json)) :
    located (obj entries) = forest 0 (entries.map entryLocated) := by
  have h : ∀ index, entriesLocated index entries = forest index (entries.map entryLocated) := by
    induction entries with
    | nil => exact fun _ => rfl
    | cons e rest ih =>
      intro index
      rw [entriesLocated, ih, List.map_cons, forest]
      rfl
  rw [located, h]

theorem entryAt?_nil (root : Json) : entryAt? [] root = none := by
  cases root <;> rfl

theorem entryAt?_of_not_container {root : Json} (h : root.isContainer = false) (p : List Nat) :
    entryAt? p root = none := by
  cases root with
  | arr items => cases h
  | obj entries => cases h
  | _ => cases p <;> rfl

theorem entryAt?_arr (i : Nat) (rest : List Nat) (items : List Json) :
    entryAt? (i :: rest) (arr items) = items[i]?.bind (entryAt? rest) := rfl

theorem entryAt?_obj (i : Nat) (rest : List Nat) (entries : List (String × Json)) :
    entryAt? (i :: rest) (obj entries) =
      entries[i]?.bind fun e => if rest = [] then some e else entryAt? rest e.2 := rfl

theorem mem_entryLocated {e : String × Json}
    (h : ∀ p, (key, p, v) ∈ located e.2 ↔ entryAt? p e.2 = some (key, v)) :
    (key, p, v) ∈ entryLocated e ↔
      (if p = [] then some e else entryAt? p e.2) = some (key, v) := by
  rw [entryLocated, List.mem_cons, h]
  split
  · rename_i hnil
    subst hnil
    rw [entryAt?_nil]
    constructor
    · rintro (he | he) <;> cases he
      rfl
    · rintro he
      cases he
      exact .inl rfl
  · rename_i hp
    refine or_iff_right fun he => hp ?_
    cases he
    rfl

/-- What is listed below the children is reached through one of them. -/
theorem mem_forest_map {α : Type} {children : List α} {places : α → Places}
    {reach : α → List Nat → Option (String × Json)}
    (h : ∀ child ∈ children, ∀ rest,
      (key, rest, v) ∈ places child ↔ reach child rest = some (key, v)) (i : Nat)
    (rest : List Nat) :
    (key, i :: rest, v) ∈ forest 0 (children.map places) ↔
      children[i]?.bind (reach · rest) = some (key, v) := by
  rw [mem_forest, Option.bind_eq_some_iff]
  constructor
  · rintro ⟨j, tail, listed, hp, hj, hmem⟩
    rw [Nat.zero_add] at hp
    cases hp
    rw [List.getElem?_map] at hj
    obtain ⟨child, hchild, rfl⟩ := Option.map_eq_some_iff.mp hj
    exact ⟨child, hchild, (h child (List.mem_of_getElem? hchild) rest).mp hmem⟩
  · rintro ⟨child, hchild, hreach⟩
    refine ⟨i, rest, places child, by rw [Nat.zero_add], ?_, ?_⟩
    · rw [List.getElem?_map, hchild]
      rfl
    · exact (h child (List.mem_of_getElem? hchild) rest).mpr hreach

theorem nil_notMem_forest {children : List Places} : (key, [], v) ∉ forest index children := by
  intro h
  obtain ⟨i, rest, places, hp, -⟩ := mem_forest.mp h
  cases hp

/-- The places are those of the entries. -/
theorem mem_located (root : Json) (key : String) (p : List Nat) (v : Json) :
    (key, p, v) ∈ located root ↔ entryAt? p root = some (key, v) := by
  induction root using Json.induction generalizing p with
  | arr items ih =>
    rw [located_arr]
    cases p with
    | nil => exact iff_of_false nil_notMem_forest nofun
    | cons i rest => exact mem_forest_map ih i rest
  | obj entries ih =>
    rw [located_obj]
    cases p with
    | nil => exact iff_of_false nil_notMem_forest nofun
    | cons i rest =>
      exact mem_forest_map (fun e he rest => mem_entryLocated (ih e he)) i rest
  | _ =>
    rw [entryAt?_of_not_container rfl]
    exact iff_of_false List.not_mem_nil nofun

/-- Places are listed in the order of the document. -/
theorem sorted_located (root : Json) : (located root).Sorted := by
  induction root using Json.induction with
  | arr items ih =>
    rw [located_arr]
    exact sorted_forest (List.forall_mem_map.mpr ih)
  | obj entries ih =>
    rw [located_obj]
    refine sorted_forest (List.forall_mem_map.mpr fun e he => List.pairwise_cons.mpr ⟨?_, ih e he⟩)
    rintro ⟨k, p, v⟩ hmem
    cases p with
    | nil =>
      rw [mem_located, entryAt?_nil] at hmem
      cases hmem
    | cons i rest => exact .nil
  | _ => exact .nil

example : located (.obj [("a", .arr [.null, .obj [("b", .bool true)]]), ("b", .null)]) =
    [("a", [0], .arr [.null, .obj [("b", .bool true)]]), ("b", [0, 1, 0], .bool true),
      ("b", [1], .null)] := rfl

end JsonInspect.Json
