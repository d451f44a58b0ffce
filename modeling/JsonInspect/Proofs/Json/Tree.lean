import JsonInspect.Proofs.Json.Entries
import JsonInspect.Proofs.Number.Reread

/-! # Values as trees

The nesting depth of a value, what makes a value fit to be written, properties of all values in a
value, and changing the numbers of a value while everything else of it stays. -/

namespace JsonInspect.Json

/-- Induction with a hypothesis for every element and every entry's value. -/
@[elab_as_elim]
theorem induction {motive : Json → Prop} (null : motive null) (bool : ∀ b, motive (bool b))
    (num : ∀ n, motive (num n)) (str : ∀ s, motive (str s))
    (arr : ∀ items, (∀ item ∈ items, motive item) → motive (arr items))
    (obj : ∀ entries, (∀ e ∈ entries, motive e.2) → motive (obj entries)) (v : Json) :
    motive v :=
  Json.rec (motive_1 := motive) (motive_2 := fun items => ∀ item ∈ items, motive item)
    (motive_3 := fun entries => ∀ e ∈ entries, motive e.2) (motive_4 := fun e => motive e.2)
    null bool num str arr obj
    (fun _ h => nomatch h) (fun _ _ hitem hrest => List.forall_mem_cons.mpr ⟨hitem, hrest⟩)
    (fun _ h => nomatch h) (fun _ _ he hrest => List.forall_mem_cons.mpr ⟨he, hrest⟩)
    (fun _ _ h => h) v

theorem isNull_eq_false {v : Json} (h : v ≠ null) : v.isNull = false := by
  cases v with
  | null => exact absurd rfl h
  | _ => rfl

/-! ## Depth -/

mutual

/-- How many containers are nested in each other. -/
def depth : Json → Nat
  | arr items => itemsDepth items + 1
  | obj entries => entriesDepth entries + 1
  | _ => 0

def itemsDepth : List Json → Nat
  | [] => 0
  | item :: rest => max item.depth (itemsDepth rest)

def entriesDepth : List (String × Json) → Nat
  | [] => 0
  | (_, child) :: rest => max child.depth (entriesDepth rest)

end

theorem itemsDepth_le {items : List Json} {n : Nat} :
    itemsDepth items ≤ n ↔ ∀ item ∈ items, item.depth ≤ n := by
  induction items with
  | nil => simp [itemsDepth]
  | cons item rest ih => rw [itemsDepth, Nat.max_le, ih, List.forall_mem_cons]

theorem entriesDepth_le {entries : List (String × Json)} {n : Nat} :
    entriesDepth entries ≤ n ↔ ∀ e ∈ entries, e.2.depth ≤ n := by
  induction entries with
  | nil => simp [entriesDepth]
  | cons e rest ih => rw [entriesDepth, Nat.max_le, ih, List.forall_mem_cons]

theorem depth_arr_le {items : List Json} {n : Nat} :
    (arr items).depth ≤ n + 1 ↔ ∀ item ∈ items, item.depth ≤ n := by
  rw [depth, Nat.add_le_add_iff_right, itemsDepth_le]

theorem depth_obj_le {entries : List (String × Json)} {n : Nat} :
    (obj entries).depth ≤ n + 1 ↔ ∀ e ∈ entries, e.2.depth ≤ n := by
  rw [depth, Nat.add_le_add_iff_right, entriesDepth_le]

mutual

/-- How many steps the deepest value is away. Empty containers have no step down. -/
def levels : Json → Nat
  | arr items => itemsLevels items
  | obj entries => entriesLevels entries
  | _ => 0

def itemsLevels : List Json → Nat
  | [] => 0
  | item :: rest => max (item.levels + 1) (itemsLevels rest)

def entriesLevels : List (String × Json) → Nat
  | [] => 0
  | (_, child) :: rest => max (child.levels + 1) (entriesLevels rest)

end

theorem itemsLevels_le {items : List Json} {n : Nat} :
    itemsLevels items ≤ n ↔ ∀ item ∈ items, item.levels < n := by
  induction items with
  | nil => simp [itemsLevels]
  | cons item rest ih => rw [itemsLevels, Nat.max_le, ih, List.forall_mem_cons, Nat.succ_le_iff]

theorem entriesLevels_le {entries : List (String × Json)} {n : Nat} :
    entriesLevels entries ≤ n ↔ ∀ e ∈ entries, e.2.levels < n := by
  induction entries with
  | nil => simp [entriesLevels]
  | cons e rest ih => rw [entriesLevels, Nat.max_le, ih, List.forall_mem_cons, Nat.succ_le_iff]

theorem levels_le_depth (v : Json) : v.levels ≤ v.depth := by
  induction v using induction with
  | null => exact Nat.zero_le _
  | bool b => exact Nat.zero_le _
  | num n => exact Nat.zero_le _
  | str s => exact Nat.zero_le _
  | arr items ih =>
    rw [levels, itemsLevels_le, depth]
    intro item hi
    exact (ih item hi).trans_lt (Nat.lt_succ_of_le (itemsDepth_le.mp le_rfl item hi))
  | obj entries ih =>
    rw [levels, entriesLevels_le, depth]
    intro e he
    exact (ih e he).trans_lt (Nat.lt_succ_of_le (entriesDepth_le.mp le_rfl e he))

/-! ## Values that can be written and read -/

mutual

/-- Whether the keys of every object are distinct and every number is finite. -/
def wellFormed : Json → Bool
  | num n => n.isFinite
  | arr items => itemsWellFormed items
  | obj entries => decide (Entries.keys entries).Nodup && entriesWellFormed entries
  | _ => true

def itemsWellFormed : List Json → Bool
  | [] => true
  | item :: rest => item.wellFormed && itemsWellFormed rest

def entriesWellFormed : List (String × Json) → Bool
  | [] => true
  | (_, child) :: rest => child.wellFormed && entriesWellFormed rest

end

theorem itemsWellFormed_iff {items : List Json} :
    itemsWellFormed items = true ↔ ∀ item ∈ items, item.wellFormed = true := by
  induction items with
  | nil => simp [itemsWellFormed]
  | cons item rest ih => simp [itemsWellFormed, ih]

theorem entriesWellFormed_iff {entries : List (String × Json)} :
    entriesWellFormed entries = true ↔ ∀ e ∈ entries, e.2.wellFormed = true := by
  induction entries with
  | nil => simp [entriesWellFormed]
  | cons e rest ih => simp [entriesWellFormed, ih]

@[simp] theorem wellFormed_arr {items : List Json} :
    (arr items).wellFormed = true ↔ ∀ item ∈ items, item.wellFormed = true := by
  rw [wellFormed, itemsWellFormed_iff]

@[simp] theorem wellFormed_obj {entries : List (String × Json)} :
    (obj entries).wellFormed = true ↔
      (Entries.keys entries).Nodup ∧ ∀ e ∈ entries, e.2.wellFormed = true := by
  rw [wellFormed, Bool.and_eq_true, decide_eq_true_eq, entriesWellFormed_iff]

/-! ## Properties of all values in a value -/

mutual

def everywhere (p : Json → Bool) : Json → Bool
  | arr items => p (arr items) && itemsEverywhere p items
  | obj entries => p (obj entries) && entriesEverywhere p entries
  | v => p v

def itemsEverywhere (p : Json → Bool) : List Json → Bool
  | [] => true
  | item :: rest => item.everywhere p && itemsEverywhere p rest

def entriesEverywhere (p : Json → Bool) : List (String × Json) → Bool
  | [] => true
  | (_, child) :: rest => child.everywhere p && entriesEverywhere p rest

end

section

variable {p : Json → Bool} {items : List Json} {entries : List (String × Json)} {v : Json}

theorem itemsEverywhere_iff :
    itemsEverywhere p items = true ↔ ∀ item ∈ items, item.everywhere p = true := by
  induction items with
  | nil => simp [itemsEverywhere]
  | cons item rest ih => simp [itemsEverywhere, ih]

theorem entriesEverywhere_iff :
    entriesEverywhere p entries = true ↔ ∀ e ∈ entries, e.2.everywhere p = true := by
  induction entries with
  | nil => simp [entriesEverywhere]
  | cons e rest ih => simp [entriesEverywhere, ih]

theorem everywhere_arr : (arr items).everywhere p = true ↔
    p (arr items) = true ∧ ∀ item ∈ items, item.everywhere p = true := by
  rw [everywhere, Bool.and_eq_true, itemsEverywhere_iff]

theorem everywhere_obj : (obj entries).everywhere p = true ↔
    p (obj entries) = true ∧ ∀ e ∈ entries, e.2.everywhere p = true := by
  rw [everywhere, Bool.and_eq_true, entriesEverywhere_iff]

theorem everywhere_self (h : v.everywhere p = true) : p v = true := by
  cases v with
  | arr items => exact (everywhere_arr.mp h).1
  | obj entries => exact (everywhere_obj.mp h).1
  | _ => exact h

theorem everywhere_records (h : v.everywhere p = true) :
    ∀ record ∈ v.records, record.everywhere p = true := by
  cases v with
  | arr items => exact (everywhere_arr.mp h).2
  | _ => exact List.forall_mem_singleton.mpr h

end

def hasDistinctKeys : Json → Bool
  | obj entries => decide (Entries.keys entries).Nodup
  | _ => true

/-! ## Changing the numbers -/

mutual

def mapNumbers (f : Number → Number) : Json → Json
  | null => null
  | bool b => bool b
  | num n => num (f n)
  | str s => str s
  | arr items => arr (mapItems f items)
  | obj entries => obj (mapEntries f entries)

def mapItems (f : Number → Number) : List Json → List Json
  | [] => []
  | item :: rest => item.mapNumbers f :: mapItems f rest

def mapEntries (f : Number → Number) : List (String × Json) → List (String × Json)
  | [] => []
  | (key, child) :: rest => (key, child.mapNumbers f) :: mapEntries f rest

end

section

variable (f : Number → Number)

@[simp] theorem mapNumbers_arr (items : List Json) :
    (arr items).mapNumbers f = arr (items.map (mapNumbers f)) := by
  have h : mapItems f items = items.map (mapNumbers f) := by
    induction items with
    | nil => rfl
    | cons item rest ih => rw [mapItems, ih, List.map_cons]
  rw [mapNumbers, h]

@[simp] theorem mapNumbers_obj (entries : List (String × Json)) :
    (obj entries).mapNumbers f = obj (Entries.mapValues (mapNumbers f) entries) := by
  have h : mapEntries f entries = Entries.mapValues (mapNumbers f) entries := by
    induction entries with
    | nil => rfl
    | cons e rest ih => rw [mapEntries, ih, Entries.mapValues_cons]
  rw [mapNumbers, h]

end

end JsonInspect.Json
