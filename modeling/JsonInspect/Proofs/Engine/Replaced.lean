import JsonInspect.Proofs.Engine.Palette

/-! # One place of a value replaced

A change at the end of a path puts one value in the place of another and keeps everything else:
each object on the way has its other entries, in the order that they had (`ReplacedAt`). Whatever
is changed along a path is changed so (`updateAt_eq_some_iff`), which is why two changes at one
place are one change and a change can be taken back. -/

namespace JsonInspect

/-! ## One entry of a map -/

namespace Entries

variable {α : Type} {key : String} {value : α} {entries front back : List (String × α)}

theorem lookup_eq_some_iff : entries.lookup key = some value ↔
    ∃ front back, entries = front ++ (key, value) :: back ∧ key ∉ keys front := by
  rw [List.lookup_eq_some_iff]
  refine exists_congr fun front => exists_congr fun back => and_congr_right fun _ => ?_
  rw [keys, ← List.forall_mem_ne, List.forall_mem_map]
  simp

theorem lookup_between (h : key ∉ keys front) (value : α) (back : List (String × α)) :
    (front ++ (key, value) :: back).lookup key = some value :=
  lookup_eq_some_iff.mpr ⟨front, back, rfl, h⟩

theorem put_between (h : key ∉ keys front) (value value' : α) (back : List (String × α)) :
    put key value' (front ++ (key, value) :: back) = front ++ (key, value') :: back := by
  induction front with
  | nil => exact if_pos rfl
  | cons e rest ih =>
    rw [keys_cons, List.mem_cons, not_or] at h
    rw [List.cons_append, put, if_neg (Ne.symm h.1), ih h.2]
    rfl

theorem put_lookup (h : entries.lookup key = some value) : put key value entries = entries := by
  obtain ⟨front, back, rfl, hfront⟩ := lookup_eq_some_iff.mp h
  exact put_between hfront value value back

theorem put_put (key : String) (value value' : α) (entries : List (String × α)) :
    put key value' (put key value entries) = put key value' entries := by
  induction entries with
  | nil => simp [put]
  | cons e rest ih =>
    by_cases hk : e.1 = key
    · simp [put, hk]
    · simp [put, hk, ih]

end Entries

namespace Json

/-- The second value is the first with `u'` for the `u` that the keys lead to. Each object on the
way keeps its other entries, and every entry its position. -/
inductive ReplacedAt (u u' : Json) : List String → Json → Json → Prop
  | here : ReplacedAt u u' [] u u'
  | inside {key : String} {keys : List String} {child child' : Json}
      {front back : List (String × Json)} (hfront : key ∉ Entries.keys front)
      (hchild : ReplacedAt u u' keys child child') :
      ReplacedAt u u' (key :: keys) (obj (front ++ (key, child) :: back))
        (obj (front ++ (key, child') :: back))

variable {u u' u'' v v' v'' : Json} {key : String} {keys keys' : List String} {path : Path}

theorem replacedAt_cons_iff : ReplacedAt u u' (key :: keys) v v' ↔
    ∃ entries child child', v = obj entries ∧ entries.lookup key = some child ∧
      ReplacedAt u u' keys child child' ∧ v' = obj (Entries.put key child' entries) := by
  constructor
  · rintro (_ | @⟨_, _, child, child', front, back, hfront, hchild⟩)
    exact ⟨_, child, child', rfl, Entries.lookup_between hfront child back, hchild,
      congrArg obj (Entries.put_between hfront child child' back).symm⟩
  · rintro ⟨entries, child, child', rfl, hlookup, hchild, rfl⟩
    obtain ⟨front, back, rfl, hfront⟩ := Entries.lookup_eq_some_iff.mp hlookup
    rw [Entries.put_between hfront]
    exact .inside hfront hchild

theorem updateAt_cons_eq_some {change : Json → Option Json} :
    updateAt change (key :: keys) v = some v' ↔
      ∃ entries child child', v = obj entries ∧ entries.lookup key = some child ∧
        updateAt change keys child = some child' ∧ v' = obj (Entries.put key child' entries) := by
  cases v with
  | obj entries =>
    rw [updateAt]
    cases hlookup : entries.lookup key with
    | none => simp [hlookup]
    | some child => simp [hlookup, eq_comm]
  | _ => simp [updateAt]

/-- A change along a path is a replacement at its end. -/
theorem updateAt_eq_some_iff {change : Json → Option Json} :
    updateAt change keys v = some v' ↔
      ∃ u u', change u = some u' ∧ ReplacedAt u u' keys v v' := by
  induction keys generalizing v v' with
  | nil =>
    refine ⟨fun h => ⟨v, v', h, .here⟩, ?_⟩
    rintro ⟨u, u', hchange, h⟩
    cases h
    exact hchange
  | cons key rest ih =>
    simp only [updateAt_cons_eq_some, replacedAt_cons_iff, ih]
    constructor
    · rintro ⟨entries, child, child', rfl, hlookup, ⟨u, u', hchange, h⟩, rfl⟩
      exact ⟨u, u', hchange, entries, child, child', rfl, hlookup, h, rfl⟩
    · rintro ⟨u, u', hchange, entries, child, child', rfl, hlookup, h, rfl⟩
      exact ⟨entries, child, child', rfl, hlookup, ⟨u, u', hchange, h⟩, rfl⟩

namespace ReplacedAt

theorem symm (h : ReplacedAt u u' keys v v') : ReplacedAt u' u keys v' v := by
  induction h with
  | here => exact .here
  | inside hfront _ ih => exact .inside hfront ih

theorem walk_left (h : ReplacedAt u u' keys v v') : walk keys v = some u := by
  induction h with
  | here => rfl
  | inside hfront _ ih => rwa [walk, Entries.lookup_between hfront]

theorem walk_right (h : ReplacedAt u u' keys v v') : walk keys v' = some u' := h.symm.walk_left

theorem left_unique {w w' : Json} (h : ReplacedAt u u' keys v v')
    (h' : ReplacedAt w w' keys v v'') : u = w :=
  Option.some.inj (h.walk_left.symm.trans h'.walk_left)

/-- What was put in the place of a value is all that makes the difference. -/
theorem unique (h : ReplacedAt u u' keys v v') (h' : ReplacedAt u u' keys v v'') : v' = v'' := by
  have hupdate : ∀ {w}, ReplacedAt u u' keys v w → updateAt (fun _ => some u') keys v = some w :=
    fun h => updateAt_eq_some_iff.mpr ⟨u, u', rfl, h⟩
  exact Option.some.inj ((hupdate h).symm.trans (hupdate h'))

theorem eq (h : ReplacedAt u u keys v v') : v' = v := by
  induction h with
  | here => rfl
  | inside _ _ ih => rw [ih]

theorem trans (h : ReplacedAt u u' keys v v') (h' : ReplacedAt u' u'' keys v' v'') :
    ReplacedAt u u'' keys v v'' := by
  induction keys generalizing v v' v'' with
  | nil =>
    cases h
    cases h'
    exact .here
  | cons key rest ih =>
    obtain ⟨entries, child, child', rfl, hlookup, hchild, rfl⟩ := replacedAt_cons_iff.mp h
    obtain ⟨_, _, child'', he, hlookup', hchild', rfl⟩ := replacedAt_cons_iff.mp h'
    cases he
    rw [Entries.lookup_put_self] at hlookup'
    cases hlookup'
    rw [Entries.put_put]
    exact replacedAt_cons_iff.mpr ⟨entries, child, child'', rfl, hlookup, ih hchild hchild', rfl⟩

end ReplacedAt

/-- A replacement below a place is a replacement of what stands there. -/
theorem replacedAt_append : ReplacedAt u u' (keys ++ keys') v v' ↔
    ∃ w w', ReplacedAt w w' keys v v' ∧ ReplacedAt u u' keys' w w' := by
  induction keys generalizing v v' with
  | nil =>
    refine ⟨fun h => ⟨v, v', .here, h⟩, ?_⟩
    rintro ⟨w, w', h, h'⟩
    cases h
    exact h'
  | cons key rest ih =>
    simp only [List.cons_append, replacedAt_cons_iff, ih]
    constructor
    · rintro ⟨entries, child, child', rfl, hlookup, ⟨w, w', h, h'⟩, rfl⟩
      exact ⟨w, w', ⟨entries, child, child', rfl, hlookup, h, rfl⟩, h'⟩
    · rintro ⟨w, w', ⟨entries, child, child', rfl, hlookup, h, rfl⟩, h'⟩
      exact ⟨entries, child, child', rfl, hlookup, ⟨w, w', h, h'⟩, rfl⟩

theorem exists_replacedAt (u' : Json) (h : walk keys v = some u) :
    ∃ v', ReplacedAt u u' keys v v' := by
  obtain ⟨v', hupdate, -⟩ := walk_updateAt (fun _ => some u') h rfl
  obtain ⟨w, w', hw, hv⟩ := updateAt_eq_some_iff.mp hupdate
  cases hw
  obtain rfl : u = w := Option.some.inj (h.symm.trans hv.walk_left)
  exact ⟨v', hv⟩

/-! ## The object that holds a path's last key -/

/-- Changing the entries of a parent replaces the parent and nothing else. -/
theorem updateParent_eq_some_iff {change : List (String × Json) → List (String × Json)} :
    updateParent change path v = some v' ↔ path.isEmpty = false ∧
      ∃ entries, ReplacedAt (obj entries) (obj (change entries)) path.segments.dropLast v v' := by
  unfold updateParent
  cases path.isEmpty with
  | true => simp
  | false =>
    simp only [Bool.false_eq_true, if_false, true_and, updateAt_eq_some_iff]
    constructor
    · rintro ⟨u, u', hchange, h⟩
      cases u with
      | obj entries =>
        cases hchange
        exact ⟨entries, h⟩
      | _ => cases hchange
    · rintro ⟨entries, h⟩
      exact ⟨obj entries, obj (change entries), rfl, h⟩

theorem parentOf_eq_some_iff {entries : List (String × Json)} (hpath : path.isEmpty = false) :
    v.parentOf path = some (obj entries) ↔
      walk path.segments.dropLast v = some (obj entries) := by
  rw [parentOf, hpath, if_neg Bool.false_ne_true, Option.filter_eq_some_iff]
  exact and_iff_left rfl

/-- What a path's parent is, is an object. -/
theorem exists_entries_of_parentOf (h : v.parentOf path = some u) : ∃ entries, u = obj entries := by
  unfold parentOf at h
  split at h
  · cases h
  · cases u with
    | obj entries => exact ⟨entries, rfl⟩
    | _ => cases (Option.filter_eq_some_iff.mp h).2

end Json

end JsonInspect
