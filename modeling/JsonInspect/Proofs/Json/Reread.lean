import JsonInspect.Proofs.Json.Written

/-! # What the text of a value reads back as

Every number is reread and the rest stays, so a value and what it reads back as have the same
text, depth and kind, and are equal (`same_reread`). Rereading twice is rereading once. -/

namespace JsonInspect.Json

/-- What the text of a value reads back as. -/
def reread (v : Json) : Json := v.mapNumbers Number.reread

@[simp] theorem reread_num (n : Number) : (num n).reread = num n.reread := rfl

@[simp] theorem reread_str (s : String) : (str s).reread = str s := rfl

@[simp] theorem reread_arr (items : List Json) : (arr items).reread = arr (items.map reread) :=
  mapNumbers_arr _ items

@[simp] theorem reread_obj (entries : List (String × Json)) :
    (obj entries).reread = obj (Entries.mapValues reread entries) :=
  mapNumbers_obj _ entries

@[simp] theorem kind_reread (v : Json) : v.reread.kind = v.kind := by
  cases v <;> rfl

@[simp] theorem isObject_reread (v : Json) : v.reread.isObject = v.isObject := by
  rw [isObject, kind_reread, isObject]

@[simp] theorem isNull_reread (v : Json) : v.reread.isNull = v.isNull := by
  rw [isNull, kind_reread, isNull]

@[simp] theorem reread_reread (v : Json) : v.reread.reread = v.reread := by
  induction v using induction with
  | null => rfl
  | bool b => rfl
  | num n => simp [Number.reread_reread]
  | str s => rfl
  | arr items ih => simpa using ih
  | obj entries ih => simpa [Entries.mapValues] using fun k v h => ih (k, v) h

theorem depth_reread_le (v : Json) (n : Nat) : v.reread.depth ≤ n ↔ v.depth ≤ n := by
  induction v using induction generalizing n with
  | null => rfl
  | bool b => rfl
  | num k => rfl
  | str s => rfl
  | arr items ih =>
    cases n with
    | zero => simp [depth]
    | succ n =>
      rw [reread_arr, depth_arr_le, depth_arr_le, List.forall_mem_map]
      exact forall₂_congr fun item h => ih item h n
  | obj entries ih =>
    cases n with
    | zero => simp [depth]
    | succ n =>
      rw [reread_obj, depth_obj_le, depth_obj_le, Entries.mapValues, List.forall_mem_map]
      exact forall₂_congr fun e h => ih e h n

theorem depth_reread (v : Json) : v.reread.depth = v.depth :=
  eq_of_forall_ge_iff (depth_reread_le v)

/-- A value equals what it reads back as. -/
theorem same_reread {v : Json} (h : v.wellFormed = true) : v.reread.same v = true := by
  induction v using induction with
  | null => rfl
  | bool b => exact beq_self_eq_true b
  | num n => exact Number.same_reread h
  | str s => exact beq_self_eq_true s
  | arr items ih =>
    rw [wellFormed_arr] at h
    rw [reread_arr, same]
    induction items with
    | nil => rfl
    | cons item rest ihr =>
      rw [List.forall_mem_cons] at ih h
      rw [List.map_cons, sameItems, ih.1 h.1, Bool.true_and]
      exact ihr ih.2 h.2
  | obj entries ih =>
    obtain ⟨hn, hw⟩ := wellFormed_obj.mp h
    have hfound : ∀ e ∈ entries, entries.lookup e.1 = some e.2 :=
      fun e he => Entries.lookup_of_mem hn he
    have hsame : ∀ front : List (String × Json), (∀ e ∈ front, e ∈ entries) →
        sameEntries (Entries.mapValues reread front) entries = true := by
      intro front
      induction front with
      | nil =>
        intro _
        rfl
      | cons e rest ihr =>
        intro hmem
        rw [List.forall_mem_cons] at hmem
        rw [Entries.mapValues_cons, sameEntries, hfound e hmem.1, ihr hmem.2, Bool.and_true]
        exact ih e hmem.1 (hw e hmem.1)
    rw [reread_obj, same, hsame entries fun _ he => he, Entries.mapValues, List.length_map,
      beq_self_eq_true]
    rfl

/-! ## Texts -/

/-- Searching and grouping see no difference. -/
theorem stringForm_reread (v : Json) : v.reread.stringForm = v.stringForm := by
  induction v using induction with
  | null => rfl
  | bool b => rfl
  | num n => exact Number.text_reread n
  | str s => rfl
  | arr items ih =>
    have hforms : itemForms (items.map reread) = itemForms items := by
      induction items with
      | nil => rfl
      | cons item rest ihr =>
        rw [List.forall_mem_cons] at ih
        rw [List.map_cons, itemForms, itemForms, isNull_reread, ih.1, ihr ih.2]
    rw [reread_arr, stringForm, stringForm, hforms]
  | obj entries ih => rfl

section

variable (layout : Layout)

/-- Writing sees no difference. -/
theorem write_reread (v : Json) (depth : Nat) :
    v.reread.write layout depth = v.write layout depth := by
  induction v using induction generalizing depth with
  | null => rfl
  | bool b => rfl
  | num n => rw [reread_num, write_num, write_num, scalarChars, Number.chars_reread, scalarChars]
  | str s => rfl
  | arr items ih =>
    have hitems : ∀ rest : List Json, (∀ item ∈ rest, item ∈ items) →
        writeItems layout (depth + 1) (rest.map reread) = writeItems layout (depth + 1) rest := by
      intro rest
      induction rest with
      | nil =>
        intro _
        rfl
      | cons item rest ihr =>
        intro hmem
        rw [List.forall_mem_cons] at hmem
        rw [List.map_cons, writeItems_cons, writeItems_cons, ih item hmem.1, ihr hmem.2]
    cases items with
    | nil => rfl
    | cons item rest =>
      rw [reread_arr, List.map_cons, write_arr_cons, write_arr_cons, ih item List.mem_cons_self,
        hitems rest fun _ h => List.mem_cons_of_mem item h]
  | obj entries ih =>
    have hentries : ∀ rest : List (String × Json), (∀ e ∈ rest, e ∈ entries) →
        writeEntries layout (depth + 1) (Entries.mapValues reread rest) =
          writeEntries layout (depth + 1) rest := by
      intro rest
      induction rest with
      | nil =>
        intro _
        rfl
      | cons e rest ihr =>
        intro hmem
        rw [List.forall_mem_cons] at hmem
        rw [Entries.mapValues_cons, writeEntries_cons, writeEntries_cons, ih e hmem.1,
          ihr hmem.2]
    cases entries with
    | nil => rfl
    | cons e rest =>
      rw [reread_obj, Entries.mapValues_cons, write_obj_cons, write_obj_cons,
        ih e List.mem_cons_self, hentries rest fun _ h => List.mem_cons_of_mem e h]

end

theorem pretty_reread (v : Json) (width : Nat) : v.reread.pretty width = v.pretty width := by
  rw [pretty_eq, pretty_eq, write_reread]

theorem compact_reread (v : Json) : v.reread.compact = v.compact := by
  rw [compact_eq, compact_eq, write_reread]

end JsonInspect.Json
