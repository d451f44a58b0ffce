import JsonInspect.Json.Writer
import JsonInspect.Proofs.Json.Tree

/-! # One form for both texts of a value

The indented and the compact text of a value are written by two recursions. Both are the text in a
layout (`write`), which says what stands before each element and entry, before a closing bracket and
after a colon (`prettyChars_eq`, `compactChars_eq`). What holds of every layout is proved of `write`
once. -/

namespace JsonInspect

structure Layout where
  /-- What stands before an element or a closing bracket at a nesting depth. -/
  gap : Nat → List Char
  /-- What stands after the colon of an entry. -/
  afterColon : List Char

namespace Layout

/-- No space anywhere. -/
def compact : Layout := ⟨fun _ => [], []⟩

/-- One element or entry a line, indented by `width` spaces for each level. -/
def indented (width : Nat) : Layout := ⟨fun depth => '\n' :: Json.indentation width depth, [' ']⟩

end Layout

namespace Json

mutual

/-- The text of a value that stands at a nesting depth. -/
def write (layout : Layout) (depth : Nat) : Json → List Char
  | arr [] => ['[', ']']
  | arr (item :: rest) =>
    '[' :: (layout.gap (depth + 1) ++ write layout (depth + 1) item ++
      writeItems layout (depth + 1) rest ++ layout.gap depth ++ [']'])
  | obj [] => ['{', '}']
  | obj ((key, child) :: rest) =>
    '{' :: (layout.gap (depth + 1) ++ Quoted.literal key ++ ':' :: layout.afterColon ++
      write layout (depth + 1) child ++ writeEntries layout (depth + 1) rest ++
      layout.gap depth ++ ['}'])
  | null => scalarChars null
  | bool b => scalarChars (bool b)
  | num n => scalarChars (num n)
  | str s => scalarChars (str s)

/-- The text of the elements after the first one. -/
def writeItems (layout : Layout) (depth : Nat) : List Json → List Char
  | [] => []
  | item :: rest =>
    ',' :: (layout.gap depth ++ write layout depth item ++ writeItems layout depth rest)

def writeEntries (layout : Layout) (depth : Nat) : List (String × Json) → List Char
  | [] => []
  | (key, child) :: rest =>
    ',' :: (layout.gap depth ++ Quoted.literal key ++ ':' :: layout.afterColon ++
      write layout depth child ++ writeEntries layout depth rest)

end

section

variable (layout : Layout) (depth : Nat)

theorem write_arr_nil : write layout depth (arr []) = ['[', ']'] := rfl

theorem write_arr_cons (item : Json) (rest : List Json) :
    write layout depth (arr (item :: rest)) =
      '[' :: (layout.gap (depth + 1) ++ write layout (depth + 1) item ++
        writeItems layout (depth + 1) rest ++ layout.gap depth ++ [']']) := rfl

theorem write_obj_nil : write layout depth (obj []) = ['{', '}'] := rfl

theorem write_obj_cons (key : String) (child : Json) (rest : List (String × Json)) :
    write layout depth (obj ((key, child) :: rest)) =
      '{' :: (layout.gap (depth + 1) ++ Quoted.literal key ++ ':' :: layout.afterColon ++
        write layout (depth + 1) child ++ writeEntries layout (depth + 1) rest ++
        layout.gap depth ++ ['}']) := rfl

theorem write_null : write layout depth null = scalarChars null := rfl

theorem write_bool (b : Bool) : write layout depth (bool b) = scalarChars (bool b) := rfl

theorem write_num (n : Number) : write layout depth (num n) = scalarChars (num n) := rfl

theorem write_str (s : String) : write layout depth (str s) = scalarChars (str s) := rfl

theorem writeItems_nil : writeItems layout depth [] = [] := rfl

theorem writeItems_cons (item : Json) (rest : List Json) :
    writeItems layout depth (item :: rest) =
      ',' :: (layout.gap depth ++ write layout depth item ++ writeItems layout depth rest) := rfl

theorem writeEntries_nil : writeEntries layout depth [] = [] := rfl

theorem writeEntries_cons (key : String) (child : Json) (rest : List (String × Json)) :
    writeEntries layout depth ((key, child) :: rest) =
      ',' :: (layout.gap depth ++ Quoted.literal key ++ ':' :: layout.afterColon ++
        write layout depth child ++ writeEntries layout depth rest) := rfl

end

/-! ## The compact text -/

theorem compact_gap (depth : Nat) : Layout.compact.gap depth = [] := rfl

theorem compact_afterColon : Layout.compact.afterColon = [] := rfl

/-- A comma between two parts stands in front of each part but the first. -/
theorem intercalate_comma (first : List Char) (rest : List (List Char)) :
    [','].intercalate (first :: rest) = first ++ rest.flatMap (',' :: ·) := by
  induction rest generalizing first with
  | nil => rw [List.intercalate_singleton, List.flatMap_nil, List.append_nil]
  | cons next rest ih =>
    rw [List.intercalate_cons_cons, ih, List.flatMap_cons]
    simp

section

variable {depth : Nat}

theorem flatMap_compactItems {items : List Json}
    (h : ∀ item ∈ items, item.compactChars = item.write .compact depth) :
    (compactItems items).flatMap (',' :: ·) = writeItems .compact depth items := by
  induction items with
  | nil => rfl
  | cons item rest ih =>
    rw [List.forall_mem_cons] at h
    rw [compactItems, List.flatMap_cons, h.1, ih h.2, writeItems_cons, compact_gap]
    rfl

theorem flatMap_compactEntries {entries : List (String × Json)}
    (h : ∀ e ∈ entries, e.2.compactChars = e.2.write .compact depth) :
    (compactEntries entries).flatMap (',' :: ·) = writeEntries .compact depth entries := by
  induction entries with
  | nil => rfl
  | cons e rest ih =>
    obtain ⟨key, child⟩ := e
    rw [List.forall_mem_cons] at h
    rw [compactEntries, List.flatMap_cons, h.1, ih h.2, writeEntries_cons, compact_gap,
      compact_afterColon]
    simp

end

theorem compactChars_eq (v : Json) (depth : Nat) : v.compactChars = v.write .compact depth := by
  induction v using induction generalizing depth with
  | null | bool | num | str => rfl
  | arr items ih =>
    cases items with
    | nil => rfl
    | cons item rest =>
      rw [List.forall_mem_cons] at ih
      rw [compactChars, compactItems, intercalate_comma, ih.1 (depth + 1),
        flatMap_compactItems fun item hi => ih.2 item hi (depth + 1), write_arr_cons]
      simp [compact_gap]
  | obj entries ih =>
    cases entries with
    | nil => rfl
    | cons e rest =>
      obtain ⟨key, child⟩ := e
      rw [List.forall_mem_cons] at ih
      rw [compactChars, compactEntries, intercalate_comma, ih.1 (depth + 1),
        flatMap_compactEntries fun e he => ih.2 e he (depth + 1), write_obj_cons]
      simp [compact_gap, compact_afterColon]

theorem compact_eq (v : Json) : v.compact = String.ofList (v.write .compact 0) := by
  rw [compact, compactChars_eq v 0]

/-! ## The indented text -/

section

variable {width depth : Nat}

/-- Behind an element stand the comma, if it is not the last, the line end, and the lines of the
others. In the layout the comma and the line end belong to the next element or the bracket. -/
theorem lineEnd_prettyItems {items : List Json}
    (h : ∀ item ∈ items, item.prettyChars width depth = item.write (.indented width) depth) :
    (if items.isEmpty then [] else [',']) ++ '\n' :: prettyItems width depth items =
      writeItems (.indented width) depth items ++ ['\n'] := by
  induction items with
  | nil => rfl
  | cons item rest ih =>
    rw [List.forall_mem_cons] at h
    rw [prettyItems, ih h.2, h.1, writeItems_cons]
    simp [Layout.indented]

theorem lineEnd_prettyEntries {entries : List (String × Json)}
    (h : ∀ e ∈ entries, e.2.prettyChars width depth = e.2.write (.indented width) depth) :
    (if entries.isEmpty then [] else [',']) ++ '\n' :: prettyEntries width depth entries =
      writeEntries (.indented width) depth entries ++ ['\n'] := by
  induction entries with
  | nil => rfl
  | cons e rest ih =>
    obtain ⟨key, child⟩ := e
    rw [List.forall_mem_cons] at h
    rw [prettyEntries, ih h.2, h.1, writeEntries_cons]
    simp [Layout.indented]

end

theorem prettyChars_eq (width : Nat) (v : Json) (depth : Nat) :
    v.prettyChars width depth = v.write (.indented width) depth := by
  induction v using induction generalizing depth with
  | null | bool | num | str => rfl
  | arr items ih =>
    cases items with
    | nil => rfl
    | cons item rest =>
      rw [List.forall_mem_cons] at ih
      rw [prettyChars, if_neg (by simp), prettyItems, ih.1 (depth + 1),
        lineEnd_prettyItems fun item hi => ih.2 item hi (depth + 1), write_arr_cons]
      simp [Layout.indented]
  | obj entries ih =>
    cases entries with
    | nil => rfl
    | cons e rest =>
      obtain ⟨key, child⟩ := e
      rw [List.forall_mem_cons] at ih
      rw [prettyChars, if_neg (by simp), prettyEntries, ih.1 (depth + 1),
        lineEnd_prettyEntries fun e he => ih.2 e he (depth + 1), write_obj_cons]
      simp [Layout.indented]

theorem pretty_eq (width : Nat) (v : Json) :
    v.pretty width = String.ofList (v.write (.indented width) 0) := by
  rw [pretty, prettyChars_eq]

end Json

end JsonInspect
