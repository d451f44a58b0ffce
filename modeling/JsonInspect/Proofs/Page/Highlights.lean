import JsonInspect.Proofs.Page.Elements

/-! # What a page highlights

The pieces of a value have one highlighted element for the scalar to which the searched path leads,
and no other one (`found_pieces`): the path of a leaf is made of the keys above it, so with distinct
keys only one leaf has the searched path, and what stands in an array has no path. -/

namespace JsonInspect

open Page

/-! ## Paths below a path -/

namespace Path

def keysBelow? : List String → List String → Option (List String)
  | [], keys => some keys
  | first :: rest, key :: keys => if first = key then keysBelow? rest keys else none
  | _ :: _, [] => none

theorem keysBelow?_self (keys : List String) : keysBelow? keys keys = some [] := by
  induction keys with
  | nil => rfl
  | cons key rest ih => rw [keysBelow?, if_pos rfl, ih]

theorem eq_of_keysBelow? {start keys : List String} (h : keysBelow? start keys = some []) :
    start = keys := by
  induction start generalizing keys with
  | nil => exact (Option.some.inj h).symm
  | cons first rest ih =>
    cases keys with
    | nil => cases h
    | cons key keys =>
      rw [keysBelow?] at h
      split at h
      · rename_i hkey
        rw [hkey, ih h]
      · cases h

theorem keysBelow?_child (start keys : List String) (key : String) :
    keysBelow? (start ++ [key]) keys =
      match keysBelow? start keys with
      | some (first :: rest) => if key = first then some rest else none
      | _ => none := by
  induction start generalizing keys with
  | nil =>
    cases keys with
    | nil => rfl
    | cons first rest => rfl
  | cons first rest ih =>
    cases keys with
    | nil => rfl
    | cons next keys =>
      rw [List.cons_append, keysBelow?, keysBelow?]
      split
      · exact ih keys
      · rfl

end Path

namespace Render

open Markup

/-! ## The highlighted literal -/

/-- What a searched path leads to from a value at some path. -/
def reached (key : Path) (path : Option Path) (v : Json) : Option Json :=
  (path.bind fun p => Path.keysBelow? p.segments key.segments).bind fun keys => Json.walk keys v

def scalarLiteral : Option Json → List (List Markup)
  | some field => if field.isContainer then [] else [literalPieces field]
  | none => []

theorem reached_child (key p : Path) (k : String) (child : Json) :
    reached key (some (p.child k)) child =
      match Path.keysBelow? p.segments key.segments with
      | some (first :: rest) => if k = first then Json.walk rest child else none
      | _ => none := by
  rw [reached, Path.child, Option.bind_some, Path.keysBelow?_child]
  cases Path.keysBelow? p.segments key.segments with
  | none => rfl
  | some keys =>
    cases keys with
    | nil => rfl
    | cons first rest =>
      dsimp only
      split <;> rfl

/-- An array is no scalar, and keys lead nowhere from it. -/
theorem scalarLiteral_arr (key : Path) (path : Option Path) (items : List Json) :
    scalarLiteral (reached key path (.arr items)) = [] := by
  unfold reached
  cases path.bind fun p => Path.keysBelow? p.segments key.segments with
  | none => rfl
  | some keys => cases keys <;> rfl

/-- The same path is highlighted in every record. -/
structure Marks (marks : MatchSet) (key : Path) : Prop where
  contains_iff : ∀ p, marks.contains p = true ↔ p = key
  nonempty : key.isEmpty = false

variable {marks : MatchSet} {key : Path} {depth : Nat} {path : Option Path} {v : Json}
  {body : List Markup} {tag : Tag}

theorem highlighted_iff (hm : Marks marks key) (path : Option Path) :
    highlighted marks path = true ↔ path = some key := by
  cases path with
  | none => simp [highlighted]
  | some p =>
    rw [highlighted, Bool.and_eq_true, hm.contains_iff, Option.some.injEq]
    refine ⟨fun h => h.2, fun h => ⟨?_, h⟩⟩
    rw [h, hm.nonempty]
    rfl

/-! ## Elements of containers -/

theorem elementsAll_joined (separator : String) (bodies : List (List Markup)) :
    elementsAll tag (joined separator bodies) = bodies.flatMap (elementsAll tag) := by
  cases bodies with
  | nil => rfl
  | cons first others =>
    have hothers : elementsAll tag (others.flatMap (layout separator :: ·)) =
        others.flatMap (elementsAll tag) := by
      simp only [elementsAll_eq, List.flatMap_assoc, List.flatMap_cons, elements, List.nil_append]
      exact congrArg (others.flatMap ·) (funext fun body => (elementsAll_eq tag body).symm)
    rw [joined, elementsAll_append, hothers, List.flatMap_cons]

theorem elementsAll_arrayPieces (bodies : List (List Markup)) :
    elementsAll tag (arrayPieces bodies) = bodies.flatMap (elementsAll tag) := by
  rw [arrayPieces, elementsAll_append, ← elementsAll_joined ",\n" bodies]
  exact List.append_nil _

theorem elementsAll_objectPieces (lines : List Markup) :
    elementsAll tag (objectPieces lines) = lines.flatMap (elements tag) := by
  have hlines : (lines.map ([·])).flatMap (elementsAll tag) = lines.flatMap (elements tag) := by
    rw [List.flatMap_map]
    exact congrArg (lines.flatMap ·) (funext fun line => List.append_nil _)
  rw [objectPieces, elementsAll_append, ← hlines, ← elementsAll_joined "\n"]
  exact List.append_nil _

theorem elements_entryLine (k : String) (body : List Markup) (hline : tag ≠ .line)
    (hkey : tag ≠ .key) : elements tag (entryLine k body) = elementsAll tag body := by
  simp [entryLine, keyPiece, elements, elementsAll, hline.symm, hkey.symm]

theorem elementsAll_literal (leaf : Json) : elementsAll tag (literalPieces leaf) = [] := by
  cases leaf <;> rfl

/-! ## Values -/

/-- Only the block around a record is a record's element. -/
theorem record_pieces (h : pieces marks depth path v = some body) :
    elementsAll .record body = [] := by
  refine pieces_induction (P := fun _ _ body => elementsAll .record body = [])
    ?leaf ?emptyArr ?emptyObj ?arr ?obj h
  case leaf =>
    intro path leaf _
    rw [leafPieces_eq]
    split
    · cases leaf <;> rfl
    · cases leaf <;> rfl
  case emptyArr => exact fun _ => rfl
  case emptyObj => exact fun _ => rfl
  case arr =>
    intro _ items bodies _ hbodies
    rw [elementsAll_arrayPieces, List.flatMap_eq_nil_iff]
    intro body hb
    obtain ⟨item, -, hnone⟩ := exists_of_forall₂ hbodies body hb
    exact hnone
  case obj =>
    intro _ entries lines _ hlines
    rw [elementsAll_objectPieces, List.flatMap_eq_nil_iff]
    intro line hl
    obtain ⟨e, -, body, hnone, rfl⟩ := exists_of_forall₂ hlines line hl
    rw [elements_entryLine e.1 body (by decide) (by decide), hnone]

theorem found_leaf (hm : Marks marks key) (hv : v.isLeaf = true) :
    elementsAll .found (leafPieces marks path v) = scalarLiteral (reached key path v) := by
  have hscalar : v.isContainer = false := by
    simpa [Json.isLeaf] using hv
  rw [leafPieces_eq]
  by_cases hp : highlighted marks path = true
  · rw [if_pos hp]
    obtain rfl := (highlighted_iff hm path).mp hp
    rw [reached, Option.bind_some, Path.keysBelow?_self, Option.bind_some, Json.walk, scalarLiteral,
      hscalar, elementsAll, elements, elementsAll_literal]
    rfl
  · have hnone : reached key path v = none := by
      cases path with
      | none => rfl
      | some p =>
        rw [reached, Option.bind_some]
        cases hk : Path.keysBelow? p.segments key.segments with
        | none => rfl
        | some keys =>
          cases keys with
          | nil =>
            have hpath : p = key := congrArg Path.mk (Path.eq_of_keysBelow? hk)
            exact absurd ((highlighted_iff hm _).mpr (congrArg some hpath)) hp
          | cons first rest =>
            cases v with
            | obj entries => cases hv
            | _ => rfl
    rw [if_neg hp, hnone]
    cases v <;> rfl

/-- Of the entries of an object only the one with the next key leads to what is searched. -/
theorem found_entries {entries : List (String × Json)} (hn : (Entries.keys entries).Nodup) :
    (entries.flatMap fun e => scalarLiteral (reached key (path.map (·.child e.1)) e.2)) =
      scalarLiteral (reached key path (.obj entries)) := by
  cases path with
  | none => exact List.flatMap_eq_nil_iff.mpr fun _ _ => rfl
  | some p =>
    simp only [Option.map_some, reached_child]
    rw [reached, Option.bind_some]
    cases Path.keysBelow? p.segments key.segments with
    | none => exact List.flatMap_eq_nil_iff.mpr fun _ _ => rfl
    | some keys =>
      cases keys with
      | nil => exact List.flatMap_eq_nil_iff.mpr fun _ _ => rfl
      | cons first rest =>
        have hentry : ∀ e : String × Json,
            scalarLiteral (if e.1 = first then Json.walk rest e.2 else none) =
              if e.1 = first then scalarLiteral (Json.walk rest e.2) else [] := by
          intro e
          split <;> rfl
        simp only [hentry]
        rw [Entries.flatMap_of_nodup hn first fun child => scalarLiteral (Json.walk rest child),
          Option.bind_some, Json.walk]
        cases entries.lookup first <;> rfl

/-- The highlighted elements of a value are that of the scalar to which the searched path leads. -/
theorem found_pieces (hm : Marks marks key) (hv : v.wellFormed = true)
    (h : pieces marks depth path v = some body) :
    elementsAll .found body = scalarLiteral (reached key path v) := by
  revert hv
  refine pieces_induction (P := fun path v body => v.wellFormed = true →
    elementsAll .found body = scalarLiteral (reached key path v))
    ?leaf ?emptyArr ?emptyObj ?arr ?obj h
  case leaf => exact fun path leaf hl _ => found_leaf hm hl
  case emptyArr => exact fun path _ => (scalarLiteral_arr key path []).symm
  case emptyObj => exact fun path hv => found_entries (Json.wellFormed_obj.mp hv).1
  case arr =>
    intro path items bodies _ hbodies hv
    rw [scalarLiteral_arr, elementsAll_arrayPieces, List.flatMap_eq_nil_iff]
    intro body hb
    obtain ⟨item, hi, hbody⟩ := exists_of_forall₂ hbodies body hb
    exact hbody (Json.wellFormed_arr.mp hv item hi)
  case obj =>
    intro path entries lines _ hlines hv
    obtain ⟨hn, hchildren⟩ := Json.wellFormed_obj.mp hv
    rw [elementsAll_objectPieces, ← found_entries hn]
    refine flatMap_eq_of_forall₂ (forall₂_imp_of_mem hlines fun e he line hline => ?_)
    obtain ⟨body, hbody, rfl⟩ := hline
    rw [elements_entryLine e.1 body (by decide) (by decide)]
    exact hbody (hchildren e he)

end Render

end JsonInspect
