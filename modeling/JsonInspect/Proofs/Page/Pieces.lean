import JsonInspect.Proofs.Json.Place
import JsonInspect.Proofs.Json.Tree
import JsonInspect.Proofs.Lists
import JsonInspect.Render

/-! # The pieces of a value

What the pieces of a container are, in terms of the pieces of what it contains, and the induction
over them (`pieces_induction`). The depth that is left only decides whether there are pieces
(`isSome_pieces`), and so it does whatever is highlighted. -/

namespace JsonInspect.Render

open Markup

def joined (separator : String) : List (List Markup) → List Markup
  | [] => []
  | first :: others => first ++ others.flatMap (layout separator :: ·)

def entryLine (key : String) (body : List Markup) : Markup :=
  element .line (keyPiece key :: layout ": " :: body)

def arrayPieces (bodies : List (List Markup)) : List Markup :=
  layout "[\n" :: joined ",\n" bodies ++ [layout "\n]"]

def objectPieces (lines : List Markup) : List Markup :=
  layout "\x7b\n" :: joined "\n" (lines.map ([·])) ++ [layout "\n\x7d"]

/-! ## Leaves -/

def highlighted (marks : MatchSet) : Option Path → Bool
  | some p => !p.isEmpty && marks.contains p
  | none => false

def shadedPieces (leaf : Json) : List Markup :=
  match leafTag? leaf with
  | some tag => [element tag (literalPieces leaf)]
  | none => literalPieces leaf

theorem leafPieces_eq (marks : MatchSet) (path : Option Path) (leaf : Json) :
    leafPieces marks path leaf =
      if highlighted marks path then [element .found (literalPieces leaf)]
      else shadedPieces leaf := by
  cases path <;> rfl

variable {marks : MatchSet} {depth : Nat} {path : Option Path}

/-! ## Containers -/

theorem itemPieces_inv {items : List Json} {others : List Markup}
    (h : itemPieces marks depth items = some others) :
    ∃ bodies, List.Forall₂ (fun item body => pieces marks depth none item = some body)
        items bodies ∧
      others = bodies.flatMap (layout ",\n" :: ·) := by
  induction items generalizing others with
  | nil =>
    cases h
    exact ⟨[], .nil, rfl⟩
  | cons item rest ih =>
    obtain ⟨first, hfirst, h⟩ := Option.bind_eq_some_iff.mp h
    obtain ⟨others', hothers, h⟩ := Option.bind_eq_some_iff.mp h
    cases h
    obtain ⟨bodies, hbodies, rfl⟩ := ih hothers
    exact ⟨first :: bodies, .cons hfirst hbodies, rfl⟩

theorem entryPieces_inv {entries : List (String × Json)} {others : List Markup}
    (h : entryPieces marks depth path entries = some others) :
    ∃ lines, List.Forall₂ (fun (e : String × Json) line => ∃ body,
        pieces marks depth (path.map (·.child e.1)) e.2 = some body ∧
          line = entryLine e.1 body) entries lines ∧
      others = (lines.map ([·])).flatMap (layout "\n" :: ·) := by
  induction entries generalizing others with
  | nil =>
    cases h
    exact ⟨[], .nil, rfl⟩
  | cons e rest ih =>
    obtain ⟨first, hfirst, h⟩ := Option.bind_eq_some_iff.mp h
    obtain ⟨others', hothers, h⟩ := Option.bind_eq_some_iff.mp h
    cases h
    obtain ⟨lines, hlines, rfl⟩ := ih hothers
    exact ⟨entryLine e.1 first :: lines, .cons ⟨first, hfirst, rfl⟩ hlines, rfl⟩

theorem pieces_arr_inv {items : List Json} {body : List Markup} (hne : items ≠ [])
    (h : pieces marks depth path (.arr items) = some body) :
    ∃ below bodies, List.Forall₂ (fun item body => pieces marks below none item = some body)
        items bodies ∧
      body = arrayPieces bodies := by
  cases items with
  | nil => exact absurd rfl hne
  | cons item rest =>
    rw [pieces] at h
    split at h
    · cases h
    · obtain ⟨first, hfirst, h⟩ := Option.bind_eq_some_iff.mp h
      obtain ⟨others, hothers, h⟩ := Option.bind_eq_some_iff.mp h
      cases h
      obtain ⟨bodies, hbodies, rfl⟩ := itemPieces_inv hothers
      exact ⟨depth - 1, first :: bodies, .cons hfirst hbodies, rfl⟩

theorem pieces_obj_inv {entries : List (String × Json)} {body : List Markup} (hne : entries ≠ [])
    (h : pieces marks depth path (.obj entries) = some body) :
    ∃ below lines, List.Forall₂ (fun (e : String × Json) line => ∃ body,
        pieces marks below (path.map (·.child e.1)) e.2 = some body ∧
          line = entryLine e.1 body) entries lines ∧
      body = objectPieces lines := by
  cases entries with
  | nil => exact absurd rfl hne
  | cons e rest =>
    rw [pieces] at h
    split at h
    · cases h
    · obtain ⟨first, hfirst, h⟩ := Option.bind_eq_some_iff.mp h
      obtain ⟨others, hothers, h⟩ := Option.bind_eq_some_iff.mp h
      cases h
      obtain ⟨lines, hlines, rfl⟩ := entryPieces_inv hothers
      exact ⟨depth - 1, entryLine e.1 first :: lines, .cons ⟨first, hfirst, rfl⟩ hlines, rfl⟩

/-! ## Induction -/

/-- What holds of the pieces of leaves and of empty containers, and of a container's pieces if it
holds of the pieces of what it contains, holds of the pieces of every value. -/
theorem pieces_induction {P : Option Path → Json → List Markup → Prop}
    (leaf : ∀ path v, v.isLeaf = true → P path v (leafPieces marks path v))
    (emptyArr : ∀ path, P path (.arr []) [layout "[]"])
    (emptyObj : ∀ path, P path (.obj []) [layout "\x7b\x7d"])
    (arr : ∀ path items bodies, items ≠ [] → List.Forall₂ (P none) items bodies →
      P path (.arr items) (arrayPieces bodies))
    (obj : ∀ path entries lines, entries ≠ [] →
      List.Forall₂ (fun (e : String × Json) line => ∃ body,
        P (path.map (·.child e.1)) e.2 body ∧ line = entryLine e.1 body) entries lines →
      P path (.obj entries) (objectPieces lines))
    {v : Json} {body : List Markup} (h : pieces marks depth path v = some body) :
    P path v body := by
  induction v using Json.induction generalizing depth path body with
  | null =>
    cases h
    exact leaf path .null rfl
  | bool b =>
    cases h
    exact leaf path (.bool b) rfl
  | num n =>
    cases h
    exact leaf path (.num n) rfl
  | str s =>
    cases h
    exact leaf path (.str s) rfl
  | arr items ih =>
    by_cases hne : items = []
    · subst hne
      cases h
      exact emptyArr path
    · obtain ⟨below, bodies, hbodies, rfl⟩ := pieces_arr_inv hne h
      refine arr path items bodies hne ?_
      exact forall₂_imp_of_mem hbodies fun item hi body hbody => ih item hi hbody
  | obj entries ih =>
    by_cases hne : entries = []
    · subst hne
      cases h
      exact emptyObj path
    · obtain ⟨below, lines, hlines, rfl⟩ := pieces_obj_inv hne h
      refine obj path entries lines hne ?_
      refine forall₂_imp_of_mem hlines fun e he line hline => ?_
      obtain ⟨body, hbody, rfl⟩ := hline
      exact ⟨body, ih e he hbody, rfl⟩

/-! ## Values that are not too deep -/

theorem isSome_itemPieces {items : List Json} : (itemPieces marks depth items).isSome = true ↔
    ∀ item ∈ items, (pieces marks depth none item).isSome = true := by
  induction items with
  | nil => simp [itemPieces]
  | cons item rest ih =>
    rw [List.forall_mem_cons, ← ih, itemPieces]
    cases pieces marks depth none item <;> cases itemPieces marks depth rest <;> simp

theorem isSome_entryPieces {entries : List (String × Json)} :
    (entryPieces marks depth path entries).isSome = true ↔
      ∀ e ∈ entries, (pieces marks depth (path.map (·.child e.1)) e.2).isSome = true := by
  induction entries with
  | nil => simp [entryPieces]
  | cons e rest ih =>
    rw [List.forall_mem_cons, ← ih, entryPieces]
    cases pieces marks depth (path.map (·.child e.1)) e.2 <;>
      cases entryPieces marks depth path rest <;> simp

/-- A value has pieces if and only if its deepest value is no further away than levels are left. -/
theorem isSome_pieces {v : Json} :
    (pieces marks depth path v).isSome = true ↔ v.levels ≤ depth := by
  induction v using Json.induction generalizing depth path with
  | null => exact iff_of_true rfl (Nat.zero_le _)
  | bool b => exact iff_of_true rfl (Nat.zero_le _)
  | num n => exact iff_of_true rfl (Nat.zero_le _)
  | str s => exact iff_of_true rfl (Nat.zero_le _)
  | arr items ih =>
    cases items with
    | nil => exact iff_of_true rfl (Nat.zero_le _)
    | cons item rest =>
      rw [Json.levels, Json.itemsLevels_le, pieces]
      cases depth with
      | zero =>
        rw [if_pos rfl]
        exact iff_of_false Bool.false_ne_true fun h =>
          Nat.not_lt_zero _ (h item List.mem_cons_self)
      | succ depth =>
        have hitems : ∀ child ∈ item :: rest,
            ((pieces marks depth none child).isSome = true ↔ child.levels < depth + 1) :=
          fun child hc => (ih child hc).trans Nat.lt_succ_iff.symm
        rw [← forall₂_congr hitems, List.forall_mem_cons, ← isSome_itemPieces,
          if_neg (Nat.succ_ne_zero depth), Nat.add_sub_cancel]
        cases pieces marks depth none item <;> cases itemPieces marks depth rest <;> simp
  | obj entries ih =>
    cases entries with
    | nil => exact iff_of_true rfl (Nat.zero_le _)
    | cons e rest =>
      rw [Json.levels, Json.entriesLevels_le, pieces]
      cases depth with
      | zero =>
        rw [if_pos rfl]
        exact iff_of_false Bool.false_ne_true fun h =>
          Nat.not_lt_zero _ (h e List.mem_cons_self)
      | succ depth =>
        have hentries : ∀ child ∈ e :: rest,
            ((pieces marks depth (path.map (·.child child.1)) child.2).isSome = true ↔
              child.2.levels < depth + 1) :=
          fun child hc => (ih child hc).trans Nat.lt_succ_iff.symm
        rw [← forall₂_congr hentries, List.forall_mem_cons, ← isSome_entryPieces,
          if_neg (Nat.succ_ne_zero depth), Nat.add_sub_cancel]
        cases pieces marks depth (path.map (·.child e.1)) e.2 <;>
          cases entryPieces marks depth path rest <;> simp

theorem pieces_exists {v : Json} (h : v.depth ≤ depth) :
    ∃ body, pieces marks depth path v = some body :=
  Option.isSome_iff_exists.mp (isSome_pieces.mpr (v.levels_le_depth.trans h))

/-! ## Blocks -/

theorem ruled_cons_cons (block next : Markup) (rest : List Markup) :
    ruled (block :: next :: rest) = block :: rule :: ruled (next :: rest) := rfl

end JsonInspect.Render
