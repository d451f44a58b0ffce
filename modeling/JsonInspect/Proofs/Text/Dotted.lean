import JsonInspect.Path
import Mathlib.Data.List.Count

/-! # Texts of paths

A text is split at its dots and nowhere else, so splitting and putting dots between the parts undo
each other (`Path.texts_and_paths_inverse`), and a path has one key more than its text has dots. -/

namespace JsonInspect

/-! ## Splitting at a separator -/

section

variable {sep : Char} {part : List Char}

theorem splitAtChar_sep (sep : Char) (rest : List Char) :
    splitAtChar sep (sep :: rest) = [] :: splitAtChar sep rest := if_pos rfl

theorem splitAtChar_ne_nil (sep : Char) (cs : List Char) : splitAtChar sep cs ≠ [] := by
  cases cs with
  | nil => exact List.cons_ne_nil _ _
  | cons c rest =>
    rw [splitAtChar]
    split
    · exact List.cons_ne_nil _ _
    · split <;> exact List.cons_ne_nil _ _

/-- A character that is no separator goes to the first part. -/
theorem splitAtChar_cons {c : Char} (hc : c ≠ sep) (rest : List Char) :
    ∃ part parts, splitAtChar sep rest = part :: parts ∧
      splitAtChar sep (c :: rest) = (c :: part) :: parts := by
  obtain ⟨part, parts, h⟩ := List.exists_cons_of_ne_nil (splitAtChar_ne_nil sep rest)
  refine ⟨part, parts, h, ?_⟩
  rw [splitAtChar, if_neg hc, h]

theorem splitAtChar_of_notMem (h : sep ∉ part) : splitAtChar sep part = [part] := by
  induction part with
  | nil => rfl
  | cons c part ih =>
    rw [List.mem_cons, not_or] at h
    rw [splitAtChar, if_neg (Ne.symm h.1), ih h.2]

theorem notMem_of_mem_splitAtChar {cs : List Char} (h : part ∈ splitAtChar sep cs) :
    sep ∉ part := by
  induction cs generalizing part with
  | nil =>
    rw [splitAtChar, List.mem_singleton] at h
    subst h
    exact List.not_mem_nil
  | cons c rest ih =>
    by_cases hc : c = sep
    · subst hc
      rw [splitAtChar_sep, List.mem_cons] at h
      rcases h with rfl | h
      · exact List.not_mem_nil
      · exact ih h
    · obtain ⟨first, parts, hrest, hcons⟩ := splitAtChar_cons hc rest
      rw [hrest] at ih
      rw [hcons, List.mem_cons] at h
      rcases h with rfl | h
      · rw [List.mem_cons, not_or]
        exact ⟨Ne.symm hc, ih List.mem_cons_self⟩
      · exact ih (List.mem_cons_of_mem _ h)

/-- At a separator the parts on both sides are split by themselves. -/
theorem splitAtChar_append_sep (sep : Char) (front back : List Char) :
    splitAtChar sep (front ++ sep :: back) = splitAtChar sep front ++ splitAtChar sep back := by
  induction front with
  | nil => exact splitAtChar_sep sep back
  | cons c front ih =>
    rw [List.cons_append]
    by_cases hc : c = sep
    · subst hc
      rw [splitAtChar_sep, splitAtChar_sep, ih, List.cons_append]
    · obtain ⟨part, parts, hfront, hcons⟩ := splitAtChar_cons hc front
      rw [splitAtChar, if_neg hc, ih, hfront, hcons]
      rfl

theorem splitAtChar_append (h : sep ∉ part) (rest : List Char) :
    splitAtChar sep (part ++ sep :: rest) = part :: splitAtChar sep rest := by
  rw [splitAtChar_append_sep, splitAtChar_of_notMem h]
  rfl

/-- Parts without a separator are split again where they were put together. -/
theorem splitAtChar_intercalate {parts : List (List Char)} (hne : parts ≠ [])
    (h : ∀ part ∈ parts, sep ∉ part) : splitAtChar sep ([sep].intercalate parts) = parts := by
  induction parts with
  | nil => exact absurd rfl hne
  | cons part parts ih =>
    rw [List.forall_mem_cons] at h
    cases parts with
    | nil => rw [List.intercalate_singleton, splitAtChar_of_notMem h.1]
    | cons next parts =>
      rw [List.intercalate_cons_cons, List.append_assoc, List.singleton_append,
        splitAtChar_append h.1, ih (List.cons_ne_nil _ _) h.2]

theorem intercalate_splitAtChar (sep : Char) (cs : List Char) :
    [sep].intercalate (splitAtChar sep cs) = cs := by
  induction cs with
  | nil => exact List.intercalate_singleton
  | cons c rest ih =>
    by_cases hc : c = sep
    · subst c
      obtain ⟨part, parts, h⟩ := List.exists_cons_of_ne_nil (splitAtChar_ne_nil sep rest)
      rw [splitAtChar_sep, h, List.intercalate_cons_cons, ← h, ih]
      rfl
    · obtain ⟨part, parts, hrest, hcons⟩ := splitAtChar_cons hc rest
      rw [hrest] at ih
      rw [hcons]
      cases parts with
      | nil =>
        rw [List.intercalate_singleton] at ih ⊢
        rw [ih]
      | cons next parts =>
        rw [List.intercalate_cons_cons] at ih ⊢
        rw [List.append_assoc, List.cons_append, ← List.append_assoc, ih]

theorem length_splitAtChar (sep : Char) (cs : List Char) :
    (splitAtChar sep cs).length = cs.count sep + 1 := by
  induction cs with
  | nil => rfl
  | cons c rest ih =>
    by_cases hc : c = sep
    · subst c
      rw [splitAtChar_sep, List.length_cons, ih, List.count_cons_self]
    · obtain ⟨part, parts, hrest, hcons⟩ := splitAtChar_cons hc rest
      rw [hcons, List.count_cons_of_ne hc, ← ih, hrest]
      rfl

end

/-! ## Paths and their texts -/

/-- A key that is a part of a dotted text by itself. -/
def IsPlainKey (key : String) : Prop := key ≠ "" ∧ '.' ∉ key.toList

instance (key : String) : Decidable (IsPlainKey key) :=
  inferInstanceAs (Decidable (key ≠ "" ∧ '.' ∉ key.toList))

namespace Path

theorem segments_parse {text : String} (h : text ≠ "") :
    (parse text).segments = (splitAtChar '.' text.toList).map String.ofList := by
  rw [parse, if_neg (mt String.isEmpty_iff.mp h)]

theorem text_parse (text : String) : (parse text).text = text := by
  by_cases h : text = ""
  · subst h
    rfl
  · refine String.toList_inj.mp ?_
    have hparts : ((splitAtChar '.' text.toList).map String.ofList).map String.toList =
        splitAtChar '.' text.toList := by simp
    rw [Path.text, segments_parse h, String.toList_intercalate, hparts]
    exact intercalate_splitAtChar '.' text.toList

/-- The path of a text has one key more than the text has dots. -/
theorem length_segments_parse {text : String} (h : text ≠ "") :
    (parse text).segments.length = text.toList.count '.' + 1 := by
  rw [segments_parse h, List.length_map, length_splitAtChar]

/-- Only the empty path and the path of one empty key have the empty text. -/
theorem text_eq_empty_iff {keys : List String} :
    (⟨keys⟩ : Path).text = "" ↔ keys = [] ∨ keys = [""] := by
  cases keys with
  | nil => simp [Path.text]
  | cons key rest =>
    cases rest with
    | nil => simp [Path.text]
    | cons next rest =>
      simp [Path.text, String.intercalate_cons_cons, String.append_eq_empty_iff]

/-- Keys without dots are read back, also empty ones. -/
theorem parse_text_of_undotted {keys : List String} (hdots : ∀ key ∈ keys, '.' ∉ key.toList)
    (hempty : keys ≠ [""]) : parse (⟨keys⟩ : Path).text = ⟨keys⟩ := by
  by_cases hne : keys = []
  · subst hne
    rfl
  have htext : (⟨keys⟩ : Path).text ≠ "" := by
    rw [Ne, text_eq_empty_iff, not_or]
    exact ⟨hne, hempty⟩
  have hsplit : splitAtChar '.' (⟨keys⟩ : Path).text.toList = keys.map String.toList := by
    rw [Path.text, String.toList_intercalate]
    refine splitAtChar_intercalate (mt List.map_eq_nil_iff.mp hne) fun part hpart => ?_
    obtain ⟨key, hkey, rfl⟩ := List.mem_map.mp hpart
    exact hdots key hkey
  have hsegments := segments_parse htext
  rw [hsplit, List.map_map] at hsegments
  have hid : keys.map (String.ofList ∘ String.toList) = keys := by simp
  rw [hid] at hsegments
  exact congrArg Path.mk hsegments

theorem parse_text {keys : List String} (hkeys : ∀ key ∈ keys, IsPlainKey key) :
    parse (⟨keys⟩ : Path).text = ⟨keys⟩ := by
  refine parse_text_of_undotted (fun key hkey => (hkeys key hkey).2) fun hempty => ?_
  subst hempty
  exact (hkeys "" List.mem_cons_self).1 rfl

/-- What is read from a text has no dots in its keys. -/
theorem undotted_of_mem_parse {text key : String} (h : key ∈ (parse text).segments) :
    '.' ∉ key.toList := by
  by_cases ht : text = ""
  · subst ht
    cases h
  · rw [segments_parse ht] at h
    obtain ⟨part, hpart, rfl⟩ := List.mem_map.mp h
    rw [String.toList_ofList]
    exact notMem_of_mem_splitAtChar hpart

theorem segments_parse_ne_empty_key (text : String) : (parse text).segments ≠ [""] := by
  intro h
  have htext : text = "" := by
    rw [← text_parse text, Path.text, h]
    exact String.intercalate_singleton
  subst htext
  cases h

/-- Texts and paths are inverse: a text is the text of what is read from it, and a path is read
from its text exactly if no key has a dot and the path is not one empty key, whose text is that
of the empty path. -/
theorem texts_and_paths_inverse :
    (∀ text, (parse text).text = text) ∧
    ∀ p : Path, parse p.text = p ↔ (∀ key ∈ p.segments, '.' ∉ key.toList) ∧ p.segments ≠ [""] := by
  refine ⟨text_parse, fun p => ⟨fun h => ?_, fun h => parse_text_of_undotted h.1 h.2⟩⟩
  rw [← h]
  exact ⟨fun key hkey => undotted_of_mem_parse hkey, segments_parse_ne_empty_key p.text⟩

end Path

/-! ## Dotted locations -/

theorem dotted_of_ne {location : String} (h : location ≠ "") (key : String) :
    dotted location key = location ++ "." ++ key := if_neg (mt String.isEmpty_iff.mp h)

/-- Going down by some keys puts them behind a location. -/
theorem foldl_dotted {location : String} (h : location ≠ "") (keys : List String) :
    keys.foldl dotted location = (⟨location :: keys⟩ : Path).text := by
  induction keys generalizing location with
  | nil => exact String.intercalate_singleton.symm
  | cons key keys ih =>
    rw [List.foldl_cons, dotted_of_ne h, ih (by simp [String.append_eq_empty_iff, h]), Path.text,
      Path.text, String.intercalate_cons_append, String.intercalate_cons_cons]

/-- The location of keys that are not empty is the text of their path. -/
theorem foldl_dotted_empty {keys : List String} (hne : keys ≠ [])
    (hkeys : ∀ key ∈ keys, key ≠ "") : keys.foldl dotted "" = (⟨keys⟩ : Path).text := by
  obtain ⟨key, rest, rfl⟩ := List.exists_cons_of_ne_nil hne
  exact foldl_dotted (hkeys key List.mem_cons_self) rest

end JsonInspect
