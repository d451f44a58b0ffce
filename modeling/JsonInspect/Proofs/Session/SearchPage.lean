import JsonInspect.Proofs.Page.Results
import JsonInspect.Proofs.Session.Nesting

/-! # The page of a search

A search highlights what it searched: in every record that it found the scalar to which the searched
path leads, and nothing else (`search_page`). A text that can be read is not too deep for a page. -/

namespace JsonInspect

open Render

def SearchRequest.path? (request : SearchRequest) : Option Path :=
  if (trim request.expression).isEmpty then some (Path.parse (trim request.key))
  else (Predicate.parse? (trim request.expression)).map Predicate.key

/-- The records found have something at a path, which is what is highlighted in them. -/
structure Matches.FoundAt (found : Matches) (key : Path) : Prop where
  marks_eq : found.marks = MatchSet.uniform found.records.length key
  resolved : ∀ record ∈ found.records, ∃ field, record.resolve key = some field

/-- Records that are kept for what a path leads to in them. -/
theorem foundAt_filter (key : Path) (keeps : Json → Bool) (records : List Json) :
    (Matches.of (records.filter fun record =>
      match record.resolve key with
      | some field => keeps field
      | none => false) key).FoundAt key := by
  refine ⟨rfl, fun record hr => ?_⟩
  have hkept := (List.mem_filter.mp hr).2
  cases hfield : record.resolve key with
  | some field => exact ⟨field, rfl⟩
  | none =>
    rw [hfield] at hkept
    cases hkept

theorem foundAt_queryByValue (m : Matching) (key : Path) (value : String) (root : Json) :
    (queryByValue m key value root).FoundAt key :=
  foundAt_filter key (valueMatches m value) root.records

theorem foundAt_queryByPredicate (m : Matching) (p : Predicate) (root : Json) :
    (queryByPredicate m p root).FoundAt p.key :=
  foundAt_filter p.key (evaluate m p.operator p.operand) root.records

theorem matches_foundAt {request : SearchRequest} {m : Matching} {root : Json} {found : Matches}
    (h : request.matches m root = .ok found) :
    ∃ key, request.path? = some key ∧ found.FoundAt key := by
  unfold SearchRequest.matches at h
  unfold SearchRequest.path?
  split at h
  · rename_i hexpr
    split at h
    · cases h
    · cases h
      rw [if_pos hexpr]
      exact ⟨_, rfl, foundAt_queryByValue m _ (trim request.value) root⟩
  · rename_i hexpr
    rw [if_neg hexpr]
    unfold Predicate.parse at h
    cases hp : Predicate.parse? (trim request.expression) with
    | none =>
      rw [hp] at h
      cases h
    | some p =>
      rw [hp] at h
      cases h
      exact ⟨p.key, rfl, foundAt_queryByPredicate m p root⟩

theorem search_html {s : Session} {request : SearchRequest} {outcome : SearchOutcome}
    (h : s.search request = .ok outcome) :
    outcome.html = renderResults outcome.found.marks outcome.found.records := by
  rw [Session.search] at h
  obtain ⟨root, -, h⟩ := bind_eq_ok.mp h
  dsimp only at h
  split at h
  · obtain ⟨⟨found, status⟩, -, h⟩ := bind_eq_ok.mp h
    cases h
    rfl
  · obtain ⟨⟨found, status⟩, -, h⟩ := bind_eq_ok.mp h
    cases h
    rfl

/-- The same path in every record, as long as there is one. -/
theorem marks_uniform {n : Nat} (hn : n ≠ 0) {key : Path} (hkey : key.isEmpty = false) :
    Marks (MatchSet.uniform n key) key := by
  refine ⟨fun p => ?_, hkey⟩
  simp [MatchSet.uniform, MatchSet.contains, List.any_replicate, hn]

theorem Matches.FoundAt.marks {found : Matches} {key : Path} (h : found.FoundAt key)
    (hne : found.records ≠ []) : Marks found.marks key := by
  obtain ⟨record, rest, hrecords⟩ := List.exists_cons_of_ne_nil hne
  obtain ⟨field, hfield⟩ := h.resolved record (by rw [hrecords]; exact List.mem_cons_self)
  rw [h.marks_eq]
  refine marks_uniform (mt List.length_eq_zero_iff.mp hne) ?_
  cases hkey : key.isEmpty with
  | false => rfl
  | true =>
    rw [Json.resolve, hkey] at hfield
    cases hfield

theorem depth_records_le (root : Json) : ∀ record ∈ root.records, record.depth ≤ root.depth := by
  intro record hr
  cases root with
  | arr items => exact Nat.le_of_lt (Json.depth_lt_of_mem_items hr)
  | _ => rw [List.mem_singleton.mp hr]

/-- The page of a search that found something has a block for each record found, in document order,
and in each block the scalar at the searched path is highlighted and nothing else is. -/
theorem search_page (s : Session) (request : SearchRequest) (outcome : SearchOutcome)
    (h : s.search request = .ok outcome) (hne : outcome.found.records ≠ []) :
    ∃ root key, s.root = .ok root ∧ request.path? = some key ∧
      outcome.found.records.Sublist root.records ∧
      HighlightedPage outcome.found.marks key outcome.found.records outcome.html.toList := by
  obtain ⟨root, hroot, hfound, -⟩ := search_eq_ok h
  obtain ⟨key, hkey, hat⟩ := matches_foundAt hfound
  have hsub := matches_sublist hfound
  obtain ⟨hwell, hdepth⟩ := s.root_fits hroot
  have hhtml : outcome.html.toList =
      (resultPage outcome.found.marks outcome.found.records).html := by
    rw [search_html h, renderResults, if_neg (by simpa using hne), String.toList_ofList]
  refine ⟨root, key, hroot, hkey, hsub, ?_⟩
  rw [hhtml]
  refine highlightedPage (hat.marks hne) hne fun record hr => ⟨?_, ?_, hat.resolved record hr⟩
  · exact wellFormed_records hwell record (hsub.subset hr)
  · calc record.depth ≤ root.depth := depth_records_le root record (hsub.subset hr)
      _ ≤ Json.greatestDepth := hdepth
      _ ≤ Render.greatestDepth := by decide

/-- Two records, of which one has the text of a highlight as its value. -/
def forgedSession : Session :=
  Session.start
    "[\x7b\"city\":\"<span class=\\\"json-match\\\">\"\x7d,\x7b\"city\":\x7b\"a\":1\x7d\x7d]"
    ⟨⟨false, 2⟩, 10, 2⟩

theorem forgedSession_page :
    ∃ outcome, forgedSession.search ⟨"", "city", ""⟩ = .ok outcome ∧
      outcome.found.records ≠ [] ∧
      ∃ root key, forgedSession.root = .ok root ∧
        SearchRequest.path? ⟨"", "city", ""⟩ = some key ∧
        outcome.found.records.Sublist root.records ∧
        HighlightedPage outcome.found.marks key outcome.found.records outcome.html.toList := by
  have hcount : (forgedSession.search ⟨"", "city", ""⟩).toOption.map (·.found.records.length) =
      some 2 := by decide +kernel
  cases h : forgedSession.search ⟨"", "city", ""⟩ with
  | error f =>
    rw [h] at hcount
    cases hcount
  | ok outcome =>
    rw [h] at hcount
    have hne : outcome.found.records ≠ [] := by
      intro hnil
      rw [Except.toOption, Option.map_some, hnil] at hcount
      cases hcount
    exact ⟨outcome, rfl, hne, search_page forgedSession ⟨"", "city", ""⟩ outcome h hne⟩

end JsonInspect
