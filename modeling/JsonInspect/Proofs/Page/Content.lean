import JsonInspect.Proofs.Page.Balanced

/-! # What a page says

The text content of a page is what is left when its tags are deleted and its entities decoded
(`textContent`), and of balanced HTML that is the text it shows (`Balanced.textContent_eq`). It is
the plain layout of what was rendered, or its compact text if that is nested too deep, whatever is
highlighted (`highlighting_keeps_content`). -/

namespace JsonInspect

/-! ## Deleting tags and decoding entities -/

namespace Page

/-- Puts other characters for the words of a table wherever they stand. The number counts the
characters of a word that are still to be passed over. -/
def substitute (table : List (List Char × List Char)) : Nat → List Char → List Char
  | _, [] => []
  | n + 1, _ :: rest => substitute table n rest
  | 0, c :: rest =>
    match table.find? fun entry => entry.1.isPrefixOf (c :: rest) with
    | some entry => entry.2 ++ substitute table (entry.1.length - 1) rest
    | none => c :: substitute table 0 rest

/-- The tags, for which nothing is put. -/
def tagTable : List (List Char × List Char) :=
  (ruleTag :: elementTags.flatMap fun tags => [tags.1, tags.2]).map fun tag => (tag.toList, [])

def entityTable : List (List Char × List Char) :=
  entities.map fun entity => (entity.1.toList, [entity.2])

/-- The text of a page: the tags are deleted and then the entities are decoded. -/
def textContent (html : String) : String :=
  String.ofList (substitute entityTable 0 (substitute tagTable 0 html.toList))

/-- At no place of a text more than one entry of a table applies. -/
structure PrefixFree (table : List (List Char × List Char)) : Prop where
  ne_nil : ∀ entry ∈ table, entry.1 ≠ []
  eq_of_prefix : ∀ entry ∈ table, ∀ entry' ∈ table, entry.1 <+: entry'.1 → entry = entry'

theorem prefixFree_tagTable : PrefixFree tagTable :=
  ⟨by decide +kernel, by decide +kernel⟩

theorem prefixFree_entityTable : PrefixFree entityTable :=
  ⟨by decide, by decide⟩

variable {table : List (List Char × List Char)} {word image : List Char} {c : Char}

theorem substitute_length (word rest : List Char) :
    substitute table word.length (word ++ rest) = substitute table 0 rest := by
  induction word with
  | nil => rfl
  | cons c word ih => exact ih

/-- What is put for a word does not depend on what follows it. -/
theorem PrefixFree.passes (hfree : PrefixFree table) (h : (word, image) ∈ table) :
    Passes (substitute table 0) word image := by
  intro rest
  have hfind : table.find? (fun entry => entry.1.isPrefixOf (word ++ rest)) =
      some (word, image) := by
    cases hfound : table.find? fun entry => entry.1.isPrefixOf (word ++ rest) with
    | none =>
      have hself := List.find?_eq_none.mp hfound _ h
      exact absurd (List.isPrefixOf_iff_prefix.mpr (List.prefix_append word rest)) hself
    | some entry =>
      have hmem := List.mem_of_find?_eq_some hfound
      have hprefix := List.isPrefixOf_iff_prefix.mp (List.find?_eq_some_iff_append.mp hfound).1
      rcases List.prefix_or_prefix_of_prefix hprefix (List.prefix_append word rest) with hp | hp
      · exact congrArg some (hfree.eq_of_prefix _ hmem _ h hp)
      · exact congrArg some (hfree.eq_of_prefix _ h _ hmem hp).symm
  obtain ⟨c, word, rfl⟩ := List.exists_cons_of_ne_nil (hfree.ne_nil _ h)
  rw [List.cons_append] at hfind ⊢
  rw [substitute, hfind]
  exact congrArg (image ++ ·) (substitute_length word rest)

/-- A character that starts no word stays. -/
theorem PrefixFree.passes_of_head (hfree : PrefixFree table)
    (h : ∀ entry ∈ table, entry.1.head? ≠ some c) : Passes (substitute table 0) [c] [c] := by
  intro rest
  have hfind : table.find? (fun entry => entry.1.isPrefixOf (c :: rest)) = none := by
    rw [List.find?_eq_none]
    intro entry hmem hprefix
    obtain ⟨d, word, hword⟩ := List.exists_cons_of_ne_nil (hfree.ne_nil _ hmem)
    rw [List.isPrefixOf_iff_prefix, hword, List.cons_prefix_cons] at hprefix
    refine h entry hmem ?_
    rw [hword, hprefix.1]
    rfl
  rw [List.singleton_append, substitute, hfind]
  rfl

theorem passes_tags (h : c ≠ '<') : Passes (substitute tagTable 0) [c] [c] := by
  have hheads : ∀ entry ∈ tagTable, entry.1.head? = some '<' := by decide
  exact prefixFree_tagTable.passes_of_head fun entry hmem hc =>
    h (Option.some.inj (hc.symm.trans (hheads entry hmem)))

theorem passes_entities (h : c ≠ '&') : Passes (substitute entityTable 0) [c] [c] := by
  have hheads : ∀ entry ∈ entityTable, entry.1.head? = some '&' := by decide
  exact prefixFree_entityTable.passes_of_head fun entry hmem hc =>
    h (Option.some.inj (hc.symm.trans (hheads entry hmem)))

theorem mem_tagTable {opening closing : String} (h : (opening, closing) ∈ elementTags) :
    (opening.toList, []) ∈ tagTable ∧ (closing.toList, []) ∈ tagTable := by
  have hmem : ∀ tag ∈ [opening, closing], (tag.toList, []) ∈ tagTable := fun tag ht =>
    List.mem_map_of_mem (List.mem_cons_of_mem _ (List.mem_flatMap.mpr ⟨_, h, ht⟩))
  exact ⟨hmem opening (by simp), hmem closing (by simp)⟩

/-- Without its tags, balanced HTML has the entities and characters of the text that it shows. -/
theorem Balanced.exists_bare {html shown : List Char} (h : Balanced html shown) :
    ∃ bare, Passes (substitute tagTable 0) html bare ∧
      Passes (substitute entityTable 0) bare shown := by
  induction h with
  | nil => exact ⟨[], .nil _, .nil _⟩
  | @plain c html shown hc _ ih =>
    obtain ⟨bare, htags, hentities⟩ := ih
    exact ⟨[c] ++ bare, (passes_tags hc.1).append htags,
      (passes_entities hc.2.2).append hentities⟩
  | @entity name c html shown hname _ ih =>
    obtain ⟨bare, htags, hentities⟩ := ih
    have hplain : '<' ∉ entities.flatMap (·.1.toList) := by decide
    refine ⟨name.toList ++ bare, Passes.append (.of_forall fun d hd => passes_tags ?_) htags, ?_⟩
    · rintro rfl
      exact hplain (List.mem_flatMap.mpr ⟨_, hname, hd⟩)
    · exact (prefixFree_entityTable.passes (List.mem_map_of_mem hname)).append hentities
  | rule _ ih =>
    obtain ⟨bare, htags, hentities⟩ := ih
    exact ⟨bare, (prefixFree_tagTable.passes List.mem_cons_self).append htags, hentities⟩
  | element hmem _ _ ihinner ih =>
    obtain ⟨innerBare, hinnertags, hinnerentities⟩ := ihinner
    obtain ⟨bare, htags, hentities⟩ := ih
    obtain ⟨hopening, hclosing⟩ := mem_tagTable hmem
    refine ⟨innerBare ++ bare, ?_, hinnerentities.append hentities⟩
    have hpasses := (((prefixFree_tagTable.passes hopening).append hinnertags).append
      (prefixFree_tagTable.passes hclosing)).append htags
    rwa [List.nil_append, List.append_nil] at hpasses

theorem Balanced.textContent_eq {html : String} {shown : List Char}
    (h : Balanced html.toList shown) : textContent html = String.ofList shown := by
  obtain ⟨bare, htags, hentities⟩ := h.exists_bare
  rw [textContent, htags.eq rfl, hentities.eq rfl]

/-- An entity is decoded once. -/
example : textContent "<div class=\"json-line\">a &amp;lt; b</div>" = "a &lt; b" := by
  decide +kernel

end Page

/-! ## The plain layout -/

namespace Json

mutual

/-- A value as the page lays it out: an element or an entry a line, with commas between elements
only, and every key and leaf as its literal. -/
def lines : Json → List Char
  | arr [] => ['[', ']']
  | obj [] => ['{', '}']
  | arr items => ['[', '\n'] ++ [',', '\n'].intercalate (itemLines items) ++ ['\n', ']']
  | obj entries => ['{', '\n'] ++ ['\n'].intercalate (entryLines entries) ++ ['\n', '}']
  | leaf => leaf.scalarChars

def itemLines : List Json → List (List Char)
  | [] => []
  | item :: rest => item.lines :: itemLines rest

def entryLines : List (String × Json) → List (List Char)
  | [] => []
  | (key, child) :: rest => (Quoted.literal key ++ [':', ' '] ++ child.lines) :: entryLines rest

end

theorem itemLines_eq (items : List Json) : itemLines items = items.map lines := by
  induction items with
  | nil => rfl
  | cons item rest ih => rw [itemLines, ih, List.map_cons]

theorem entryLines_eq (entries : List (String × Json)) : entryLines entries =
    entries.map fun e => Quoted.literal e.1 ++ [':', ' '] ++ e.2.lines := by
  induction entries with
  | nil => rfl
  | cons e rest ih => rw [entryLines, ih, List.map_cons]

theorem lines_arr {items : List Json} (hne : items ≠ []) : (arr items).lines =
    ['[', '\n'] ++ [',', '\n'].intercalate (items.map lines) ++ ['\n', ']'] := by
  obtain ⟨item, rest, rfl⟩ := List.exists_cons_of_ne_nil hne
  rw [lines, itemLines_eq]
  exact List.cons_ne_nil item rest

theorem lines_obj {entries : List (String × Json)} (hne : entries ≠ []) :
    (obj entries).lines = ['{', '\n'] ++ ['\n'].intercalate
      (entries.map fun e => Quoted.literal e.1 ++ [':', ' '] ++ e.2.lines) ++ ['\n', '}'] := by
  obtain ⟨e, rest, rfl⟩ := List.exists_cons_of_ne_nil hne
  rw [lines, entryLines_eq]
  exact List.cons_ne_nil e rest

end Json

/-! ## What pieces say -/

namespace Render

open Markup

variable {marks : MatchSet} {depth : Nat} {path : Option Path}

theorem content_literal {leaf : Json} (h : leaf.isLeaf = true) :
    contentAll (literalPieces leaf) = leaf.scalarChars := by
  cases leaf with
  | arr items => cases h
  | obj entries => cases h
  | str s => simp [literalPieces, contentAll, content, Json.scalarChars, Quoted.literal]
  | _ => exact List.append_nil _

theorem content_leaf {leaf : Json} (h : leaf.isLeaf = true) :
    contentAll (leafPieces marks path leaf) = leaf.lines := by
  have hlines : leaf.lines = leaf.scalarChars := by
    cases leaf with
    | arr items => cases h
    | obj entries => cases h
    | _ => rfl
  have helement : ∀ tag, contentAll [element tag (literalPieces leaf)] = leaf.scalarChars :=
    fun tag => by rw [contentAll, content, content_literal h]; exact List.append_nil _
  rw [leafPieces_eq, hlines]
  split
  · exact helement .found
  · unfold shadedPieces
    cases leafTag? leaf with
    | some tag => exact helement tag
    | none => exact content_literal h

theorem contentAll_append (pieces pieces' : List Markup) :
    contentAll (pieces ++ pieces') = contentAll pieces ++ contentAll pieces' := by
  rw [contentAll_eq, contentAll_eq, contentAll_eq, List.flatMap_append]

theorem content_joined (separator : String) (bodies : List (List Markup)) :
    contentAll (joined separator bodies) =
      separator.toList.intercalate (bodies.map contentAll) := by
  cases bodies with
  | nil => rfl
  | cons first others =>
    rw [joined, contentAll_append, List.map_cons]
    induction others generalizing first with
    | nil => simp [contentAll]
    | cons next others ih =>
      rw [List.flatMap_cons, List.map_cons, List.intercalate_cons_cons, contentAll_append, ← ih,
        contentAll, content]
      simp only [List.append_assoc]

theorem content_entryLine (key : String) (body : List Markup) :
    content (entryLine key body) = Quoted.literal key ++ [':', ' '] ++ contentAll body := by
  have hliteral : contentAll (literalPieces (.str key)) = Quoted.literal key := content_literal rfl
  have hkey : content (keyPiece key) = Quoted.literal key := hliteral
  rw [entryLine, content, contentAll, hkey, contentAll, content, List.append_assoc]
  rfl

theorem content_pieces {v : Json} {body : List Markup}
    (h : pieces marks depth path v = some body) : contentAll body = v.lines := by
  refine pieces_induction (P := fun _ v body => contentAll body = v.lines)
    ?leaf ?emptyArr ?emptyObj ?arr ?obj h
  case leaf => exact fun _ v hv => content_leaf hv
  case emptyArr => exact fun _ => rfl
  case emptyObj => exact fun _ => rfl
  case arr =>
    intro _ items bodies hne hbodies
    rw [Json.lines_arr hne, ← map_eq_of_forall₂ hbodies, arrayPieces, contentAll_append, contentAll,
      content_joined]
    rfl
  case obj =>
    intro _ entries lines hne hlines
    have hcontents : lines.map content =
        entries.map fun e => Quoted.literal e.1 ++ [':', ' '] ++ e.2.lines := by
      refine map_eq_of_forall₂ (hlines.imp ?_)
      rintro e line ⟨body, hbody, rfl⟩
      rw [content_entryLine, hbody]
    have hsingle : (lines.map ([·])).map contentAll = lines.map content := by
      rw [List.map_map]
      exact List.map_congr_left fun line _ => List.append_nil _
    rw [Json.lines_obj hne, ← hcontents, ← hsingle, objectPieces, contentAll_append, contentAll,
      content_joined]
    rfl

/-! ## Pages -/

theorem content_page (v : Json) : (page marks v).content =
    if v.levels ≤ greatestDepth then v.lines else v.compact.toList := by
  have hsome : (recordPieces marks v).isSome = true ↔ v.levels ≤ greatestDepth := isSome_pieces
  unfold page
  cases hbody : recordPieces marks v with
  | none =>
    rw [hbody] at hsome
    rw [if_neg fun h => Bool.false_ne_true (hsome.mpr h)]
    exact content_plainPage v
  | some body =>
    rw [hbody] at hsome
    rw [if_pos (hsome.mp rfl)]
    exact content_pieces hbody

theorem contentAll_ruled (blocks : List Markup) :
    contentAll (ruled blocks) = blocks.flatMap content := by
  induction blocks with
  | nil => rfl
  | cons block rest ih =>
    cases rest with
    | nil => rfl
    | cons next rest =>
      rw [ruled_cons_cons, contentAll, contentAll, ih, content, List.nil_append]
      rfl

theorem content_resultPage (records : List Json) : (resultPage marks records).content =
    if records.all (·.levels ≤ greatestDepth) then records.flatMap Json.lines
    else (Json.arr records).compact.toList := by
  have hsome : (records.mapM (recordPieces marks)).isSome = true ↔
      records.all (·.levels ≤ greatestDepth) = true := by
    rw [isSome_mapM, List.all_eq_true]
    exact forall₂_congr fun record _ => isSome_pieces.trans (decide_eq_true_iff).symm
  unfold resultPage
  cases hbodies : records.mapM (recordPieces marks) with
  | none =>
    rw [hbodies] at hsome
    rw [if_neg fun h => Bool.false_ne_true (hsome.mpr h)]
    exact content_plainPage _
  | some bodies =>
    rw [hbodies] at hsome
    rw [if_pos (hsome.mp rfl)]
    have hcontents : bodies.map contentAll = records.map Json.lines :=
      map_eq_of_forall₂ ((mapM_eq_some_iff.mp hbodies).imp fun _ _ hbody => content_pieces hbody)
    rw [content, contentAll_ruled, List.flatMap_map, List.flatMap_def, List.flatMap_def,
      ← hcontents]
    rfl

end Render

open Page Render

theorem textContent_renderValue (marks : MatchSet) (v : Json) : textContent (renderValue marks v) =
    if v.levels ≤ greatestDepth then String.ofList v.lines else v.compact := by
  have hbalanced : Balanced (renderValue marks v).toList (page marks v).content := by
    rw [renderValue, String.toList_ofList]
    exact (clean_page marks v).balanced
  rw [hbalanced.textContent_eq, content_page, apply_ite String.ofList, String.ofList_toList]

theorem textContent_renderResults (marks : MatchSet) (records : List Json) :
    textContent (renderResults marks records) =
      if records.all (·.levels ≤ greatestDepth) then String.ofList (records.flatMap Json.lines)
      else (Json.arr records).compact := by
  cases records with
  | nil => rfl
  | cons record rest =>
    have hbalanced : Balanced (renderResults marks (record :: rest)).toList
        (resultPage marks (record :: rest)).content := by
      rw [renderResults, List.isEmpty_cons, if_neg Bool.false_ne_true, String.toList_ofList]
      exact (clean_resultPage marks _).balanced
    rw [hbalanced.textContent_eq, content_resultPage, apply_ite String.ofList,
      String.ofList_toList]

/-- Whatever is highlighted, the page of a value and the page of some records have the same text
content: the plain layout of what is shown, or the compact text if a value in it is more than 256
levels down. Whether there is a plain layout does not depend on what is highlighted. -/
theorem highlighting_keeps_content (marks marks' : MatchSet) (v : Json) (records : List Json) :
    textContent (renderValue marks v) = textContent (renderValue marks' v) ∧
      textContent (renderResults marks records) = textContent (renderResults marks' records) ∧
      textContent (renderValue marks v) =
        (if v.levels ≤ greatestDepth then String.ofList v.lines else v.compact) ∧
      textContent (renderResults marks records) =
        (if records.all (·.levels ≤ greatestDepth) then String.ofList (records.flatMap Json.lines)
          else (Json.arr records).compact) ∧
      ∀ w, (recordPieces marks w).isSome = decide (w.levels ≤ greatestDepth) := by
  refine ⟨?_, ?_, textContent_renderValue marks v, textContent_renderResults marks records,
    fun w => ?_⟩
  · rw [textContent_renderValue, textContent_renderValue]
  · rw [textContent_renderResults, textContent_renderResults]
  · rw [Bool.eq_iff_iff, decide_eq_true_iff]
    exact isSome_pieces

end JsonInspect
