import JsonInspect.Proofs.Page.Highlights

/-! # The page of search results

Records that are not too deep have a block each, in their order and with rules between the blocks
(`resultPage_blocks`). In the block of a record the scalar to which the searched path leads is
highlighted and nothing else (`highlightedBlock`). -/

namespace JsonInspect

open Page

namespace Render

open Markup

variable {marks : MatchSet} {key : Path} {record : Json} {records : List Json}
  {body : List Markup}

/-! ## Blocks and rules -/

theorem htmlAll_ruled (blocks : List Markup) :
    htmlAll (ruled blocks) = List.intercalate ruleChars (blocks.map html) := by
  induction blocks with
  | nil => rfl
  | cons block rest ih =>
    cases rest with
    | nil => rfl
    | cons next rest =>
      rw [ruled_cons_cons, htmlAll, htmlAll, ih]
      rfl

theorem elementsAll_ruled (tag : Tag) (blocks : List Markup) :
    elementsAll tag (ruled blocks) = blocks.flatMap (elements tag) := by
  induction blocks with
  | nil => rfl
  | cons block rest ih =>
    cases rest with
    | nil => exact elementsAll_eq tag [block]
    | cons next rest =>
      rw [ruled_cons_cons, elementsAll, elementsAll, ih, List.flatMap_cons]
      rfl

/-- Records that are not too deep have their blocks on the page. -/
theorem resultPage_blocks (h : ∀ record ∈ records, record.depth ≤ greatestDepth) :
    ∃ bodies, List.Forall₂ (fun record body => recordPieces marks record = some body)
        records bodies ∧
      resultPage marks records = element .page (ruled (bodies.map (element .record))) := by
  obtain ⟨bodies, hbodies⟩ := exists_forall₂
    (R := fun record body => recordPieces marks record = some body)
    fun record hr => pieces_exists (h record hr)
  refine ⟨bodies, hbodies, ?_⟩
  rw [resultPage, mapM_eq_some_iff.mpr hbodies]

/-! ## One block -/

/-- The block of a record holds what the record looks like, and in it the scalar at a path is
highlighted and nothing else. -/
structure HighlightedBlock (marks : MatchSet) (key : Path) (record : Json) (block : List Char) :
    Prop where
  drawn : ∃ body, recordPieces marks record = some body ∧
    block = "<div class=\"json-obj\">".toList ++ htmlAll body ++ "</div>".toList
  resolved : ∃ field, record.resolve key = some field
  scalar : ∀ field, record.resolve key = some field → field.isContainer = false →
    countTag "<span class=\"json-match\">".toList block = 1 ∧
      ∃ before literal after,
        block = before ++ "<span class=\"json-match\">".toList ++ literal ++ "</span>".toList ++
          after ∧
        Balanced literal field.scalarChars ∧ '<' ∉ literal
  container : ∀ field, record.resolve key = some field → field.isContainer = true →
    countTag "<span class=\"json-match\">".toList block = 0

theorem opening_record : Tag.record.opening = "<div class=\"json-obj\">".toList := rfl

theorem opening_found : Tag.found.opening = "<span class=\"json-match\">".toList := rfl

theorem reached_root (hm : Marks marks key) (v : Json) :
    reached key (some ⟨[]⟩) v = v.resolve key := by
  rw [Json.resolve, hm.nonempty]
  rfl

/-- What is highlighted in a record is the literal of the scalar at the searched path. -/
theorem found_record (hm : Marks marks key) (hr : record.wellFormed = true)
    (hbody : recordPieces marks record = some body) :
    elements .found (element .record body) = scalarLiteral (record.resolve key) := by
  rw [elements, found_pieces hm hr hbody, reached_root hm]
  rfl

theorem clean_block (hbody : recordPieces marks record = some body) :
    Clean (element .record body) :=
  .element .record (clean_pieces hbody)

theorem lt_not_mem_literal (leaf : Json) : '<' ∉ htmlAll (literalPieces leaf) := by
  cases leaf with
  | str s => simp [literalPieces, htmlAll, html, lt_not_mem_escape]
  | _ => simp [literalPieces, htmlAll, html, lt_not_mem_escape]

/-- A literal shows the JSON text of its scalar. -/
theorem balanced_literal {leaf : Json} (h : leaf.isContainer = false) :
    Balanced (htmlAll (literalPieces leaf)) leaf.scalarChars := by
  have hcontent : (literalPieces leaf).flatMap content = leaf.scalarChars := by
    cases leaf with
    | arr items => cases h
    | obj entries => cases h
    | str s => simp [literalPieces, content, Json.scalarChars, Quoted.literal]
    | _ => exact List.append_nil _
  rw [htmlAll_eq, ← hcontent]
  exact .flatMap fun piece hp => (clean_literal leaf piece hp).balanced

theorem highlightedBlock (hm : Marks marks key) (hr : record.wellFormed = true)
    (hfield : ∃ field, record.resolve key = some field)
    (hbody : recordPieces marks record = some body) :
    HighlightedBlock marks key record (element .record body).html := by
  have hcount : countTag "<span class=\"json-match\">".toList (element .record body).html =
      (scalarLiteral (record.resolve key)).length := by
    rw [← opening_found, (clean_block hbody).countTag_html, found_record hm hr hbody]
  refine ⟨⟨body, hbody, rfl⟩, hfield, ?_, ?_⟩
  · intro field hf hs
    have hliteral : scalarLiteral (record.resolve key) = [literalPieces field] := by
      rw [hf, scalarLiteral, hs]
      rfl
    have hmem : literalPieces field ∈ elements .found (element .record body) := by
      rw [found_record hm hr hbody, hliteral]
      exact List.mem_singleton_self _
    have hspan : (element .found (literalPieces field)).html =
        "<span class=\"json-match\">".toList ++ htmlAll (literalPieces field) ++
          "</span>".toList := rfl
    obtain ⟨before, after, hblock⟩ := (clean_block hbody).infix_of_mem hmem
    refine ⟨by rw [hcount, hliteral]; rfl, before, htmlAll (literalPieces field), after, ?_,
      balanced_literal hs, lt_not_mem_literal field⟩
    rw [← hblock, hspan]
    simp only [List.append_assoc]
  · intro field hf hc
    rw [hcount, hf, scalarLiteral, hc]
    rfl

/-! ## The whole page -/

def hasScalar (key : Path) (record : Json) : Bool :=
  match record.resolve key with
  | some field => !field.isContainer
  | none => false

theorem length_scalarLiterals (key : Path) (records : List Json) :
    (records.flatMap fun record => scalarLiteral (record.resolve key)).length =
      records.countP (hasScalar key) := by
  induction records with
  | nil => rfl
  | cons record rest ih =>
    have hrecord : (scalarLiteral (record.resolve key)).length = (hasScalar key record).toNat := by
      unfold hasScalar
      cases record.resolve key with
      | none => rfl
      | some field =>
        dsimp only [scalarLiteral]
        cases field.isContainer <;> rfl
    rw [List.flatMap_cons, List.length_append, hrecord, ih, List.countP_cons, Nat.add_comm]
    cases hasScalar key record <;> rfl

/-- The page of some records is made of their blocks, each highlighted at the same path, and has no
highlight and no block but those. -/
structure HighlightedPage (marks : MatchSet) (key : Path) (records : List Json) (html : List Char) :
    Prop where
  blocks : ∃ blocks, List.Forall₂ (HighlightedBlock marks key) records blocks ∧
    html = "<pre class=\"json-pre\">".toList ++
      List.intercalate "<hr class=\"json-sep\"/>".toList blocks ++ "</pre>".toList
  count_records : countTag "<div class=\"json-obj\">".toList html = records.length
  count_found : countTag "<span class=\"json-match\">".toList html =
    records.countP (hasScalar key)
  not_plain : html ≠ (plainPage (.arr records)).html

theorem highlightedPage (hm : Marks marks key) (hne : records ≠ [])
    (hr : ∀ record ∈ records, record.wellFormed = true ∧ record.depth ≤ greatestDepth ∧
      ∃ field, record.resolve key = some field) :
    HighlightedPage marks key records (resultPage marks records).html := by
  obtain ⟨bodies, hbodies, hpage⟩ : ∃ bodies, _ ∧ resultPage marks records = _ :=
    resultPage_blocks fun record h => (hr record h).2.1
  have hblocks : ∀ tag, elements tag (resultPage marks records) =
      (if Tag.page = tag then [ruled (bodies.map (element .record))] else []) ++
        bodies.flatMap fun body => elements tag (element .record body) := by
    intro tag
    rw [hpage, elements, elementsAll_ruled, List.flatMap_map]
  have hrecords : countTag "<div class=\"json-obj\">".toList (resultPage marks records).html =
      records.length := by
    have hone : ∀ body ∈ bodies, elements .record (element .record body) = [body] := by
      intro body hb
      obtain ⟨record, -, hbody⟩ := exists_of_forall₂ hbodies body hb
      rw [elements, if_pos rfl, record_pieces hbody]
      rfl
    have hflat : (bodies.flatMap fun body => elements .record (element .record body)) = bodies :=
      (List.flatMap_congr hone).trans (List.flatMap_singleton' bodies)
    rw [← opening_record, (clean_resultPage marks records).countTag_html, hblocks, hflat]
    exact hbodies.length_eq.symm
  refine ⟨?_, hrecords, ?_, ?_⟩
  · refine ⟨bodies.map fun body => (element .record body).html, ?_, ?_⟩
    · rw [List.forall₂_map_right_iff]
      refine forall₂_imp_of_mem hbodies fun record h body hbody => ?_
      obtain ⟨hw, -, hfield⟩ := hr record h
      exact highlightedBlock hm hw hfield hbody
    · rw [hpage, html, htmlAll_ruled, List.map_map]
      rfl
  · have hfound : List.Forall₂ (fun record body => elements .found (element .record body) =
        scalarLiteral (record.resolve key)) records bodies :=
      forall₂_imp_of_mem hbodies fun record h body hbody => found_record hm (hr record h).1 hbody
    rw [← opening_found, (clean_resultPage marks records).countTag_html, hblocks,
      flatMap_eq_of_forall₂ hfound]
    exact length_scalarLiterals key records
  · intro hplain
    rw [hplain, ← opening_record, (clean_plainPage _).countTag_html] at hrecords
    exact hne (List.length_eq_zero_iff.mp hrecords.symm)

end Render

end JsonInspect
