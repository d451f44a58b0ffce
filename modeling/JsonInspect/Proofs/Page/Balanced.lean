import JsonInspect.Proofs.Page.Pieces

/-! # Pages are balanced

The HTML of a page is made of eight elements, properly nested and closed, of rules, and of
characters and entities that stand for a text (`Balanced`). A text is escaped when it is written
(`balanced_escape`) and the layout around it has no character that means something in HTML
(`Markup.Clean`), so no value, no key and no match set can give anything else. -/

namespace JsonInspect

/-! ## The grammar of a page -/

namespace Page

def elementTags : List (String × String) :=
  [("<pre class=\"json-pre\">", "</pre>"),
    ("<div class=\"json-obj\">", "</div>"),
    ("<div class=\"json-line\">", "</div>"),
    ("<span class=\"json-key\">", "</span>"),
    ("<span class=\"json-match\">", "</span>"),
    ("<span class=\"json-num\">", "</span>"),
    ("<span class=\"json-bool\">", "</span>"),
    ("<span class=\"json-null\">", "</span>")]

def ruleTag : String := "<hr class=\"json-sep\"/>"

def entities : List (String × Char) :=
  [("&amp;", '&'), ("&lt;", '<'), ("&gt;", '>'), ("&quot;", '"'), ("&#39;", '\'')]

/-- A character that neither bounds a tag nor starts an entity. -/
def IsPlain (c : Char) : Prop := c ≠ '<' ∧ c ≠ '>' ∧ c ≠ '&'

instance : DecidablePred IsPlain := fun _ => inferInstanceAs (Decidable (_ ∧ _))

theorem isPlain_of_all {cs : List Char} (h : cs.all (decide <| IsPlain ·) = true) :
    ∀ c ∈ cs, IsPlain c := by
  simpa using h

/-- Some HTML has nothing but the elements above, nested and closed, and rules around plain
characters and entities, which stand for a text. -/
inductive Balanced : List Char → List Char → Prop
  | nil : Balanced [] []
  | plain {c : Char} {html shown : List Char} (hc : IsPlain c) (hrest : Balanced html shown) :
      Balanced (c :: html) (c :: shown)
  | entity {name : String} {c : Char} {html shown : List Char} (hname : (name, c) ∈ entities)
      (hrest : Balanced html shown) : Balanced (name.toList ++ html) (c :: shown)
  | rule {html shown : List Char} (hrest : Balanced html shown) :
      Balanced (ruleTag.toList ++ html) shown
  | element {opening closing : String} {inner innerShown html shown : List Char}
      (htags : (opening, closing) ∈ elementTags) (hinner : Balanced inner innerShown)
      (hrest : Balanced html shown) :
      Balanced (opening.toList ++ inner ++ closing.toList ++ html) (innerShown ++ shown)

namespace Balanced

variable {html shown html' shown' : List Char}

theorem append (h : Balanced html shown) (h' : Balanced html' shown') :
    Balanced (html ++ html') (shown ++ shown') := by
  induction h with
  | nil => exact h'
  | plain hc _ ih => exact .plain hc ih
  | entity hname _ ih =>
    rw [List.append_assoc]
    exact .entity hname ih
  | rule _ ih =>
    rw [List.append_assoc]
    exact .rule ih
  | element htags hinner _ _ ih =>
    rw [List.append_assoc, List.append_assoc _ _ shown']
    exact .element htags hinner ih

theorem of_plain {cs : List Char} (h : ∀ c ∈ cs, IsPlain c) : Balanced cs cs := by
  induction cs with
  | nil => exact .nil
  | cons c rest ih =>
    rw [List.forall_mem_cons] at h
    exact .plain h.1 (ih h.2)

theorem flatMap {α : Type} {write read : α → List Char} {pieces : List α}
    (h : ∀ piece ∈ pieces, Balanced (write piece) (read piece)) :
    Balanced (pieces.flatMap write) (pieces.flatMap read) := by
  induction pieces with
  | nil => exact .nil
  | cons piece rest ih =>
    rw [List.forall_mem_cons] at h
    exact h.1.append (ih h.2)

end Balanced

end Page

open Page

/-! ## Texts and trees -/

namespace Markup

theorem balanced_escapeChar (c : Char) : Balanced (escapeChar c) [c] := by
  have hentity : ∀ {name : String}, (name, c) ∈ entities → Balanced name.toList [c] := by
    intro name hname
    have h : Balanced (name.toList ++ []) [c] := .entity hname .nil
    rwa [List.append_nil] at h
  unfold escapeChar
  iterate 5
    split
    · subst c
      exact hentity (by decide)
  rename_i hamp hlt hgt _ _
  exact .plain ⟨hlt, hgt, hamp⟩ .nil

/-- Escaped characters stand for themselves. -/
theorem balanced_escape (cs : List Char) : Balanced (escape cs) cs := by
  have h : Balanced (cs.flatMap escapeChar) (cs.flatMap ([·])) :=
    .flatMap fun c _ => balanced_escapeChar c
  rwa [List.flatMap_singleton'] at h

/-- The layout of the pieces is plain. -/
inductive Clean : Markup → Prop
  | layout {s : String} (h : ∀ c ∈ s.toList, IsPlain c) : Clean (layout s)
  | text (cs : List Char) : Clean (text cs)
  | rule : Clean rule
  | element (tag : Tag) {children : List Markup} (h : ∀ child ∈ children, Clean child) :
      Clean (element tag children)

theorem htmlAll_eq (pieces : List Markup) : htmlAll pieces = pieces.flatMap html := by
  induction pieces with
  | nil => rfl
  | cons piece rest ih => rw [htmlAll, ih, List.flatMap_cons]

theorem contentAll_eq (pieces : List Markup) : contentAll pieces = pieces.flatMap content := by
  induction pieces with
  | nil => rfl
  | cons piece rest ih => rw [contentAll, ih, List.flatMap_cons]

theorem tags_mem (t : Tag) :
    ∃ opening closing, (opening, closing) ∈ elementTags ∧ t.opening = opening.toList ∧
      t.closing = closing.toList := by
  cases t
  all_goals exact ⟨_, _, by decide, rfl, rfl⟩

/-- The HTML of clean pieces is balanced and shows their content. -/
theorem Clean.balanced {m : Markup} (h : Clean m) : Balanced m.html m.content := by
  induction h with
  | layout hs => exact .of_plain hs
  | text cs => exact balanced_escape cs
  | rule => exact .rule .nil
  | @element tag children _ ih =>
    obtain ⟨opening, closing, htags, ho, hc⟩ := tags_mem tag
    have hinner : Balanced (htmlAll children) (contentAll children) := by
      rw [htmlAll_eq, contentAll_eq]
      exact .flatMap ih
    have helement := Balanced.element htags hinner .nil
    rwa [List.append_nil, List.append_nil, ← ho, ← hc] at helement

end Markup

/-! ## Pages -/

namespace Render

open Markup

theorem clean_literal (leaf : Json) : ∀ piece ∈ literalPieces leaf, Clean piece := by
  cases leaf with
  | str s =>
    refine List.forall_mem_cons.mpr ⟨.layout (isPlain_of_all (by decide)),
      List.forall_mem_cons.mpr ⟨.text _, ?_⟩⟩
    exact List.forall_mem_singleton.mpr (.layout (isPlain_of_all (by decide)))
  | _ => exact List.forall_mem_singleton.mpr (.text _)

theorem clean_leaf (marks : MatchSet) (path : Option Path) (leaf : Json) :
    ∀ piece ∈ leafPieces marks path leaf, Clean piece := by
  have hliteral : ∀ tag, ∀ piece ∈ [element tag (literalPieces leaf)], Clean piece :=
    fun tag => List.forall_mem_singleton.mpr (.element tag (clean_literal leaf))
  rw [leafPieces_eq]
  split
  · exact hliteral .found
  · unfold shadedPieces
    cases leafTag? leaf with
    | some tag => exact hliteral tag
    | none => exact clean_literal leaf

theorem clean_joined {separator : String} {bodies : List (List Markup)}
    (hs : ∀ c ∈ separator.toList, IsPlain c) (h : ∀ body ∈ bodies, ∀ piece ∈ body, Clean piece) :
    ∀ piece ∈ joined separator bodies, Clean piece := by
  cases bodies with
  | nil =>
    intro _ hp
    cases hp
  | cons first others =>
    rw [List.forall_mem_cons] at h
    intro piece hp
    rcases List.mem_append.mp hp with hp | hp
    · exact h.1 piece hp
    · obtain ⟨body, hb, hp⟩ := List.mem_flatMap.mp hp
      rcases List.mem_cons.mp hp with rfl | hp
      · exact .layout hs
      · exact h.2 body hb piece hp

/-- Clean pieces between two brackets. -/
theorem clean_bracketed {opening closing : String} {body : List Markup}
    (ho : ∀ c ∈ opening.toList, IsPlain c) (hc : ∀ c ∈ closing.toList, IsPlain c)
    (h : ∀ piece ∈ body, Clean piece) :
    ∀ piece ∈ layout opening :: body ++ [layout closing], Clean piece :=
  List.forall_mem_append.mpr
    ⟨List.forall_mem_cons.mpr ⟨.layout ho, h⟩, List.forall_mem_singleton.mpr (.layout hc)⟩

theorem clean_line {key : String} {body : List Markup} (h : ∀ piece ∈ body, Clean piece) :
    Clean (entryLine key body) :=
  .element .line (List.forall_mem_cons.mpr ⟨.element .key (clean_literal (.str key)),
    List.forall_mem_cons.mpr ⟨.layout (isPlain_of_all (by decide)), h⟩⟩)

theorem clean_pieces {marks : MatchSet} {depth : Nat} {path : Option Path} {v : Json}
    {body : List Markup} (h : pieces marks depth path v = some body) :
    ∀ piece ∈ body, Clean piece := by
  refine pieces_induction (P := fun _ _ body => ∀ piece ∈ body, Clean piece)
    ?leaf ?emptyArr ?emptyObj ?arr ?obj h
  case leaf => exact fun path v _ => clean_leaf marks path v
  case emptyArr =>
    exact fun _ => List.forall_mem_singleton.mpr (.layout (isPlain_of_all (by decide)))
  case emptyObj =>
    exact fun _ => List.forall_mem_singleton.mpr (.layout (isPlain_of_all (by decide)))
  case arr =>
    intro _ items bodies _ hbodies
    refine clean_bracketed (isPlain_of_all (by decide)) (isPlain_of_all (by decide))
      (clean_joined (isPlain_of_all (by decide)) fun body hb => ?_)
    obtain ⟨item, -, hclean⟩ := exists_of_forall₂ hbodies body hb
    exact hclean
  case obj =>
    intro _ entries lines _ hlines
    refine clean_bracketed (isPlain_of_all (by decide)) (isPlain_of_all (by decide))
      (clean_joined (isPlain_of_all (by decide)) ?_)
    refine List.forall_mem_map.mpr fun line hl => List.forall_mem_singleton.mpr ?_
    obtain ⟨e, -, body, hclean, rfl⟩ := exists_of_forall₂ hlines line hl
    exact clean_line hclean

theorem content_plainPage (v : Json) : (plainPage v).content = v.compact.toList := by
  rw [Json.compact, String.toList_ofList]
  exact List.append_nil _

theorem clean_plainPage (v : Json) : Clean (plainPage v) :=
  .element .page (List.forall_mem_singleton.mpr (.text _))

theorem clean_page (marks : MatchSet) (v : Json) : Clean (page marks v) := by
  unfold page
  cases hbody : recordPieces marks v with
  | some body => exact .element .page (clean_pieces hbody)
  | none => exact clean_plainPage v

theorem clean_ruled {blocks : List Markup} (h : ∀ block ∈ blocks, Clean block) :
    ∀ piece ∈ ruled blocks, Clean piece := by
  induction blocks with
  | nil => exact h
  | cons block rest ih =>
    cases rest with
    | nil => exact h
    | cons next rest =>
      rw [List.forall_mem_cons] at h
      exact List.forall_mem_cons.mpr ⟨h.1, List.forall_mem_cons.mpr ⟨.rule, ih h.2⟩⟩

theorem clean_resultPage (marks : MatchSet) (records : List Json) :
    Clean (resultPage marks records) := by
  unfold resultPage
  cases hbodies : records.mapM (recordPieces marks) with
  | none => exact clean_plainPage _
  | some bodies =>
    refine .element .page (clean_ruled (List.forall_mem_map.mpr fun body hb => ?_))
    obtain ⟨record, -, hbody⟩ := exists_of_forall₂ (mapM_eq_some_iff.mp hbodies) body hb
    exact .element .record (clean_pieces hbody)

end Render

/-- Whatever is rendered, with whatever paths to highlight, the page is balanced and shows its
content; so is the plain text that it falls back to for what is too deep, which shows the compact
text. -/
theorem rendered_balanced (marks : MatchSet) (v : Json) (records : List Json) :
    Balanced (renderValue marks v).toList (Render.page marks v).content ∧
      Balanced (renderResults marks records).toList
        (if records.isEmpty then [] else (Render.resultPage marks records).content) ∧
      Balanced (Render.plainPage v).html v.compact.toList := by
  refine ⟨?_, ?_, ?_⟩
  · rw [renderValue, String.toList_ofList]
    exact (Render.clean_page marks v).balanced
  · unfold renderResults
    split
    · exact .nil
    · rw [String.toList_ofList]
      exact (Render.clean_resultPage marks records).balanced
  · rw [← Render.content_plainPage]
    exact (Render.clean_plainPage v).balanced

end JsonInspect
