import JsonInspect.Proofs.Page.Balanced

/-! # Elements in the text of a page

An opening tag occurs in the HTML of clean pieces once for each element of its kind
(`Clean.countTag_html`): an occurrence starts with `<`, which neither the layout nor an escaped text
has, and no tag starts another one. -/

namespace JsonInspect

/-! ## Occurrences of a tag -/

namespace Page

def countTag (tag : List Char) : List Char → Nat
  | [] => 0
  | c :: rest => (tag.isPrefixOf (c :: rest)).toNat + countTag tag rest

def IsTag (word : List Char) : Prop :=
  ∃ inner, word = '<' :: inner ++ ['>'] ∧ '<' ∉ inner ∧ '>' ∉ inner

variable {tag word front : List Char}

/-- No occurrence of a tag starts where there is no `<`. -/
theorem countTag_append (htag : IsTag tag) (h : '<' ∉ front) (rest : List Char) :
    countTag tag (front ++ rest) = countTag tag rest := by
  obtain ⟨inner, rfl, -, -⟩ := htag
  induction front with
  | nil => rfl
  | cons c front ih =>
    rw [List.mem_cons, not_or] at h
    have hprefix : ('<' :: inner ++ ['>']).isPrefixOf (c :: (front ++ rest)) = false := by
      rw [List.cons_append, List.isPrefixOf, beq_false_of_ne h.1, Bool.false_and]
    show countTag _ (c :: (front ++ rest)) = _
    rw [countTag, hprefix, ih h.2]
    exact Nat.zero_add _

theorem IsTag.eq_of_prefix (htag : IsTag tag) (hword : IsTag word) (h : tag <+: word) :
    tag = word := by
  obtain ⟨inner, rfl, -, -⟩ := htag
  obtain ⟨inner', rfl, -, hgt⟩ := hword
  obtain ⟨rest, hrest⟩ := h
  have hinner : inner' ++ '>' :: [] = inner ++ '>' :: rest := by
    simpa using hrest.symm
  obtain ⟨rfl, -, -⟩ := (List.append_cons_inj_of_notMem hgt List.not_mem_nil).mp hinner
  rfl

/-- Where one tag stands no other one starts. -/
theorem IsTag.isPrefixOf_append (htag : IsTag tag) (hword : IsTag word) (rest : List Char) :
    tag.isPrefixOf (word ++ rest) = decide (word = tag) := by
  rw [Bool.eq_iff_iff, List.isPrefixOf_iff_prefix, decide_eq_true_iff]
  constructor
  · intro h
    rcases List.prefix_or_prefix_of_prefix h (List.prefix_append word rest) with h | h
    · exact (htag.eq_of_prefix hword h).symm
    · exact hword.eq_of_prefix htag h
  · rintro rfl
    exact List.prefix_append word rest

theorem countTag_word (htag : IsTag tag) (hword : IsTag word) (rest : List Char) :
    countTag tag (word ++ rest) = (decide (word = tag)).toNat + countTag tag rest := by
  have hprefix := htag.isPrefixOf_append hword rest
  obtain ⟨inner, rfl, hlt, -⟩ := hword
  have hmem : '<' ∉ inner ++ ['>'] := by
    simpa using hlt
  rw [List.cons_append, List.cons_append] at hprefix
  rw [List.cons_append, List.cons_append, countTag, hprefix, countTag_append htag hmem]

end Page

open Page

namespace Tag

theorem opening_eq (t : Tag) :
    t.opening = '<' :: (t.element.toList ++ ' ' ::
      ("class=\"".toList ++ t.styleClass.toList ++ ['"'])) ++ ['>'] := by
  simp [opening]

theorem closing_eq (t : Tag) : t.closing = '<' :: ('/' :: t.element.toList) ++ ['>'] := by
  simp [closing]

/-- No name of an element has a character that bounds or closes tags or ends names. -/
theorem not_mem_element (t : Tag) : ∀ c ∈ ['<', '>', ' ', '/'], c ∉ t.element.toList := by
  cases t <;> simp [element]

theorem not_mem_styleClass (t : Tag) : ∀ c ∈ ['<', '>', ' ', '/'], c ∉ t.styleClass.toList := by
  cases t <;> simp [styleClass]

theorem styleClass_injective {t u : Tag} (h : t.styleClass = u.styleClass) : t = u := by
  revert h
  cases t
  all_goals cases u
  all_goals simp [styleClass]

theorem isTag_opening (t : Tag) : IsTag t.opening := by
  have helement := t.not_mem_element
  have hclass := t.not_mem_styleClass
  exact ⟨_, t.opening_eq, by simp [helement, hclass], by simp [helement, hclass]⟩

theorem isTag_closing (t : Tag) : IsTag t.closing := by
  have helement := t.not_mem_element
  exact ⟨_, t.closing_eq, by simp [helement], by simp [helement]⟩

theorem isTag_rule : IsTag Markup.ruleChars :=
  ⟨"hr class=\"json-sep\"/".toList, by decide, by decide, by decide⟩

theorem opening_injective {t u : Tag} (h : t.opening = u.opening) : t = u := by
  have helement : ' ' ∉ t.element.toList := t.not_mem_element ' ' (by decide)
  have hclass : ' ' ∉ t.styleClass.toList := t.not_mem_styleClass ' ' (by decide)
  rw [opening_eq, opening_eq, List.append_cancel_right_eq, List.cons_inj_right,
    List.append_cons_inj_of_notMem helement (by simp [hclass])] at h
  refine styleClass_injective (String.toList_injective ?_)
  simpa using h.2.2

/-- Only closing tags and the rule have a slash. -/
theorem slash_not_mem_opening (t : Tag) : '/' ∉ t.opening := by
  have helement := t.not_mem_element
  have hclass := t.not_mem_styleClass
  rw [opening_eq]
  simp [helement, hclass]

theorem closing_ne_opening (t u : Tag) : u.closing ≠ t.opening := by
  intro h
  refine t.slash_not_mem_opening (h ▸ ?_)
  rw [closing_eq]
  simp

theorem rule_ne_opening (t : Tag) : Markup.ruleChars ≠ t.opening := by
  intro h
  exact t.slash_not_mem_opening (h ▸ by decide)

theorem countTag_opening (t u : Tag) (rest : List Char) :
    countTag t.opening (u.opening ++ rest) =
      (decide (u = t)).toNat + countTag t.opening rest := by
  rw [countTag_word t.isTag_opening u.isTag_opening]
  simp only [show u.opening = t.opening ↔ u = t from ⟨opening_injective, congrArg opening⟩]

theorem countTag_closing (t u : Tag) (rest : List Char) :
    countTag t.opening (u.closing ++ rest) = countTag t.opening rest := by
  rw [countTag_word t.isTag_opening u.isTag_closing, decide_eq_false (t.closing_ne_opening u)]
  exact Nat.zero_add _

theorem countTag_rule (t : Tag) (rest : List Char) :
    countTag t.opening (Markup.ruleChars ++ rest) = countTag t.opening rest := by
  rw [countTag_word t.isTag_opening isTag_rule, decide_eq_false t.rule_ne_opening]
  exact Nat.zero_add _

end Tag

/-! ## Elements of a tree -/

namespace Markup

mutual

/-- The children of each element of a kind, in the order of the page. -/
def elements (tag : Tag) : Markup → List (List Markup)
  | element t children => (if t = tag then [children] else []) ++ elementsAll tag children
  | _ => []

def elementsAll (tag : Tag) : List Markup → List (List Markup)
  | [] => []
  | piece :: rest => elements tag piece ++ elementsAll tag rest

end

variable {tag : Tag} {pieces : List Markup} {m : Markup}

theorem elementsAll_eq (tag : Tag) (pieces : List Markup) :
    elementsAll tag pieces = pieces.flatMap (elements tag) := by
  induction pieces with
  | nil => rfl
  | cons piece rest ih => rw [elementsAll, ih, List.flatMap_cons]

theorem elementsAll_append (tag : Tag) (pieces pieces' : List Markup) :
    elementsAll tag (pieces ++ pieces') = elementsAll tag pieces ++ elementsAll tag pieces' := by
  rw [elementsAll_eq, elementsAll_eq, elementsAll_eq, List.flatMap_append]

theorem lt_not_mem_escape (cs : List Char) : '<' ∉ escape cs := by
  intro h
  obtain ⟨c, -, h⟩ := List.mem_flatMap.mp h
  unfold escapeChar at h
  iterate 5
    split at h
    · exact absurd h (by decide)
  rename_i hlt _ _ _
  exact hlt (List.mem_singleton.mp h).symm

/-- Pieces that show their elements one by one show them together. -/
theorem countTag_flatMap {tag : Tag}
    (h : ∀ piece ∈ pieces, ∀ rest, countTag tag.opening (piece.html ++ rest) =
      (elements tag piece).length + countTag tag.opening rest) (rest : List Char) :
    countTag tag.opening (htmlAll pieces ++ rest) =
      (elementsAll tag pieces).length + countTag tag.opening rest := by
  induction pieces with
  | nil => exact (Nat.zero_add _).symm
  | cons piece others ih =>
    rw [List.forall_mem_cons] at h
    rw [htmlAll, List.append_assoc, h.1, ih h.2, elementsAll, List.length_append, Nat.add_assoc]

/-- The tag of an element occurs where such elements are, whatever follows. -/
theorem Clean.countTag_append (h : Clean m) (tag : Tag) (rest : List Char) :
    countTag tag.opening (m.html ++ rest) =
      (elements tag m).length + countTag tag.opening rest := by
  induction h generalizing rest with
  | @layout s hs =>
    have hlt : '<' ∉ s.toList := fun hmem => (hs '<' hmem).1 rfl
    exact (Page.countTag_append tag.isTag_opening hlt rest).trans (Nat.zero_add _).symm
  | text cs =>
    have hlt : '<' ∉ escape cs := lt_not_mem_escape cs
    exact (Page.countTag_append tag.isTag_opening hlt rest).trans (Nat.zero_add _).symm
  | rule => exact (tag.countTag_rule rest).trans (Nat.zero_add _).symm
  | @element t children _ ih =>
    have hself : (decide (t = tag)).toNat = (if t = tag then [children] else []).length := by
      by_cases ht : t = tag
      · rw [if_pos ht, decide_eq_true ht]
        rfl
      · rw [if_neg ht, decide_eq_false ht]
        rfl
    rw [html, List.append_assoc, List.append_assoc, Tag.countTag_opening, countTag_flatMap ih,
      Tag.countTag_closing, elements, List.length_append, hself, Nat.add_assoc]

/-- The tag of an element occurs in the HTML once for each such element. -/
theorem Clean.countTag_html (h : Clean m) (tag : Tag) :
    countTag tag.opening m.html = (elements tag m).length := by
  have hcount := h.countTag_append tag []
  rwa [List.append_nil] at hcount

/-- The HTML of an element stands in that of the tree which has it. -/
theorem Clean.infix_of_mem {children : List Markup} (h : Clean m)
    (hmem : children ∈ elements tag m) : (Markup.element tag children).html <:+: m.html := by
  induction h with
  | layout _ => cases hmem
  | text cs => cases hmem
  | rule => cases hmem
  | @element t inner _ ih =>
    rcases List.mem_append.mp hmem with hself | hinner
    · split at hself
      · rename_i ht
        rw [List.mem_singleton.mp hself, ht]
      · cases hself
    · rw [elementsAll_eq] at hinner
      obtain ⟨child, hchild, hmem⟩ := List.mem_flatMap.mp hinner
      have hhtml : child.html <:+: htmlAll inner := by
        rw [htmlAll_eq, List.flatMap_def]
        exact List.infix_of_mem_flatten (List.mem_map_of_mem hchild)
      exact (ih child hchild hmem).trans (hhtml.trans ⟨t.opening, t.closing, rfl⟩)

end Markup

end JsonInspect
