import JsonInspect.Text.Blank
import Mathlib.Data.List.DropRight
import Mathlib.Data.List.Infix

/-! # What trimming takes off

A text is what is left of it when it is trimmed, between the blanks at its ends
(`trimChars_between`), and what has no blanks at its ends is found in the one if and only if it is
found in the other (`infix_between_blanks_iff`). -/

namespace JsonInspect

variable {cs needle before after : List Char}

theorem trimChars_eq_rdropWhile (cs : List Char) :
    trimChars cs = (cs.dropWhile isBlank).rdropWhile isBlank := rfl

/-- A text is what is left when it is trimmed, between the blanks at its ends. -/
theorem trimChars_between (cs : List Char) : cs.takeWhile isBlank ++
    (trimChars cs ++ (cs.dropWhile isBlank).rtakeWhile isBlank) = cs := by
  rw [trimChars_eq_rdropWhile, List.rdropWhile_append_rtakeWhile, List.takeWhile_append_dropWhile]

/-- If anything is left when a text is trimmed, the blanks at its start are not at its end. -/
theorem rtakeWhile_dropWhile (h : trimChars cs ≠ []) :
    (cs.dropWhile isBlank).rtakeWhile isBlank = cs.rtakeWhile isBlank := by
  have hne : cs.dropWhile isBlank ≠ [] := fun hnil => h (by rw [trimChars, hnil]; rfl)
  have hsolid : ¬ ∀ c ∈ (cs.dropWhile isBlank).reverse, isBlank c = true := fun hall =>
    Bool.eq_false_iff.mp (List.head_dropWhile_not isBlank hne)
      (hall _ (List.mem_reverse.mpr (List.head_mem hne)))
  conv_rhs => rw [← List.takeWhile_append_dropWhile (p := isBlank) (l := cs)]
  rw [List.rtakeWhile, List.rtakeWhile, List.reverse_append, List.takeWhile_append, if_neg]
  exact fun hlen => hsolid (List.takeWhile_eq_self_iff.mp
    ((List.takeWhile_prefix isBlank).eq_of_length hlen))

/-- Of a character that is not blank nothing is taken off. -/
theorem count_trimChars {c : Char} (hc : isBlank c = false) (cs : List Char) :
    (trimChars cs).count c = cs.count c := by
  have hbefore : (cs.takeWhile isBlank).count c = 0 := List.count_eq_zero.mpr fun hm =>
    Bool.eq_false_iff.mp hc (List.mem_takeWhile_imp hm)
  have hafter : ((cs.dropWhile isBlank).rtakeWhile isBlank).count c = 0 :=
    List.count_eq_zero.mpr fun hm => Bool.eq_false_iff.mp hc (List.mem_rtakeWhile_imp hm)
  conv_rhs => rw [← trimChars_between cs, List.count_append, List.count_append, hbefore, hafter]
  omega

theorem isEmpty_trimChars (cs : List Char) : (trimChars cs).isEmpty = cs.all isBlank := by
  rw [trimChars_eq_rdropWhile, Bool.eq_iff_iff, List.isEmpty_iff, List.all_eq_true,
    List.rdropWhile_eq_nil_iff]
  constructor
  · intro h c hc
    rw [← List.takeWhile_append_dropWhile (p := isBlank) (l := cs), List.mem_append] at hc
    exact hc.elim List.mem_takeWhile_imp (h c)
  · intro h c hc
    exact h c ((List.dropWhile_suffix isBlank).subset hc)

theorem trim_of_isBlankText {s : String} (h : isBlankText s = true) : trim s = "" := by
  rw [isBlankText, ← isEmpty_trimChars, List.isEmpty_iff] at h
  rw [trim, h]

theorem trimChars_eq_self (hhead : ∀ c ∈ cs.head?, isBlank c = false)
    (hlast : ∀ c ∈ cs.getLast?, isBlank c = false) : trimChars cs = cs := by
  have hdrop : ∀ ds : List Char, (∀ c ∈ ds.head?, isBlank c = false) →
      ds.dropWhile isBlank = ds := by
    intro ds hds
    cases ds with
    | nil => rfl
    | cons c ds => rw [List.dropWhile_cons, hds c rfl]; rfl
  rw [trimChars, hdrop cs hhead, hdrop, List.reverse_reverse]
  rw [List.head?_reverse]
  exact hlast

theorem head?_trimChars (cs : List Char) : ∀ c ∈ (trimChars cs).head?, isBlank c = false := by
  intro c hc
  obtain ⟨rest, hrest⟩ := List.head?_eq_some_iff.mp hc
  obtain ⟨back, hback⟩ : trimChars cs <+: cs.dropWhile isBlank :=
    List.rdropWhile_prefix isBlank _
  have hne : cs.dropWhile isBlank ≠ [] := by
    rw [← hback, hrest]
    exact List.cons_ne_nil _ _
  have hhead := List.head_dropWhile_not isBlank hne
  simp only [← hback, hrest, List.cons_append, List.head_cons] at hhead
  exact hhead

theorem getLast?_trimChars (cs : List Char) :
    ∀ c ∈ (trimChars cs).getLast?, isBlank c = false := by
  intro c hc
  have hne : trimChars cs ≠ [] := by
    intro hnil
    rw [hnil] at hc
    cases hc
  have hlast := List.rdropWhile_last_not isBlank (cs.dropWhile isBlank) hne
  rw [List.getLast?_eq_getLast_of_ne_nil hne] at hc
  obtain rfl := Option.some.inj hc
  exact Bool.eq_false_iff.mpr hlast

/-- Nothing is left to trim. -/
theorem trim_trim (s : String) : trim (trim s) = trim s := by
  rw [trim, trim, String.toList_ofList,
    trimChars_eq_self (head?_trimChars s.toList) (getLast?_trimChars s.toList)]

theorem isBlankText_trim (s : String) : isBlankText (trim s) = isBlankText s := by
  have h : trimChars (trim s).toList = trimChars s.toList := by
    rw [← String.ofList_inj, ← trim, trim_trim, trim]
  rw [isBlankText, ← isEmpty_trimChars, h, isEmpty_trimChars, isBlankText]

theorem infix_trim (s : String) : (trim s).toList <:+: s.toList := by
  rw [trim, String.toList_ofList]
  exact ⟨_, _, by rw [List.append_assoc, trimChars_between]⟩

/-! ## Finding a text between blanks -/

/-- What does not start with a blank is not found among the blanks before a text. -/
theorem infix_blanks_append_iff (hne : needle ≠ []) (hhead : ∀ c ∈ needle.head?, isBlank c = false)
    (hbefore : ∀ c ∈ before, isBlank c = true) : needle <:+: before ++ cs ↔ needle <:+: cs := by
  induction before with
  | nil => rw [List.nil_append]
  | cons c rest ih =>
    rw [List.forall_mem_cons] at hbefore
    rw [List.cons_append, List.infix_cons_iff, ih hbefore.2, or_iff_right]
    obtain ⟨d, needle, rfl⟩ := List.exists_cons_of_ne_nil hne
    intro hstarts
    have hsolid := hhead d rfl
    rw [(List.cons_prefix_cons.mp hstarts).1, hbefore.1] at hsolid
    cases hsolid

/-- A text with no blanks at its ends is found between blanks if and only if it is found in what
stands there. -/
theorem infix_between_blanks_iff (hne : needle ≠ []) (hhead : ∀ c ∈ needle.head?, isBlank c = false)
    (hlast : ∀ c ∈ needle.getLast?, isBlank c = false) (hbefore : ∀ c ∈ before, isBlank c = true)
    (hafter : ∀ c ∈ after, isBlank c = true) :
    needle <:+: before ++ (cs ++ after) ↔ needle <:+: cs := by
  have hreverse :
      needle.reverse <:+: after.reverse ++ cs.reverse ↔ needle.reverse <:+: cs.reverse :=
    infix_blanks_append_iff (mt List.reverse_eq_nil_iff.mp hne) (by rwa [List.head?_reverse])
      fun c hc => hafter c (List.mem_reverse.mp hc)
  rw [← List.reverse_append, List.reverse_infix, List.reverse_infix] at hreverse
  rw [infix_blanks_append_iff hne hhead hbefore, hreverse]

end JsonInspect
