import JsonInspect.Predicate
import JsonInspect.Proofs.Text.Dotted
import JsonInspect.Proofs.Text.Search
import JsonInspect.Proofs.Text.Trim

/-! # Reading predicates

A text is split at the first operator in the order of priority that occurs anywhere in it
(`breakAtOperator?_eq_some_iff`), and the texts on both sides, trimmed, are the key and the operand
of the predicate (`parsed_as_split`). The place of an operator matters only among the occurrences of
that operator. -/

namespace JsonInspect

namespace Operator

variable {op : Operator} {text : String}

def OccursIn (op : Operator) (text : String) : Prop :=
  ∃ before after, text = before ++ op.symbol ++ after

/-- The characters that symbols are made of, but for the `!`, which never stands alone. -/
def marks : List Char := ['>', '<', ':', '=']

theorem eq_append_iff {before symbol after : String} : text = before ++ symbol ++ after ↔
    text.toList = before.toList ++ (symbol.toList ++ after.toList) := by
  rw [← String.toList_inj, String.toList_append, String.toList_append, List.append_assoc]

theorem occursIn_iff_isInfix : op.OccursIn text ↔ op.symbol.toList <:+: text.toList := by
  constructor
  · rintro ⟨before, after, h⟩
    exact ⟨before.toList, after.toList, by rw [eq_append_iff.mp h, List.append_assoc]⟩
  · rintro ⟨before, after, h⟩
    refine ⟨String.ofList before, String.ofList after, eq_append_iff.mpr ?_⟩
    rw [String.toList_ofList, String.toList_ofList, ← h, List.append_assoc]

theorem mem_priority (op : Operator) : op ∈ priority := by
  cases op <;> decide

/-- Each symbol has a mark, and each mark is a symbol. -/
theorem none_occursIn_iff :
    (∀ op : Operator, ¬ op.OccursIn text) ↔ ∀ c ∈ text.toList, c ∉ marks := by
  simp only [occursIn_iff_isInfix]
  constructor
  · intro h c hc hmark
    obtain ⟨op, hop⟩ : ∃ op : Operator, op.symbol.toList = [c] := by
      simp only [marks, List.mem_cons, List.not_mem_nil, or_false] at hmark
      rcases hmark with rfl | rfl | rfl | rfl
      · exact ⟨greater, rfl⟩
      · exact ⟨less, rfl⟩
      · exact ⟨contains, rfl⟩
      · exact ⟨assigned, rfl⟩
    exact h op (by rw [hop]; exact (List.singleton_infix_iff c _).mpr hc)
  · intro h op hop
    have hsymbol : op.symbol.toList.any marks.contains = true := by
      cases op <;> decide
    obtain ⟨c, hc, hmark⟩ := List.any_eq_true.mp hsymbol
    exact h c (hop.subset hc) (List.contains_iff_mem.mp hmark)

/-- The operators of two characters come before all others. -/
theorem mem_takeWhile_priority {op' : Operator} (h : op.symbol.length = 1)
    (h' : op'.symbol.length = 2) : op' ∈ priority.takeWhile (· ≠ op) := by
  revert h h'
  cases op <;> cases op' <;> decide

end Operator

namespace Predicate

variable {ops : List Operator} {op : Operator} {cs before after : List Char}

/-! ## Splitting a text -/

theorem breakAtOperator?_eq_none_iff :
    breakAtOperator? cs ops = none ↔ ∀ op ∈ ops, ¬ op.symbol.toList <:+: cs := by
  induction ops with
  | nil => simp [breakAtOperator?]
  | cons op rest ih =>
    rw [List.forall_mem_cons, ← ih, ← breakAt?_eq_none_iff, breakAtOperator?]
    cases breakAt? op.symbol.toList cs <;> simp

/-- The operator that is found is the first of the list that occurs in the text. -/
theorem breakAtOperator?_eq_some_iff : breakAtOperator? cs ops = some (op, before, after) ↔
    op ∈ ops ∧ (∀ op' ∈ ops.takeWhile (· ≠ op), ¬ op'.symbol.toList <:+: cs) ∧
      Leftmost op.symbol.toList cs before after := by
  induction ops with
  | nil => simp [breakAtOperator?]
  | cons first rest ih =>
    rw [breakAtOperator?]
    by_cases hfirst : first = op
    · -- Nothing comes before the first operator, so it only has to occur.
      subst hfirst
      rw [← breakAt?_eq_some_iff]
      cases hbreak : breakAt? first.symbol.toList cs with
      | some parts =>
        obtain ⟨left, right⟩ := parts
        simp
      | none =>
        have habsent : ∀ before after, ¬ Leftmost first.symbol.toList cs before after :=
          fun _ _ h => breakAt?_eq_none_iff.mp hbreak h.isInfix
        simp [ih, habsent]
    · -- Another first operator must not occur, and then the rest of the list decides.
      rw [List.takeWhile_cons_of_pos (by simpa using hfirst), List.forall_mem_cons,
        ← breakAt?_eq_none_iff]
      cases breakAt? first.symbol.toList cs with
      | some parts => simp [hfirst]
      | none => simp [ih, Ne.symm hfirst]

/-- The operator of a text and the texts before and after it: the first operator in the order of
priority that occurs in the text, at its leftmost occurrence. -/
structure Split (text : String) (op : Operator) (before after : String) : Prop where
  first : ∀ op' ∈ Operator.priority.takeWhile (· ≠ op), ¬ op'.OccursIn text
  eq_append : text = before ++ op.symbol ++ after
  leftmost : ∀ before' after', text = before' ++ op.symbol ++ after' →
    before.length ≤ before'.length

variable {text before after : String}

theorem split_iff : Split text op before after ↔
    breakAtOperator? text.toList Operator.priority = some (op, before.toList, after.toList) := by
  rw [breakAtOperator?_eq_some_iff]
  constructor
  · intro h
    refine ⟨op.mem_priority,
      fun op' hop' => mt Operator.occursIn_iff_isInfix.mpr (h.first op' hop'),
      Operator.eq_append_iff.mp h.eq_append, fun before' after' heq => ?_⟩
    have hlength := h.leftmost (String.ofList before') (String.ofList after')
      (Operator.eq_append_iff.mpr (by rwa [String.toList_ofList, String.toList_ofList]))
    rwa [String.length_ofList, ← String.length_toList] at hlength
  · rintro ⟨-, hfirst, hleftmost⟩
    refine ⟨fun op' hop' => mt Operator.occursIn_iff_isInfix.mp (hfirst op' hop'),
      Operator.eq_append_iff.mpr hleftmost.eq_append, fun before' after' heq => ?_⟩
    have hlength := hleftmost.le_length _ _ (Operator.eq_append_iff.mp heq)
    rwa [String.length_toList, String.length_toList] at hlength

/-- A text has no operator, or it is split at one. -/
theorem none_or_split (text : String) :
    (∀ op : Operator, ¬ op.OccursIn text) ∨ ∃ op before after, Split text op before after := by
  cases hbreak : breakAtOperator? text.toList Operator.priority with
  | none =>
    refine .inl fun op => mt Operator.occursIn_iff_isInfix.mp ?_
    exact breakAtOperator?_eq_none_iff.mp hbreak op op.mem_priority
  | some parts =>
    obtain ⟨op, before, after⟩ := parts
    refine .inr ⟨op, String.ofList before, String.ofList after, split_iff.mpr ?_⟩
    rw [hbreak, String.toList_ofList, String.toList_ofList]

/-! ## Reading a predicate -/

theorem parse?_of_none (h : ∀ op : Operator, ¬ op.OccursIn text) : parse? text = none := by
  have hbreak : breakAtOperator? text.toList Operator.priority = none :=
    breakAtOperator?_eq_none_iff.mpr fun op _ => mt Operator.occursIn_iff_isInfix.mpr (h op)
  rw [parse?, hbreak]

theorem parse?_of_split (h : Split text op before after) : parse? text =
    if isBlankText before then none else some ⟨Path.parse (trim before), op, trim after⟩ := by
  rw [parse?, split_iff.mp h]
  dsimp only
  rw [isEmpty_trimChars]
  rfl

theorem parse?_eq_none_iff (text : String) : parse? text = none ↔
    (∀ op : Operator, ¬ op.OccursIn text) ∨
      ∃ op before after, Split text op before after ∧ isBlankText before = true := by
  constructor
  · intro h
    refine (none_or_split text).imp_right ?_
    rintro ⟨op, before, after, hsplit⟩
    rw [parse?_of_split hsplit, ite_eq_left_iff] at h
    exact ⟨op, before, after, hsplit, by_contra fun hblank => Option.some_ne_none _ (h hblank)⟩
  · rintro (h | ⟨op, before, after, hsplit, hblank⟩)
    · exact parse?_of_none h
    · rw [parse?_of_split hsplit, if_pos hblank]

theorem parse?_eq_some_iff (text : String) (p : Predicate) : parse? text = some p ↔
    ∃ before after, Split text p.operator before after ∧ isBlankText before = false ∧
      p.key = Path.parse (trim before) ∧ p.operand = trim after := by
  constructor
  · intro h
    rcases none_or_split text with hnone | ⟨op, before, after, hsplit⟩
    · rw [parse?_of_none hnone] at h
      cases h
    · rw [parse?_of_split hsplit, Option.ite_none_left_eq_some] at h
      obtain ⟨key, operator, operand⟩ := p
      rw [Option.some.injEq, Predicate.mk.injEq] at h
      obtain ⟨hblank, hkey, rfl, hoperand⟩ := h
      exact ⟨before, after, hsplit, Bool.eq_false_iff.mpr hblank, hkey.symm, hoperand.symm⟩
  · rintro ⟨before, after, hsplit, hblank, hkey, hoperand⟩
    rw [parse?_of_split hsplit, hblank, ← hkey, ← hoperand]
    rfl

/-- A text is read as a predicate unless it has no operator or the text before its operator is
blank. The key and the operand are the texts before and after the operator, trimmed. An operator of
one character is never taken where one of two characters occurs. -/
theorem parsed_as_split (text : String) :
    (parse? text = none ↔ (∀ c ∈ text.toList, c ∉ Operator.marks) ∨
      ∃ op before after, Split text op before after ∧ isBlankText before = true) ∧
    (∀ p, parse? text = some p ↔ ∃ before after, Split text p.operator before after ∧
      isBlankText before = false ∧ p.key = Path.parse (trim before) ∧ p.key.text = trim before ∧
      p.operand = trim after) ∧
    ∀ p, parse? text = some p → p.operator.symbol.length = 1 →
      ∀ op : Operator, op.symbol.length = 2 → ¬ op.OccursIn text := by
  refine ⟨?_, fun p => ?_, fun p hp hone op htwo => ?_⟩
  · rw [← Operator.none_occursIn_iff, parse?_eq_none_iff]
  · rw [parse?_eq_some_iff]
    constructor
    · rintro ⟨before, after, hsplit, hblank, hkey, hoperand⟩
      exact ⟨before, after, hsplit, hblank, hkey, by rw [hkey, Path.text_parse], hoperand⟩
    · rintro ⟨before, after, hsplit, hblank, hkey, -, hoperand⟩
      exact ⟨before, after, hsplit, hblank, hkey, hoperand⟩
  · obtain ⟨before, after, hsplit, -⟩ := (parse?_eq_some_iff text p).mp hp
    exact hsplit.first op (Operator.mem_takeWhile_priority hone htwo)

/-- What stands further left does not matter. -/
example : parse? "time:10>9" = some ⟨⟨["time:10"]⟩, .greater, "9"⟩ := by
  decide

end Predicate

end JsonInspect
