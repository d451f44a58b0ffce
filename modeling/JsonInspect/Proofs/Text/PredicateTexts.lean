import JsonInspect.Proofs.Text.Predicates

/-! # Reading the texts of predicates

The text of a predicate has no blanks around its operator, so what stood apart in the text that was
read may now stand together. It is read back as the same predicate if and only if neither the end of
the key nor the start of the operand makes another operator with the symbol
(`text_reads_back_iff`). -/

namespace JsonInspect

namespace Operator

/-- The characters that make an operator with the first one of a symbol behind them, such as the `>`
of `>=`, if that operator is the one that is found. -/
def joinsBefore : Operator → List Char
  | equal => ['>', '<', '=']
  | assigned => ['>', '<', '=', '!']
  | _ => []

/-- The characters that make an operator with the last one of a symbol in front of them, if that
operator is the one that is found. -/
def joinsAfter : Operator → List Char
  | notEqual => ['=']
  | greater => ['=']
  | less => ['=']
  | assigned => ['=']
  | _ => []

variable {op op' : Operator} {c : Char} {front back : List Char}

/-- What is found is an operator that comes before this one, or this one further left. -/
theorem mem_joinsBefore : c ∈ op.joinsBefore ↔ ∃ d ∈ op.symbol.toList.head?,
    ∃ op' : Operator, (op' ∈ priority.takeWhile (· ≠ op) ∨ op' = op) ∧
      op'.symbol.toList = [c, d] := by
  cases op <;> simp [joinsBefore, priority, symbol, eq_comm, or_assoc]

theorem mem_joinsAfter : c ∈ op.joinsAfter ↔ ∃ d ∈ op.symbol.toList.getLast?,
    ∃ op' ∈ priority.takeWhile (· ≠ op), op'.symbol.toList = [d, c] := by
  cases op <;> simp [joinsAfter, priority, symbol, eq_comm]

theorem symbol_ne_nil (op : Operator) : op.symbol.toList ≠ [] := by
  cases op <;> decide

/-- No symbol has that of an earlier operator in it. -/
theorem not_infix_symbol (h : op' ∈ priority.takeWhile (· ≠ op)) :
    ¬ op'.symbol.toList <:+: op.symbol.toList := by
  revert h
  cases op <;> cases op' <;> decide

theorem infix_append_iff (op : Operator) : op.symbol.toList <:+: front ++ back ↔
    op.symbol.toList <:+: front ∨ op.symbol.toList <:+: back ∨
      ∃ c ∈ front.getLast?, ∃ d ∈ back.head?, op.symbol.toList = [c, d] :=
  infix_append_iff_meets (by cases op <;> decide)

end Operator

namespace Predicate

/-! ## An operator between two texts -/

section

variable {op : Operator} {before after : List Char}

/-- An operator that was put between two texts without it, and without those before it, is found
again if nothing joins its symbol. -/
theorem breakAtOperator?_append_iff
    (hbefore : ∀ op' ∈ Operator.priority.takeWhile (· ≠ op), ¬ op'.symbol.toList <:+: before)
    (hself : ¬ op.symbol.toList <:+: before)
    (hafter : ∀ op' ∈ Operator.priority.takeWhile (· ≠ op), ¬ op'.symbol.toList <:+: after) :
    breakAtOperator? (before ++ (op.symbol.toList ++ after)) Operator.priority =
        some (op, before, after) ↔
      (∀ c ∈ before.getLast?, c ∉ op.joinsBefore) ∧ ∀ c ∈ after.head?, c ∉ op.joinsAfter := by
  rw [breakAtOperator?_eq_some_iff, leftmost_append_iff op.symbol_ne_nil]
  constructor
  · rintro ⟨-, hfirst, hleftmost⟩
    refine ⟨fun c hc hjoin => ?_, fun c hc hjoin => ?_⟩
    · obtain ⟨d, hd, op', hop' | rfl, hsymbol⟩ := Operator.mem_joinsBefore.mp hjoin
      · refine hfirst op' hop' (op'.infix_append_iff.mpr (.inr (.inr ⟨c, hc, d, ?_, hsymbol⟩)))
        exact List.mem_head?_append_of_mem_head? hd
      · -- The symbol is one character twice, and it stands one place further left.
        refine hleftmost (op'.infix_append_iff.mpr (.inr (.inr ⟨c, hc, d, ?_, hsymbol⟩)))
        rw [hsymbol] at hd ⊢
        exact hd
    · obtain ⟨d, hd, op', hop', hsymbol⟩ := Operator.mem_joinsAfter.mp hjoin
      refine hfirst op' hop' (List.infix_append_of_infix_right ?_)
      exact op'.infix_append_iff.mpr (.inr (.inr ⟨d, hd, c, hc, hsymbol⟩))
  · rintro ⟨hlast, hhead⟩
    refine ⟨op.mem_priority, fun op' hop' hstands => ?_, fun hstands => ?_⟩
    · rcases op'.infix_append_iff.mp hstands with h | h | ⟨c, hc, d, hd, hsymbol⟩
      · exact hbefore op' hop' h
      · rcases op'.infix_append_iff.mp h with h | h | ⟨d, hd, c, hc, hsymbol⟩
        · exact Operator.not_infix_symbol hop' h
        · exact hafter op' hop' h
        · exact hhead c hc (Operator.mem_joinsAfter.mpr ⟨d, hd, op', hop', hsymbol⟩)
      · rw [List.head?_append_of_ne_nil _ op.symbol_ne_nil] at hd
        exact hlast c hc (Operator.mem_joinsBefore.mpr ⟨d, hd, op', .inl hop', hsymbol⟩)
    · rcases op.infix_append_iff.mp hstands with h | h | ⟨c, hc, d, hd, hsymbol⟩
      · exact hself h
      · have hle := h.length_le
        have hpos := List.length_pos_iff.mpr op.symbol_ne_nil
        rw [List.length_dropLast] at hle
        omega
      · refine hlast c hc (Operator.mem_joinsBefore.mpr ⟨d, ?_, op, .inr rfl, hsymbol⟩)
        rw [hsymbol] at hd ⊢
        exact hd

end

/-! ## The text of what was read -/

section

variable {text : String} {p : Predicate}

theorem toList_text (p : Predicate) :
    p.text.toList = p.key.text.toList ++ (p.operator.symbol.toList ++ p.operand.toList) := by
  rw [Predicate.text, String.toList_append, String.toList_append, List.append_assoc]

/-- The key and the operand have no blanks to trim, so the text of a predicate gives it back only by
being split where it was put together. -/
theorem parse?_text_iff_split (h : parse? text = some p) :
    parse? p.text = some p ↔ Split p.text p.operator p.key.text p.operand := by
  obtain ⟨before, after, -, hblank, hkey, hoperand⟩ := (parse?_eq_some_iff text p).mp h
  have hkeytext : p.key.text = trim before := by rw [hkey, Path.text_parse]
  rw [parse?_eq_some_iff]
  constructor
  · rintro ⟨before', after', hsplit, -, hkey', hoperand'⟩
    have hkeypart := infix_trim before'
    rw [← Path.text_parse (trim before'), ← hkey'] at hkeypart
    have hoperandpart := infix_trim after'
    rw [← hoperand'] at hoperandpart
    have hlength := congrArg List.length
      ((toList_text p).symm.trans (Operator.eq_append_iff.mp hsplit.eq_append))
    simp only [List.length_append] at hlength
    have hkeylength := hkeypart.length_le
    have hoperandlength := hoperandpart.length_le
    have hbefore := String.toList_inj.mp (hkeypart.eq_of_length (by omega))
    have hafter := String.toList_inj.mp (hoperandpart.eq_of_length (by omega))
    rwa [hbefore, hafter]
  · intro hsplit
    refine ⟨p.key.text, p.operand, hsplit, ?_, ?_, ?_⟩
    · rw [hkeytext, isBlankText_trim, hblank]
    · rw [hkeytext, trim_trim, hkey]
    · rw [hoperand, trim_trim]

/-- What was read as a predicate is read again from the predicate's text if and only if no operator
that is found first comes about where its key or its operand meets the symbol. -/
theorem text_reads_back_iff (h : parse? text = some p) : parse? p.text = some p ↔
    (∀ c ∈ p.key.text.toList.getLast?, c ∉ p.operator.joinsBefore) ∧
      ∀ c ∈ p.operand.toList.head?, c ∉ p.operator.joinsAfter := by
  obtain ⟨before, after, hsplit, -, hkey, hoperand⟩ := (parse?_eq_some_iff text p).mp h
  obtain ⟨-, hfirst, hleftmost⟩ := breakAtOperator?_eq_some_iff.mp (split_iff.mp hsplit)
  have heq := hleftmost.eq_append
  have hkeypart : p.key.text.toList <:+: before.toList := by
    rw [hkey, Path.text_parse]
    exact infix_trim before
  have hoperandpart : p.operand.toList <:+: after.toList := by
    rw [hoperand]
    exact infix_trim after
  have hbefore : before.toList <:+: text.toList := by
    rw [heq]
    exact List.infix_append_left
  have hafter : after.toList <:+: text.toList := by
    rw [heq, ← List.append_assoc]
    exact List.infix_append_right
  have hself : ¬ p.operator.symbol.toList <:+: before.toList := by
    rw [heq, leftmost_append_iff p.operator.symbol_ne_nil] at hleftmost
    exact fun hstands => hleftmost (List.infix_append_of_infix_left hstands)
  rw [parse?_text_iff_split h, split_iff, toList_text]
  exact breakAtOperator?_append_iff
    (fun op' hop' hstands => hfirst op' hop' (hstands.trans (hkeypart.trans hbefore)))
    (fun hstands => hself (hstands.trans hkeypart))
    (fun op' hop' hstands => hfirst op' hop' (hstands.trans (hoperandpart.trans hafter)))

/-- A `!` joins the symbol `==` to no operator that would be found before it, nor does a `=` behind
it. -/
theorem marked_key_reads_back :
    parse? " rate! ==  =x" = some ⟨⟨["rate!"]⟩, .equal, "=x"⟩ ∧
      parse? "rate!===x" = some ⟨⟨["rate!"]⟩, .equal, "=x"⟩ :=
  have h : parse? " rate! ==  =x" = some ⟨⟨["rate!"]⟩, .equal, "=x"⟩ := by decide
  ⟨h, (text_reads_back_iff h).mpr ⟨by simp [Path.text, Operator.joinsBefore],
    by simp [Operator.joinsAfter]⟩⟩

/-- An operand that starts with `=` makes `>=` of a `>` that it stood apart from. Where the key is
but one such character nothing is read at all. -/
theorem parted_symbols_join :
    parse? "a > =5" = some ⟨⟨["a"]⟩, .greater, "=5"⟩ ∧
      Predicate.text ⟨⟨["a"]⟩, .greater, "=5"⟩ = "a>=5" ∧
      parse? "a>=5" = some ⟨⟨["a"]⟩, .greaterOrEqual, "5"⟩ ∧
      parse? "! = 5" = some ⟨⟨["!"]⟩, .assigned, "5"⟩ ∧
      Predicate.text ⟨⟨["!"]⟩, .assigned, "5"⟩ = "!=5" ∧ parse? "!=5" = none := by
  decide

end

end Predicate

end JsonInspect
