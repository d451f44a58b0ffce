import JsonInspect.Proofs.Engine.Renamed
import JsonInspect.Proofs.Json.RoundTrip
import JsonInspect.Proofs.Text.EditDistance
import JsonInspect.Proofs.Text.Search
import Mathlib.Data.String.Basic

/-! # What the operators say of a field

An operator is applied by what is less and what is the same. Only finite numbers are compared as
numbers (`Operand.isNaN_of_number?`), so the two go by one order on either side, and every operator
but containment accepts some of its outcomes (`evaluate_eq`). So an operator and its opposite never
agree (`evaluate_opposite`), and the predicates on one key share out the records in which the key
leads to a field (`operators_share_out`). An operand that is a field's own text in quotes compares
equal to the field (`evaluate_quoted`). -/

namespace JsonInspect

namespace Operator

variable {op op' : Operator}

/-- The operator that accepts exactly what another one refuses. -/
def opposite? : Operator → Option Operator
  | greaterOrEqual => some less
  | less => some greaterOrEqual
  | lessOrEqual => some greater
  | greater => some lessOrEqual
  | equal => some notEqual
  | assigned => some notEqual
  | notEqual => some equal
  | contains => none

def testsEquality : Operator → Bool
  | equal | assigned | notEqual => true
  | _ => false

def accepts : Operator → Ordering → Bool
  | greaterOrEqual, o => o != .lt
  | lessOrEqual, o => o != .gt
  | equal, o => o == .eq
  | assigned, o => o == .eq
  | notEqual, o => o != .eq
  | greater, o => o == .gt
  | less, o => o == .lt
  | contains, _ => false

/-- The comparison that accepts an outcome and no other. -/
def accepting : Ordering → Operator
  | .lt => less
  | .eq => equal
  | .gt => greater

/-- What an operator says of a text and itself. -/
def isReflexive : Operator → Bool
  | greaterOrEqual | lessOrEqual | equal | assigned | contains => true
  | notEqual | greater | less => false

/-- Where less and the same go by one order, an operator looks at the outcome alone. -/
theorem holds_eq_accepts {α β : Type} [LinearOrder β] (key : α → β) {below same : α → α → Bool}
    {a b : α} (hless : below a b = decide (key a < key b))
    (hgreater : below b a = decide (key b < key a)) (hsame : same a b = decide (key a = key b))
    (op : Operator) : op.holds below same a b = op.accepts (compare (key a) (key b)) := by
  rcases lt_trichotomy (key a) (key b) with h | h | h
  · rw [compare_lt_iff_lt.mpr h]
    cases op <;> simp [holds, accepts, hless, hgreater, hsame, h, h.ne, h.not_gt]
  · rw [compare_eq_iff_eq.mpr h]
    cases op <;> simp [holds, accepts, hless, hgreater, hsame, h]
  · rw [compare_gt_iff_gt.mpr h]
    cases op <;> simp [holds, accepts, hless, hgreater, hsame, h, h.ne', h.not_gt]

theorem holds_texts (s t : String) (op : Operator) :
    op.holds (fun s t => decide (s < t)) (· == ·) s t = op.accepts (compare s t) :=
  holds_eq_accepts (id : String → String) rfl rfl (beq_eq_decide s t) op

/-- A NaN would be neither less nor greater than a number nor the same. -/
theorem holds_doubles {a b : Double} (ha : a.isNaN = false) (hb : b.isNaN = false)
    (op : Operator) :
    op.holds Double.less Double.same a b = op.accepts (compare a.orderKey b.orderKey) := by
  refine holds_eq_accepts Double.orderKey ?_ ?_ ?_ op
  · simp [Double.less, ha, hb]
  · simp [Double.less, ha, hb]
  · simp [Double.same, ha, hb, beq_eq_decide]

theorem accepts_opposite (h : op.opposite? = some op') (o : Ordering) :
    op'.accepts o = !op.accepts o := by
  cases op <;> cases h <;> cases o <;> rfl

theorem accepts_eq (h : op ≠ contains) : op.accepts .eq = op.isReflexive := by
  cases op with
  | contains => exact absurd rfl h
  | _ => rfl

theorem accepts_eq_decide (h : op ∈ [less, equal, greater]) (o : Ordering) :
    op.accepts o = decide (accepting o = op) := by
  simp only [List.mem_cons, List.not_mem_nil, or_false] at h
  rcases h with rfl | rfl | rfl <;> cases o <;> rfl

theorem accepting_mem (o : Ordering) : accepting o ∈ [less, equal, greater] := by
  cases o <;> simp [accepting]

theorem accepts_assigned (o : Ordering) : assigned.accepts o = equal.accepts o := rfl

end Operator

theorem Operand.isNaN_of_number? {text : String} {d : Double} (h : number? text = some d) :
    d.isNaN = false := by
  rw [number?, Option.filter_eq_some_iff] at h
  exact Double.isNaN_of_isFinite h.2

/-! ## How a field compares with an operand -/

section

variable {m : Matching} {op op' : Operator} {operand : String} {field : Json}

/-- As numbers if both read as numbers, else as lower-cased texts. Where only equality is in
question, fuzzy matching takes texts for equal if they are close, and orders no others. -/
def comparison (m : Matching) (equality : Bool) (operand : String) (field : Json) : Ordering :=
  let left := lower (trim field.stringForm)
  let right := lower (unquote operand)
  match Operand.number? (trim field.stringForm), Operand.number? (unquote operand) with
  | some a, some b => compare a.orderKey b.orderKey
  | _, _ =>
    if m.fuzzy && equality then (if closeTo m.threshold left right then .eq else .lt)
    else compare left right

theorem evaluate_contains : evaluate m .contains operand field =
    m.finds (lower (trim field.stringForm)) (lower (unquote operand)) := by
  unfold evaluate
  exact if_pos rfl

/-- Operators other than containment differ in the outcomes that they accept and in nothing else. -/
theorem evaluate_eq (h : op ≠ .contains) : evaluate m op operand field =
    op.accepts (comparison m op.testsEquality operand field) := by
  unfold evaluate comparison
  dsimp only
  rw [if_neg h]
  generalize lower (trim field.stringForm) = left
  generalize lower (unquote operand) = right
  have htexts : (if m.fuzzy && (op = .equal || op = .assigned) then closeTo m.threshold left right
      else if m.fuzzy && op = .notEqual then !closeTo m.threshold left right
      else op.holds (fun s t => decide (s < t)) (· == ·) left right) =
        op.accepts (if m.fuzzy && op.testsEquality then
          (if closeTo m.threshold left right then .eq else .lt) else compare left right) := by
    rw [Operator.holds_texts]
    cases op with
    | contains => exact absurd rfl h
    | equal | assigned | notEqual => cases m.fuzzy <;> cases closeTo m.threshold left right <;> rfl
    | _ => simp [Operator.testsEquality]
  cases ha : Operand.number? (trim field.stringForm) with
  | none => exact htexts
  | some a =>
    cases hb : Operand.number? (unquote operand) with
    | none => exact htexts
    | some b =>
      exact Operator.holds_doubles (Operand.isNaN_of_number? ha) (Operand.isNaN_of_number? hb) op

/-- An operator and its opposite never agree, with fuzzy matching or without it. -/
theorem evaluate_opposite (h : op.opposite? = some op') (m : Matching) (operand : String)
    (field : Json) : evaluate m op' operand field = !evaluate m op operand field := by
  have hop : op ≠ .contains ∧ op' ≠ .contains ∧ op'.testsEquality = op.testsEquality := by
    cases op <;> cases h <;> decide
  rw [evaluate_eq hop.1, evaluate_eq hop.2.1, hop.2.2, Operator.accepts_opposite h]

theorem evaluate_assigned (m : Matching) (operand : String) (field : Json) :
    evaluate m .assigned operand field = evaluate m .equal operand field := by
  have htests : Operator.assigned.testsEquality = Operator.equal.testsEquality := rfl
  rw [evaluate_eq (by decide), evaluate_eq (by decide), Operator.accepts_assigned, htests]

/-- Without fuzzy matching, a test for equality asks the same as the other operators. -/
theorem comparison_exact (threshold : Nat) (equality : Bool) (operand : String) (field : Json) :
    comparison ⟨false, threshold⟩ equality operand field =
      comparison ⟨false, threshold⟩ false operand field := by
  unfold comparison
  simp only [Bool.false_and]

end

/-! ## Sharing out the records -/

/-- Each record in which the key leads to a field is on the side of one of the operators, and an
operator's predicate keeps those of them that are on its side, in the order of the document. -/
def SharedOut (m : Matching) (key : Path) (operand : String) (root : Json)
    (operators : List Operator) : Prop :=
  ∃ side : Json → Operator,
    (∀ record ∈ root.records, (record.resolve key).isSome → side record ∈ operators) ∧
    ∀ op ∈ operators, (queryByPredicate m ⟨key, op, operand⟩ root).records =
      root.records.filter fun record => (record.resolve key).isSome && side record = op

section

variable {m : Matching} {key : Path} {operand : String} {root : Json} {operators : List Operator}

/-- Operators share out the records if each field is on the side of just one of them. -/
theorem sharedOut_of_fields (side : Json → Operator) (hmem : ∀ field, side field ∈ operators)
    (heval : ∀ op ∈ operators, ∀ field, evaluate m op operand field = decide (side field = op)) :
    SharedOut m key operand root operators := by
  refine ⟨fun record => (record.resolve key).elim .contains side, ?_, ?_⟩
  · intro record _ hsome
    obtain ⟨field, hfield⟩ := Option.isSome_iff_exists.mp hsome
    dsimp only
    rw [hfield]
    exact hmem field
  · intro op hop
    rw [records_queryByPredicate]
    refine List.filter_congr fun record _ => ?_
    cases hfield : record.resolve key with
    | none => rfl
    | some field => simp [hfield, heval op hop field]

theorem sharedOut_opposite {op op' : Operator} (h : op.opposite? = some op') :
    SharedOut m key operand root [op, op'] := by
  refine sharedOut_of_fields (fun field => if evaluate m op operand field then op else op') ?_ ?_
  · intro field
    split <;> simp
  · have hne : op ≠ op' := by
      cases op <;> cases h <;> decide
    intro other hother field
    rcases List.mem_pair.mp hother with rfl | rfl
    · cases evaluate m other operand field <;> simp [hne.symm]
    · rw [evaluate_opposite h]
      cases evaluate m op operand field <;> simp [hne]

/-- A comparison has one of three outcomes. -/
theorem sharedOut_exact (threshold : Nat) :
    SharedOut ⟨false, threshold⟩ key operand root [.less, .equal, .greater] := by
  refine sharedOut_of_fields
    (fun field => .accepting (comparison ⟨false, threshold⟩ false operand field))
    (fun _ => Operator.accepting_mem _) ?_
  intro op hop field
  have hne : op ≠ .contains := by
    rintro rfl
    simp at hop
  rw [evaluate_eq hne, comparison_exact, Operator.accepts_eq_decide hop]

end

/-- A search by a key alone finds the records in which the key leads to a field. Of two opposite
operators each of them satisfies one, and without fuzzy matching a field is less than the operand,
equal to it or greater. -/
theorem operators_share_out (key : Path) (operand : String) (root : Json) :
    (∀ m, (queryByValue m key "" root).records =
        root.records.filter (fun record => (record.resolve key).isSome) ∧
      SharedOut m key operand root [.equal, .notEqual] ∧
      SharedOut m key operand root [.less, .greaterOrEqual] ∧
      SharedOut m key operand root [.greater, .lessOrEqual] ∧
      queryByPredicate m ⟨key, .assigned, operand⟩ root =
        queryByPredicate m ⟨key, .equal, operand⟩ root) ∧
    ∀ threshold, SharedOut ⟨false, threshold⟩ key operand root [.less, .equal, .greater] := by
  refine ⟨fun m => ⟨records_queryByValue_blank m key root, sharedOut_opposite rfl,
    sharedOut_opposite rfl, sharedOut_opposite rfl, ?_⟩, sharedOut_exact⟩
  simp only [queryByPredicate, evaluate_assigned]

/-! ## A field's own text in quotes -/

theorem closeTo_self (threshold : Nat) (text : String) : closeTo threshold text text = true := by
  have hdistance : editDistance text text ≤ 0 :=
    (editDistance_leastCost text text).2 (Aligned.refl text.toList)
  rw [closeTo, decide_eq_true_eq]
  omega

theorem Matching.finds_self (m : Matching) (text : String) : m.finds text text = true := by
  rw [Matching.finds, closeTo_self, occursIn_iff.mpr (List.infix_refl text.toList), ite_self]

/-- Of an operand with neither blanks nor quotes at its ends nothing is taken off. -/
theorem unquote_eq_self {text : String}
    (hhead : ∀ c ∈ text.toList.head?, isBlank c = false ∧ c ≠ '"' ∧ c ≠ '\'')
    (hlast : ∀ c ∈ text.toList.getLast?, isBlank c = false ∧ c ≠ '"' ∧ c ≠ '\'') :
    unquote text = text := by
  have hdrop : ∀ cs : List Char, (∀ c ∈ cs.head?, isBlank c = false ∧ c ≠ '"' ∧ c ≠ '\'') →
      dropQuote cs = cs := by
    intro cs hcs
    cases cs with
    | nil => rfl
    | cons c rest => exact if_neg (not_or.mpr (hcs c rfl).2)
  have htrim : trimChars text.toList = text.toList :=
    trimChars_eq_self (fun c hc => (hhead c hc).1) (fun c hc => (hlast c hc).1)
  rw [unquote, htrim, hdrop _ hhead, hdrop, List.reverse_reverse, htrim, String.ofList_toList]
  rwa [List.head?_reverse]

/-- Of a text in quotes the quotes are taken off, and then the blanks at the ends of the text. -/
theorem unquote_quoted {quote : Char} (h : quote = '"' ∨ quote = '\'') (text : String) :
    unquote (String.singleton quote ++ text ++ String.singleton quote) = trim text := by
  have hsolid : isBlank quote = false := by
    rcases h with rfl | rfl <;> decide
  have hdrop : ∀ cs, dropQuote (quote :: cs) = cs := fun cs => if_pos h
  have hchars : (String.singleton quote ++ text ++ String.singleton quote).toList =
      quote :: (text.toList ++ [quote]) := by simp
  have htrim :
      trimChars (quote :: (text.toList ++ [quote])) = quote :: (text.toList ++ [quote]) := by
    refine trimChars_eq_self ?_ ?_
    · simpa using hsolid
    · rw [← List.cons_append, List.getLast?_concat]
      simpa using hsolid
  rw [unquote, hchars, htrim, hdrop, List.reverse_append, List.reverse_singleton,
    List.singleton_append, hdrop, List.reverse_reverse, trim]

/-- A field compares equal to an operand that stands for its text. -/
theorem comparison_self (h : unquote operand = trim field.stringForm) (equality : Bool) :
    comparison m equality operand field = .eq := by
  unfold comparison
  dsimp only
  rw [h, closeTo_self]
  have htexts : (if m.fuzzy && equality then (if true then Ordering.eq else .lt)
      else compare (lower (trim field.stringForm)) (lower (trim field.stringForm))) = .eq := by
    split
    · rfl
    · exact Std.ReflCmp.compare_self
  cases Operand.number? (trim field.stringForm) with
  | none => exact htexts
  | some a => exact (Std.ReflCmp.compare_self : compare a.orderKey a.orderKey = .eq)

/-- A field equals its own text in quotes of either kind: the operators that a text and itself
satisfy hold, and no others, whatever stands at the ends of the text and whether or not it reads as
a number. -/
theorem evaluate_quoted (m : Matching) (op : Operator) (field : Json) :
    evaluate m op ("\"" ++ field.stringForm ++ "\"") field = op.isReflexive ∧
      evaluate m op ("'" ++ field.stringForm ++ "'") field = op.isReflexive := by
  have hself : ∀ operand, unquote operand = trim field.stringForm →
      evaluate m op operand field = op.isReflexive := by
    intro operand hoperand
    by_cases hop : op = .contains
    · rw [hop, evaluate_contains, hoperand, Matching.finds_self]
      rfl
    · rw [evaluate_eq hop, comparison_self hoperand, Operator.accepts_eq hop]
  exact ⟨hself _ (unquote_quoted (.inl rfl) field.stringForm),
    hself _ (unquote_quoted (.inr rfl) field.stringForm)⟩

end JsonInspect
