import JsonInspect.Proofs.Engine.Comparisons
import JsonInspect.Proofs.Text.Lowercase

/-! # Searching by a value

A search by a value compares lower-cased texts, and null reads as the empty text. With fuzzy
matching the empty text is close to every short value, so null fields are kept for these
(`no_null_kept_iff`). A text that is copied from a field finds the field unless a sigma is given
another form in the text than in the field (`copied_text_found`). Without fuzzy matching, a
predicate that asks for containment keeps what a search by its operand keeps, and null fields by the
text of null (`contains_as_value`). -/

namespace JsonInspect

variable {m : Matching} {key : Path} {root record field : Json} {value : String}

theorem mem_queryByValue_iff : record ∈ (queryByValue m key value root).records ↔
    record ∈ root.records ∧
      ∃ field, record.resolve key = some field ∧ valueMatches m value field = true := by
  rw [records_queryByValue, List.mem_filter, Option.any_eq_true]

theorem valueMatches_eq (m : Matching) (hvalue : value ≠ "") (field : Json) :
    valueMatches m value field =
      m.finds (if field.isNull then "" else lower field.stringForm) (lower value) := by
  have hwanted : (lower value).isEmpty = false := by
    rw [Bool.eq_false_iff, ne_eq, String.isEmpty_iff, lower_eq_empty_iff]
    exact hvalue
  unfold valueMatches
  dsimp only
  rw [hwanted, Bool.false_or]

theorem Matching.finds_exact (threshold : Nat) (text wanted : String) :
    (⟨false, threshold⟩ : Matching).finds text wanted = occursIn wanted.toList text.toList :=
  rfl

/-! ## Null fields -/

/-- Null contains no value and is as far from one as the value is long. -/
theorem valueMatches_null (m : Matching) (hvalue : value ≠ "") : valueMatches m value .null =
    (m.fuzzy && decide ((lower value).length ≤ m.threshold)) := by
  have hmissing : occursIn (lower value).toList "".toList = false := by
    rw [Bool.eq_false_iff, ne_eq, occursIn_iff, String.toList_empty, List.infix_nil,
      String.toList_eq_nil_iff, lower_eq_empty_iff]
    exact hvalue
  have hnull : Json.null.isNull = true := rfl
  rw [valueMatches_eq m hvalue, hnull, if_pos rfl, Matching.finds, hmissing, closeTo,
    editDistance_empty]
  cases m.fuzzy with
  | true => rw [if_pos rfl, Bool.true_and]
  | false => rw [if_neg Bool.false_ne_true, Bool.false_and]

/-- A search by a value keeps no null field if and only if there is none, or matching is exact, or
the value in lower case has more characters than the threshold. -/
theorem no_null_kept_iff (m : Matching) (key : Path) (root : Json) (hvalue : value ≠ "") :
    (∀ record ∈ (queryByValue m key value root).records, record.resolve key ≠ some .null) ↔
      (∀ record ∈ root.records, record.resolve key ≠ some .null) ∨
        (m.fuzzy = true → m.threshold < (lower value).length) := by
  constructor
  · intro h
    refine or_iff_not_imp_left.mpr fun hsome hfuzzy => ?_
    obtain ⟨record, hrecord, hnull⟩ : ∃ record ∈ root.records, record.resolve key = some .null := by
      simpa using hsome
    by_contra hlong
    have hkept : valueMatches m value .null = true := by
      rw [valueMatches_null m hvalue, hfuzzy, Bool.true_and, decide_eq_true_eq]
      exact Nat.le_of_not_lt hlong
    exact h record (mem_queryByValue_iff.mpr ⟨hrecord, .null, hnull, hkept⟩) hnull
  · intro h record hrecord hnull
    obtain ⟨hmem, field, hfield, hkept⟩ := mem_queryByValue_iff.mp hrecord
    rw [hnull] at hfield
    cases hfield
    rw [valueMatches_null m hvalue, Bool.and_eq_true, decide_eq_true_eq] at hkept
    rcases h with hnone | hlong
    · exact hnone record hmem hnull
    · exact absurd hkept.2 (Nat.not_le_of_lt (hlong hkept.1))

/-- A value of three characters is too long for a threshold of two. -/
theorem long_value_keeps_no_null : "new" ≠ "" ∧
    ∀ record ∈ (queryByValue ⟨true, 2⟩ ⟨["city"]⟩ "new" (.obj [("city", .null)])).records,
      record.resolve ⟨["city"]⟩ ≠ some .null :=
  ⟨by decide, (no_null_kept_iff ⟨true, 2⟩ ⟨["city"]⟩ (.obj [("city", .null)]) (by decide)).mpr
    (.inr fun _ => by decide +kernel)⟩

/-- A value of two characters keeps a null field. -/
theorem short_value_keeps_null :
    ∃ record ∈ (queryByValue ⟨true, 2⟩ ⟨["city"]⟩ "ny" (.obj [("city", .null)])).records,
      record.resolve ⟨["city"]⟩ = some .null := by
  refine ⟨.obj [("city", .null)],
    mem_queryByValue_iff.mpr ⟨List.mem_singleton_self _, .null, rfl, ?_⟩, rfl⟩
  decide +kernel

/-! ## Texts copied from fields -/

/-- A field is kept for a text that it contains if at some place where it contains the text each
capital sigma of the text is at the end of a word if and only if it is so in the text alone. -/
theorem copied_text_found (threshold : Nat) {before after : String}
    (hrecord : record ∈ root.records) (hfield : record.resolve key = some field)
    (hnull : field ≠ .null) (htext : field.stringForm = before ++ value ++ after)
    (hsigmas : KeepsSigmas before.toList value.toList after.toList) :
    record ∈ (queryByValue ⟨false, threshold⟩ key value root).records := by
  refine mem_queryByValue_iff.mpr ⟨hrecord, field, hfield, ?_⟩
  by_cases hvalue : value = ""
  · rw [hvalue]
    rfl
  · rw [valueMatches_eq _ hvalue, Json.isNull_eq_false hnull, if_neg Bool.false_ne_true, htext,
      Matching.finds_exact, occursIn_iff, toList_lower, toList_lower, String.toList_append,
      String.toList_append, List.append_assoc]
    exact hsigmas.isInfix

/-- A record with a sigma at the end of a word and another one within a word. -/
def street : Json := .obj [("name", .str "ΟΔΟΣ 5 ΑΣΑ")]

theorem street_found :
    street ∈ (Json.arr [street, .null]).records ∧
      street.resolve ⟨["name"]⟩ = some (.str "ΟΔΟΣ 5 ΑΣΑ") ∧ Json.str "ΟΔΟΣ 5 ΑΣΑ" ≠ .null ∧
      (Json.str "ΟΔΟΣ 5 ΑΣΑ").stringForm = "Ο" ++ "ΔΟΣ 5" ++ " ΑΣΑ" ∧
      KeepsSigmas "Ο".toList "ΔΟΣ 5".toList " ΑΣΑ".toList ∧
      street ∈ (queryByValue ⟨false, 2⟩ ⟨["name"]⟩ "ΔΟΣ 5" (.arr [street, .null])).records := by
  have hrecord : street ∈ (Json.arr [street, .null]).records := List.mem_cons_self
  have hfield : street.resolve ⟨["name"]⟩ = some (.str "ΟΔΟΣ 5 ΑΣΑ") := rfl
  have htext : (Json.str "ΟΔΟΣ 5 ΑΣΑ").stringForm = "Ο" ++ "ΔΟΣ 5" ++ " ΑΣΑ" := by decide +kernel
  have hsigmas : KeepsSigmas "Ο".toList "ΔΟΣ 5".toList " ΑΣΑ".toList := by decide +kernel
  exact ⟨hrecord, hfield, Json.noConfusion, htext, hsigmas,
    copied_text_found 2 hrecord hfield Json.noConfusion htext hsigmas⟩

/-- The sigma that ends the text is within a word of the field. -/
theorem street_missed :
    street ∈ (Json.arr [street, .null]).records ∧
      street.resolve ⟨["name"]⟩ = some (.str "ΟΔΟΣ 5 ΑΣΑ") ∧
      (Json.str "ΟΔΟΣ 5 ΑΣΑ").stringForm = "ΟΔΟΣ 5 " ++ "ΑΣ" ++ "Α" ∧
      street ∉ (queryByValue ⟨false, 2⟩ ⟨["name"]⟩ "ΑΣ" (.arr [street, .null])).records := by
  refine ⟨List.mem_cons_self, rfl, by decide +kernel, fun hkept => ?_⟩
  obtain ⟨-, field, hfield, hmatches⟩ := mem_queryByValue_iff.mp hkept
  cases hfield
  have hmissed : valueMatches ⟨false, 2⟩ "ΑΣ" (.str "ΟΔΟΣ 5 ΑΣΑ") = false := by decide +kernel
  rw [hmissed] at hmatches
  cases hmatches

/-! ## Containment in a predicate -/

theorem evaluate_contains_eq (threshold : Nat) (hvalue : value ≠ "")
    (hhead : ∀ c ∈ value.toList.head?, isBlank c = false ∧ c ≠ '"' ∧ c ≠ '\'')
    (hlast : ∀ c ∈ value.toList.getLast?, isBlank c = false ∧ c ≠ '"' ∧ c ≠ '\'') (field : Json) :
    evaluate ⟨false, threshold⟩ .contains value field =
      (valueMatches ⟨false, threshold⟩ value field ||
        (field.isNull && occursIn (lower value).toList "null".toList)) := by
  rw [evaluate_contains, unquote_eq_self hhead hlast, Matching.finds_exact]
  by_cases hfield : field = .null
  · have hform : lower (trim Json.null.stringForm) = "null" := by decide +kernel
    have hnull : Json.null.isNull = true := rfl
    rw [hfield, valueMatches_null _ hvalue, hform, hnull, Bool.false_and, Bool.false_or,
      Bool.true_and]
  · rw [valueMatches_eq _ hvalue, Json.isNull_eq_false hfield, Bool.false_and, Bool.or_false,
      if_neg Bool.false_ne_true, Matching.finds_exact,
      occursIn_lower_trim hvalue (fun c hc => (hhead c hc).1) (fun c hc => (hlast c hc).1)]

/-- Without fuzzy matching, and for an operand with neither blanks nor quotes at its ends, a
predicate that asks for containment keeps the records that a search by the value keeps and those
with a null field if the operand is found in the text of null. -/
theorem contains_as_value (threshold : Nat) (key : Path) (root : Json) {operand : String}
    (hoperand : operand ≠ "")
    (hhead : ∀ c ∈ operand.toList.head?, isBlank c = false ∧ c ≠ '"' ∧ c ≠ '\'')
    (hlast : ∀ c ∈ operand.toList.getLast?, isBlank c = false ∧ c ≠ '"' ∧ c ≠ '\'') :
    ∃ kept : Json → Bool,
      (queryByValue ⟨false, threshold⟩ key operand root).records = root.records.filter kept ∧
      (∀ record, record.resolve key = some .null → kept record = false) ∧
      (queryByPredicate ⟨false, threshold⟩ ⟨key, .contains, operand⟩ root).records =
        root.records.filter fun record => kept record ||
          (record.resolve key).any fun field =>
            field.isNull && occursIn (lower operand).toList "null".toList := by
  refine ⟨fun record => (record.resolve key).any (valueMatches ⟨false, threshold⟩ operand),
    records_queryByValue _ _ _ _, fun record hnull => ?_, ?_⟩
  · dsimp only
    rw [hnull, Option.any_some, valueMatches_null _ hoperand, Bool.false_and]
  · rw [records_queryByPredicate]
    refine List.filter_congr fun record _ => ?_
    dsimp only
    cases record.resolve key with
    | none => rfl
    | some field =>
      rw [Option.any_some, Option.any_some, Option.any_some,
        evaluate_contains_eq threshold hoperand hhead hlast]

/-- A field with blanks at its ends, a null field and a record without the key. -/
def tagged : List Json := [.obj [("tag", .str " full ")], .obj [("tag", .null)], .obj []]

theorem tagged_contains_as_value :
    "UL" ≠ "" ∧ (∀ c ∈ "UL".toList.head?, isBlank c = false ∧ c ≠ '"' ∧ c ≠ '\'') ∧
      (∀ c ∈ "UL".toList.getLast?, isBlank c = false ∧ c ≠ '"' ∧ c ≠ '\'') ∧
      ∃ kept : Json → Bool,
        (queryByValue ⟨false, 2⟩ ⟨["tag"]⟩ "UL" (.arr tagged)).records = tagged.filter kept ∧
        (∀ record, record.resolve ⟨["tag"]⟩ = some .null → kept record = false) ∧
        (queryByPredicate ⟨false, 2⟩ ⟨⟨["tag"]⟩, .contains, "UL"⟩ (.arr tagged)).records =
          tagged.filter fun record => kept record ||
            (record.resolve ⟨["tag"]⟩).any fun field =>
              field.isNull && occursIn (lower "UL").toList "null".toList := by
  have hhead : ∀ c ∈ "UL".toList.head?, isBlank c = false ∧ c ≠ '"' ∧ c ≠ '\'' := by
    rintro c ⟨⟩
    decide
  have hlast : ∀ c ∈ "UL".toList.getLast?, isBlank c = false ∧ c ≠ '"' ∧ c ≠ '\'' := by
    rintro c ⟨⟩
    decide
  exact ⟨by decide, hhead, hlast,
    contains_as_value 2 ⟨["tag"]⟩ (.arr tagged) (by decide) hhead hlast⟩

end JsonInspect
