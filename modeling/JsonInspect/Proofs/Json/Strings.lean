import JsonInspect.Json.Quoted
import JsonInspect.Json.Reader
import JsonInspect.Proofs.Except

/-! # Reading string literals back

Each character is escaped by itself, and its escape is read as that character
(`stringChars_escapeChar`); a literal is read character by character (`string_literal`). -/

namespace JsonInspect.Json

/-! ## Escapes -/

theorem hexValue?_hexDigit : ∀ n < 16, hexValue? (Quoted.hexDigit n) = some n := by
  decide

theorem unicodeEscape_control {n : Nat} (rest : List Char) (h : n < 0x20) :
    unicodeEscape ('0' :: '0' :: Quoted.hexDigit (n / 16) :: Quoted.hexDigit (n % 16) :: rest) =
      .ok (Char.ofNat n, rest) := by
  have hunit : hexUnit
      ('0' :: '0' :: Quoted.hexDigit (n / 16) :: Quoted.hexDigit (n % 16) :: rest) =
        .ok (n, rest) := by
    have hzero : hexValue? '0' = some 0 := by decide
    have hvalue : ((0 * 16 + 0) * 16 + n / 16) * 16 + n % 16 = n := by omega
    unfold hexUnit
    dsimp only
    rw [hzero, hexValue?_hexDigit (n / 16) (by omega), hexValue?_hexDigit (n % 16) (by omega)]
    dsimp only
    rw [hvalue]
  unfold unicodeEscape
  rw [hunit]
  refine (if_neg (by omega)).trans (if_pos (.inl (by omega)))

/-- A backslash and what `escaped` reads as a character. -/
theorem stringChars_escaped {c : Char} {mark rest : List Char} (x : Char) (fuel : List Char)
    (h : escaped (mark ++ rest) = .ok (c, rest)) :
    stringChars (x :: fuel) ('\\' :: mark ++ rest) =
      (stringChars fuel rest).map fun (cs, rest) => (c :: cs, rest) := by
  rw [List.cons_append, stringChars, if_neg (by decide), if_pos rfl, h, ok_bind]
  dsimp only
  cases stringChars fuel rest <;> rfl

theorem stringChars_plain {c : Char} (x : Char) (fuel rest : List Char) (hquote : c ≠ '"')
    (hback : c ≠ '\\') (hcontrol : ¬ c.toNat < 0x20) :
    stringChars (x :: fuel) (c :: rest) =
      (stringChars fuel rest).map fun (cs, rest) => (c :: cs, rest) := by
  rw [stringChars, if_neg hquote, if_neg hback, if_neg hcontrol]
  cases stringChars fuel rest <;> rfl

/-- The escape of a character is read as that character. -/
theorem stringChars_escapeChar (x c : Char) (fuel rest : List Char) :
    stringChars (x :: fuel) (Quoted.escapeChar c ++ rest) =
      (stringChars fuel rest).map fun (cs, rest) => (c :: cs, rest) := by
  unfold Quoted.escapeChar
  iterate 7
    split
    · subst c
      exact stringChars_escaped x fuel rfl
  split
  · rename_i hcontrol
    have h := unicodeEscape_control rest hcontrol
    rw [Char.ofNat_toNat] at h
    exact stringChars_escaped x fuel (h : escaped (['u', '0', '0', _, _] ++ rest) = _)
  · rename_i hback hquote _ _ _ _ _ hcontrol
    exact stringChars_plain x fuel rest hquote hback hcontrol

/-! ## Literals -/

/-- The characters of a text are read back up to its closing quote. -/
theorem stringChars_escape (cs fuel rest : List Char) (h : cs.length < fuel.length) :
    stringChars fuel (Quoted.escape cs ++ '"' :: rest) = .ok (cs, rest) := by
  induction cs generalizing fuel with
  | nil =>
    obtain ⟨x, fuel, rfl⟩ := List.exists_cons_of_length_pos h
    rfl
  | cons c cs ih =>
    obtain ⟨x, fuel, rfl⟩ := List.exists_cons_of_length_pos (Nat.zero_lt_of_lt h)
    have hfuel : cs.length < fuel.length := Nat.lt_of_succ_lt_succ h
    rw [Quoted.escape, List.flatMap_cons, List.append_assoc, stringChars_escapeChar,
      ← Quoted.escape, ih fuel hfuel]
    rfl

theorem escapeChar_ne_nil (c : Char) : Quoted.escapeChar c ≠ [] := by
  unfold Quoted.escapeChar
  iterate 8
    split
    · exact List.cons_ne_nil _ _
  exact List.cons_ne_nil _ _

/-- No escape is empty, so a text is no longer than its escape. -/
theorem length_le_length_escape (cs : List Char) : cs.length ≤ (Quoted.escape cs).length := by
  induction cs with
  | nil => exact Nat.le_refl 0
  | cons c cs ih =>
    have h := List.length_pos_iff.mpr (escapeChar_ne_nil c)
    rw [Quoted.escape] at ih
    rw [Quoted.escape, List.flatMap_cons, List.length_append, List.length_cons]
    omega

/-- A literal is read back after its opening quote. -/
theorem string_literal (s : String) (rest : List Char) :
    ∃ inner, Quoted.literal s ++ rest = '"' :: inner ∧ string inner = .ok (s, rest) := by
  refine ⟨Quoted.escape s.toList ++ '"' :: rest, by simp [Quoted.literal], ?_⟩
  have h := length_le_length_escape s.toList
  rw [string, stringChars_escape, ok_bind]
  · simp
  · rw [List.length_append, List.length_cons]
    omega

end JsonInspect.Json
