import JsonInspect.Json.Reader
import JsonInspect.Proofs.Number.Shortest

/-! # Reading digits back

The scanners of the reader take whole runs of digits. What follows a run must not continue it:
`NoDigit` is that condition for a run alone and `EndsNumber` for a number, which a point or the
letter of an exponent would continue as well. -/

namespace JsonInspect.Json

def NoDigit (rest : List Char) : Prop := ∀ c ∈ rest.head?, c.isDigit = false

/-- The text does not continue a number. -/
def EndsNumber (rest : List Char) : Prop :=
  ∀ c ∈ rest.head?, c.isDigit = false ∧ c ≠ '.' ∧ c ≠ 'e' ∧ c ≠ 'E'

theorem EndsNumber.noDigit {rest : List Char} (h : EndsNumber rest) : NoDigit rest :=
  fun c hc => (h c hc).1

theorem noDigit_cons {c : Char} {rest : List Char} (h : c.isDigit = false) :
    NoDigit (c :: rest) := by
  intro x hx
  obtain rfl := Option.some.inj hx
  exact h

def Digits (ds : List Char) : Prop := ∀ c ∈ ds, c.isDigit = true

/-- Digits that may stand before a point: at least one, and no zero in front of others. -/
structure WholeDigits (ds : List Char) : Prop where
  ne_nil : ds ≠ []
  digits : Digits ds
  zero_alone : ds.head? = some '0' → ds = ['0']

/-! ## Runs -/

theorem takeWhile_digits {ds rest : List Char} (hd : Digits ds) (hr : NoDigit rest) :
    (ds ++ rest).takeWhile Char.isDigit = ds := by
  rw [List.takeWhile_append_of_pos hd]
  cases rest with
  | nil => simp
  | cons c rest => simp [hr c rfl]

theorem dropWhile_digits {ds rest : List Char} (hd : Digits ds) (hr : NoDigit rest) :
    (ds ++ rest).dropWhile Char.isDigit = rest := by
  rw [List.dropWhile_append_of_pos hd]
  cases rest with
  | nil => rfl
  | cons c rest => simp [hr c rfl]

theorem wholeDigits_append {ds rest : List Char} (hd : WholeDigits ds) (hr : NoDigit rest) :
    wholeDigits (ds ++ rest) = .ok (ds, rest) := by
  obtain ⟨c, ds, rfl⟩ := List.exists_cons_of_ne_nil hd.ne_nil
  have htake := takeWhile_digits (fun x hx => hd.digits x (List.mem_cons_of_mem c hx)) hr
  have hdrop := dropWhile_digits (fun x hx => hd.digits x (List.mem_cons_of_mem c hx)) hr
  rw [List.cons_append]
  unfold wholeDigits
  split
  · rename_i h
    cases h
  · rename_i x rest' h
    injection h with hc hrest
    subst hc
    have hds : ds = [] := (List.cons.inj (hd.zero_alone rfl)).2
    subst hds
    rw [List.nil_append] at hrest
    subst hrest
    rw [if_neg (by rw [hr x rfl]; exact Bool.false_ne_true)]
  · rename_i x rest' _ h
    injection h with hc hrest
    subst hc hrest
    rw [if_pos (hd.digits c List.mem_cons_self), htake, hdrop]

theorem fractionDigits_append {ds rest : List Char} (hne : ds ≠ []) (hd : Digits ds)
    (hr : NoDigit rest) : fractionDigits (ds ++ rest) = .ok (ds, rest) := by
  have htake := takeWhile_digits hd hr
  have hdrop := dropWhile_digits hd hr
  obtain ⟨c, ds, rfl⟩ := List.exists_cons_of_ne_nil hne
  rw [List.cons_append] at htake hdrop ⊢
  unfold fractionDigits
  dsimp only
  rw [if_pos (hd c List.mem_cons_self), htake, hdrop]

theorem ofDigitChars_mono {ds : List Char} (n : ℕ) : n ≤ Nat.ofDigitChars 10 ds n := by
  induction ds generalizing n with
  | nil => exact le_of_eq Nat.ofDigitChars_nil.symm
  | cons c ds ih =>
    rw [Nat.ofDigitChars_cons]
    exact le_trans (by omega) (ih _)

/-- The digits of an exponent are read to their end if what they stand for is small enough. -/
theorem exponentDigits_append (bounded : Bool) {ds rest : List Char} {n : ℕ}
    (hd : Digits ds) (hr : NoDigit rest)
    (hn : Nat.ofDigitChars 10 ds n ≤ greatestExponent) :
    exponentDigits bounded n (ds ++ rest) = .ok (Nat.ofDigitChars 10 ds n, rest) := by
  induction ds generalizing n with
  | nil =>
    rw [List.nil_append, Nat.ofDigitChars_nil]
    cases rest with
    | nil => rfl
    | cons c rest => simp [exponentDigits, hr c rfl]
  | cons c ds ih =>
    have hsplit : Nat.ofDigitChars 10 (c :: ds) n =
        Nat.ofDigitChars 10 ds (Nat.ofDigitChars 10 [c] n) := by
      rw [Nat.ofDigitChars_cons, Nat.ofDigitChars_cons, Nat.ofDigitChars_nil]
    rw [hsplit] at hn ⊢
    have hle : Nat.ofDigitChars 10 [c] n ≤ greatestExponent := (ofDigitChars_mono _).trans hn
    rw [List.cons_append]
    unfold exponentDigits
    rw [if_pos (hd c List.mem_cons_self)]
    dsimp only
    rw [if_neg (by simpa using fun _ => hle)]
    exact ih (fun x hx => hd x (List.mem_cons_of_mem c hx)) hn

/-! ## The digits of a natural number -/

theorem digits_toDigits (n : ℕ) : Digits (Nat.toDigits 10 n) :=
  fun _ hc => Nat.isDigit_of_mem_toDigits (by decide) (by decide) hc

/-- The first digit of a positive number is not zero. -/
theorem head?_toDigits_ne_zero {n : ℕ} (hn : 0 < n) : (Nat.toDigits 10 n).head? ≠ some '0' := by
  induction n using Nat.strongRecOn with
  | ind n ih =>
    by_cases h : n < 10
    · have hdigit : ∀ k < 10, 0 < k → k.digitChar ≠ '0' := by decide
      rw [Nat.toDigits_of_lt_base h]
      intro hz
      exact hdigit n h hn (Option.some.inj hz)
    · rw [Nat.toDigits_of_base_le (by decide) (by omega),
        List.head?_append_of_ne_nil _ Nat.toDigits_ne_nil]
      exact ih (n / 10) (by omega) (by omega)

theorem wholeDigits_toDigits (n : ℕ) : WholeDigits (Nat.toDigits 10 n) := by
  refine ⟨Nat.toDigits_ne_nil, digits_toDigits n, fun h => ?_⟩
  rcases Nat.eq_zero_or_pos n with rfl | hn
  · exact Nat.toDigits_zero 10
  · exact absurd h (head?_toDigits_ne_zero hn)

theorem wholeDigits_take_toDigits {n k : ℕ} (hn : 0 < n) (hk : 0 < k) :
    WholeDigits ((Nat.toDigits 10 n).take k) := by
  have hhead : ((Nat.toDigits 10 n).take k).head? = (Nat.toDigits 10 n).head? := by
    cases Nat.toDigits 10 n with
    | nil => simp
    | cons c ds =>
      cases k with
      | zero => omega
      | succ k => rfl
  refine ⟨fun h => ?_, fun c hc => digits_toDigits n c (List.mem_of_mem_take hc), fun h => ?_⟩
  · rw [List.take_eq_nil_iff] at h
    rcases h with h | h
    · omega
    · exact Nat.toDigits_ne_nil h
  · rw [hhead] at h
    exact absurd h (head?_toDigits_ne_zero hn)

end JsonInspect.Json

/-! ## The characters of a number -/

namespace JsonInspect.Number

open Json

/-- What the text of a number is made of: digits, signs, a point, the mark of an exponent, and
the letters of null. -/
def IsNumeral (c : Char) : Prop := c.isDigit = true ∨ c ∈ ['-', '+', '.', 'e', 'n', 'u', 'l']

instance (c : Char) : Decidable (IsNumeral c) := inferInstanceAs (Decidable (_ ∨ _))

theorem numeral_of_all {cs : List Char} (h : cs.all (fun c => decide (IsNumeral c)) = true) :
    ∀ c ∈ cs, IsNumeral c :=
  fun c hc => of_decide_eq_true (List.all_eq_true.mp h c hc)

theorem numeral_toDigits (n : ℕ) : ∀ c ∈ Nat.toDigits 10 n, IsNumeral c :=
  fun c hc => .inl (digits_toDigits n c hc)

theorem numeral_zeros (n : ℕ) : ∀ c ∈ DigitLayout.zeros n, IsNumeral c := by
  intro c hc
  rw [List.eq_of_mem_replicate hc]
  decide

theorem numeral_positional {digits : List Char} (leading : ℤ) (h : ∀ c ∈ digits, IsNumeral c) :
    ∀ c ∈ DigitLayout.positional digits leading, IsNumeral c := by
  unfold DigitLayout.positional
  dsimp only
  split
  · rw [List.forall_mem_append, List.forall_mem_append]
    exact ⟨⟨numeral_of_all rfl, numeral_zeros _⟩, h⟩
  · split
    · exact List.forall_mem_append.mpr ⟨h, numeral_zeros _⟩
    · rw [List.forall_mem_append, List.forall_mem_cons]
      exact ⟨fun c hc => h c (List.mem_of_mem_take hc), by decide,
        fun c hc => h c (List.mem_of_mem_drop hc)⟩

theorem numeral_scientific {digits : List Char} (leading : ℤ) (h : ∀ c ∈ digits, IsNumeral c) :
    ∀ c ∈ DigitLayout.scientific digits leading, IsNumeral c := by
  unfold DigitLayout.scientific
  dsimp only
  rw [List.forall_mem_append, List.forall_mem_append, List.forall_mem_cons, List.forall_mem_cons]
  refine ⟨⟨fun c hc => h c (List.mem_of_mem_take hc), ?_⟩, by decide, ?_, numeral_toDigits _⟩
  · split
    · exact List.forall_mem_nil _
    · exact List.forall_mem_cons.mpr ⟨by decide, fun c hc => h c (List.mem_of_mem_drop hc)⟩
  · split <;> decide

theorem numeral_write (l : DigitLayout) (d : Decimal) : ∀ c ∈ l.write d, IsNumeral c := by
  unfold DigitLayout.write
  dsimp only
  split
  · exact numeral_positional _ (numeral_toDigits _)
  · exact numeral_scientific _ (numeral_toDigits _)

theorem numeral_signed {digits : List Char} (negative : Bool) (h : ∀ c ∈ digits, IsNumeral c) :
    ∀ c ∈ signed negative digits, IsNumeral c := by
  cases negative with
  | true => exact List.forall_mem_cons.mpr ⟨by decide, h⟩
  | false => exact h

theorem numeral_chars (n : Number) : ∀ c ∈ n.chars, IsNumeral c := by
  cases n with
  | int i => exact numeral_signed _ (numeral_toDigits _)
  | double d =>
    rw [chars]
    unfold doubleChars
    split
    · exact numeral_of_all rfl
    · split
      · exact numeral_of_all rfl
      · split
        · split
          · exact numeral_signed _ (numeral_toDigits _)
          · exact numeral_signed _ (numeral_write _ _)
        · exact numeral_signed _ (numeral_write _ _)

end JsonInspect.Number
