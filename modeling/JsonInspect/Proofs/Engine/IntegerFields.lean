import JsonInspect.Proofs.Engine.Comparisons
import JsonInspect.Proofs.Number.Integers

/-! # Integers compared with the texts of integers

The text of an integer reads as the binary64 number nearest to it (`Operand.number?_int`), and these
numbers are what operators compare. So an operator says of two integers what holds of them unless
both are rounded to one number, and then it says what holds of equal ones (`evaluate_integers`).
Integers of at most `2 ^ 53` are never rounded to one number (`integers_compared_exactly_iff`). -/

namespace JsonInspect

open Json

/-! ## Nothing to take off -/

theorem Number.trimChars_chars (n : Number) : trimChars n.chars = n.chars :=
  trimChars_eq_self (fun c hc => n.solid_chars c (List.mem_of_mem_head? hc))
    (fun c hc => n.solid_chars c (List.mem_of_mem_getLast? hc))

theorem trim_number (n : Number) : trim n.text = n.text := by
  rw [trim, Number.text, String.toList_ofList, Number.trimChars_chars]

/-- The text of a number has no quotes to take off. -/
theorem unquote_number (n : Number) : unquote n.text = n.text := by
  have hplain : ∀ c ∈ n.text.toList, isBlank c = false ∧ c ≠ '"' ∧ c ≠ '\'' := by
    intro c hc
    rw [Number.text, String.toList_ofList] at hc
    have hnumeral := Number.numeral_chars n c hc
    refine ⟨n.solid_chars c hc, ?_, ?_⟩ <;>
      · rintro rfl
        exact absurd hnumeral (by decide)
  exact unquote_eq_self (fun c hc => hplain c (List.mem_of_mem_head? hc))
    (fun c hc => hplain c (List.mem_of_mem_getLast? hc))

/-! ## The text of an integer as an operand -/

namespace Operand

variable {negative : Bool} {ds : List Char}

theorem sign_signed (hd : WholeDigits ds) :
    sign (Number.signed negative ds) = (negative, ds) := by
  cases negative with
  | true => rfl
  | false =>
    obtain ⟨c, ds, rfl⟩ := List.exists_cons_of_ne_nil hd.ne_nil
    have hdigit := hd.digits c List.mem_cons_self
    change sign (c :: ds) = (false, c :: ds)
    unfold sign
    split
    · rename_i heq
      cases heq
      exact absurd hdigit (by decide)
    · rename_i heq
      cases heq
      exact absurd hdigit (by decide)
    · rfl

/-- Digits alone have no fraction and no exponent. -/
theorem double?_signed (hd : WholeDigits ds) : double? (Number.signed negative ds) =
    some (Double.ofDecimal negative (Nat.ofDigitChars 10 ds 0) 0) := by
  have hends : NoDigit [] := fun _ hc => nomatch hc
  have htake := takeWhile_digits hd.digits hends
  have hdrop := dropWhile_digits hd.digits hends
  rw [List.append_nil] at htake hdrop
  unfold double?
  rw [sign_signed hd]
  dsimp only
  rw [htake, hdrop]
  simp [hd.ne_nil, exponent?]

/-- Unless it has hundreds of digits, a whole number is rounded as it stands. -/
theorem ofDecimal_whole {n : ℕ} (h : (Nat.toDigits 10 n).length ≤ 310) :
    Double.ofDecimal negative n 0 = Double.nearest negative n 1 := by
  unfold Double.ofDecimal
  dsimp only
  split
  · rename_i hn
    rw [hn]
    rfl
  · rw [if_neg (by omega), if_neg (by omega), if_pos le_rfl, Int.toNat_zero, Nat.pow_eq,
      Nat.pow_zero, Nat.mul_one]

/-- The text of an integer reads as the nearest binary64 number, and that is finite. -/
theorem number?_int (i : Int64) :
    number? (Number.int i).text = some (Double.ofInt i.toInt) := by
  have hbound : i.toInt.natAbs ≤ 2 ^ 63 := by
    have hlow := i.le_toInt
    have hhigh := i.toInt_lt
    omega
  have hlength : (Nat.toDigits 10 i.toInt.natAbs).length ≤ 19 :=
    (Nat.length_toDigits_le_iff (by decide) (by decide)).mpr (by omega)
  have hread : double? (Number.int i).chars = some (Double.ofInt i.toInt) := by
    change double? (Number.signed _ (Nat.toDigits 10 i.toInt.natAbs)) = _
    rw [double?_signed (wholeDigits_toDigits _), Nat.ofDigitChars_ten_toDigits,
      ofDecimal_whole (by omega), Double.ofInt]
  rw [number?, Number.text, String.toList_ofList, Number.trimChars_chars, hread]
  exact Option.filter_some_pos (Double.isFinite_ofInt hbound)

end Operand

/-! ## Comparing two integers -/

def Operator.relates : Operator → ℤ → ℤ → Bool
  | greaterOrEqual, a, b => a ≥ b
  | lessOrEqual, a, b => a ≤ b
  | equal, a, b => a = b
  | assigned, a, b => a = b
  | notEqual, a, b => a ≠ b
  | greater, a, b => a > b
  | less, a, b => a < b
  | contains, _, _ => false

theorem Operator.accepts_compare (op : Operator) (a b : ℤ) :
    op.accepts (compare a b) = op.relates a b := by
  cases op <;>
    simp only [accepts, relates, bne, beq_eq_decide, compare_lt_iff_lt, compare_gt_iff_gt,
      compare_eq_iff_eq, ge_iff_le, gt_iff_lt, ne_eq, ← not_lt, decide_not]

/-- Rounded integers compare as they did, or are equal. -/
theorem compare_ofInt (a b : ℤ) :
    compare (Double.ofInt a).orderKey (Double.ofInt b).orderKey =
      if Double.ofInt a = Double.ofInt b then .eq else compare a b := by
  split
  · rename_i hsame
    rw [hsame]
    exact compare_eq_iff_eq.mpr rfl
  · rename_i hdiffer
    have hkeys := mt Double.orderKey_ofInt_inj.mp hdiffer
    rcases lt_trichotomy a b with h | h | h
    · rw [compare_lt_iff_lt.mpr h, compare_lt_iff_lt]
      exact lt_of_le_of_ne (Double.orderKey_ofInt_mono h.le) hkeys
    · exact absurd (congrArg Double.ofInt h) hdiffer
    · rw [compare_gt_iff_gt.mpr h, compare_gt_iff_gt]
      exact lt_of_le_of_ne (Double.orderKey_ofInt_mono h.le) (Ne.symm hkeys)

section

variable {op : Operator}

/-- Operators judge integers by the numbers that they are rounded to. -/
theorem evaluate_integers (m : Matching) (h : op ≠ .contains) (i j : Int64) :
    evaluate m op (Number.int j).text (.num (.int i)) =
      if Double.ofInt i.toInt = Double.ofInt j.toInt then op.isReflexive
      else op.relates i.toInt j.toInt := by
  have hcompared : comparison m op.testsEquality (Number.int j).text (.num (.int i)) =
      compare (Double.ofInt i.toInt).orderKey (Double.ofInt j.toInt).orderKey := by
    unfold comparison
    dsimp only
    rw [Json.stringForm, trim_number, unquote_number, Operand.number?_int, Operand.number?_int]
  rw [evaluate_eq h, hcompared, compare_ofInt, apply_ite op.accepts, Operator.accepts_eq h,
    Operator.accepts_compare]

/-- An operator says of an integer field and the text of an integer what holds of the integers if
and only if they are rounded to different numbers or it holds of equal integers as well. The first
is sure of different integers of at most `2 ^ 53`. -/
theorem integers_compared_exactly_iff (m : Matching) (h : op ≠ .contains) (i j : Int64) :
    (evaluate m op (Number.int j).text (.num (.int i)) = op.relates i.toInt j.toInt ↔
      (Double.ofInt i.toInt = Double.ofInt j.toInt →
        op.relates i.toInt j.toInt = op.isReflexive)) ∧
    (i.toInt.natAbs ≤ 2 ^ 53 → j.toInt.natAbs ≤ 2 ^ 53 →
      evaluate m op (Number.int j).text (.num (.int i)) = op.relates i.toInt j.toInt) := by
  have hiff : evaluate m op (Number.int j).text (.num (.int i)) = op.relates i.toInt j.toInt ↔
      (Double.ofInt i.toInt = Double.ofInt j.toInt →
        op.relates i.toInt j.toInt = op.isReflexive) := by
    rw [evaluate_integers m h]
    split
    · rename_i hsame
      exact ⟨fun heq _ => heq.symm, fun heq => (heq hsame).symm⟩
    · rename_i hdiffer
      exact ⟨fun _ hsame => absurd hsame hdiffer, fun _ => rfl⟩
  refine ⟨hiff, fun hi hj => hiff.mpr fun hsame => ?_⟩
  have hequal : i.toInt = j.toInt := Double.ofInt_inj hi hj hsame
  rw [hequal, ← Operator.accepts_compare, compare_eq_iff_eq.mpr rfl, Operator.accepts_eq h]

/-- The two largest integers within the bound are told apart. -/
theorem largest_integers_apart : Operator.less ≠ .contains ∧
    evaluate ⟨true, 2⟩ .less "9007199254740992" (.num (.int 9007199254740991)) = true :=
  ⟨by decide, (integers_compared_exactly_iff ⟨true, 2⟩ (by decide) 9007199254740991
    9007199254740992).2 (by decide) (by decide)⟩

/-- The first integer beyond the bound is taken for equal to the last one within it. -/
theorem neighbouring_integers_equal :
    evaluate ⟨false, 2⟩ .equal (Number.int 9007199254740992).text
      (.num (.int 9007199254740993)) = true ∧
    Operator.equal.relates (9007199254740993 : Int64).toInt (9007199254740992 : Int64).toInt =
      false := by
  decide +kernel

end

end JsonInspect
