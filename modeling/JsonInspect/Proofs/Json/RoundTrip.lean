import JsonInspect.Proofs.Json.Accepted
import JsonInspect.Proofs.Text.Trim

/-! # Reading the indented and the compact text back

The texts of a value have no blank at their ends, so nothing is trimmed, and the whole of a text
is the one value that it was written for (`parse_write`). Reading changes nothing but the
representation of whole numbers (`Number.KeepsValues`). -/

namespace JsonInspect

open Json

/-! ## Nothing to trim -/

theorem isBlank_of_isDigit {c : Char} (h : c.isDigit = true) : isBlank c = false := by
  have hrange : 48 ≤ c.toNat ∧ c.toNat ≤ 57 := by
    simpa [Char.isDigit, UInt32.le_iff_toNat_le] using h
  simp [isBlank, blankRanges]
  omega

namespace Number

def Solid (cs : List Char) : Prop := ∀ c ∈ cs, isBlank c = false

theorem Solid.append {front back : List Char} (hf : Solid front) (hb : Solid back) :
    Solid (front ++ back) := fun c hc =>
  (List.mem_append.mp hc).elim (hf c) (hb c)

theorem Solid.cons {c : Char} {cs : List Char} (hc : isBlank c = false) (h : Solid cs) :
    Solid (c :: cs) := List.forall_mem_cons.mpr ⟨hc, h⟩

theorem solid_nil : Solid [] := fun _ h => nomatch h

theorem Solid.signed {digits : List Char} (negative : Bool) (h : Solid digits) :
    Solid (signed negative digits) := by
  cases negative with
  | true => exact h.cons rfl
  | false => exact h

theorem IsNumeral.not_blank {c : Char} (h : IsNumeral c) : isBlank c = false := by
  rcases h with h | h
  · exact isBlank_of_isDigit h
  · have hmarks : (['-', '+', '.', 'e', 'n', 'u', 'l'].all fun c => !isBlank c) = true := by decide
    simpa using List.all_eq_true.mp hmarks c h

/-- The text of a number has no blank. -/
theorem solid_chars (n : Number) : Solid n.chars := fun c hc => (numeral_chars n c hc).not_blank

end Number

namespace Json

theorem StartsValue.not_blank {c : Char} (h : StartsValue c) : isBlank c = false := by
  rcases h with rfl | rfl | rfl | rfl | h | rfl | rfl | rfl
  case inr.inr.inr.inr.inl => exact isBlank_of_isDigit h
  all_goals decide

section

variable (layout : Layout) (depth : Nat)

/-- The text of a value does not end in a blank. -/
theorem write_ends (v : Json) : ∀ c ∈ (v.write layout depth).getLast?, isBlank c = false := by
  have hclosing : ∀ (front : List Char) {mark : Char}, isBlank mark = false →
      ∀ c ∈ (front ++ [mark]).getLast?, isBlank c = false := by
    intro front mark hmark c hc
    rw [List.getLast?_concat] at hc
    rw [← Option.some.inj hc]
    exact hmark
  cases v with
  | null => rw [write_null]; exact hclosing ['n', 'u', 'l'] rfl
  | bool b =>
    rw [write_bool]
    cases b
    · exact hclosing ['f', 'a', 'l', 's'] rfl
    · exact hclosing ['t', 'r', 'u'] rfl
  | num n =>
    rw [write_num]
    intro c hc
    exact Number.solid_chars n c (List.mem_of_mem_getLast? hc)
  | str s => rw [write_str]; exact hclosing ('"' :: Quoted.escape s.toList) rfl
  | arr items =>
    cases items with
    | nil => rw [write_arr_nil]; exact hclosing ['['] rfl
    | cons item rest =>
      rw [write_arr_cons, ← List.cons_append]
      exact hclosing _ rfl
  | obj entries =>
    cases entries with
    | nil => rw [write_obj_nil]; exact hclosing ['\x7b'] rfl
    | cons e rest =>
      rw [write_obj_cons, ← List.cons_append]
      exact hclosing _ rfl

end

section

variable {v : Json} {layout : Layout}

theorem trimChars_write (layout : Layout) (hw : v.wellFormed = true) :
    trimChars (v.write layout 0) = v.write layout 0 := by
  obtain ⟨c, cs, hcs, hstart⟩ := write_starts layout 0 hw
  refine trimChars_eq_self (fun x hx => ?_) (write_ends layout 0 v)
  rw [hcs] at hx
  rw [← Option.some.inj hx]
  exact hstart.not_blank

/-- The text of a value in any spaced layout reads back as the value with its numbers reread,
and is refused only for its depth. -/
theorem parse_write (hl : layout.Spaced) (hw : v.wellFormed = true) {w : Json} :
    parse (String.ofList (v.write layout 0)) = .ok w ↔ v.depth ≤ greatestDepth ∧ w = v.reread := by
  have hread : ∀ n, v.depth ≤ n → value n (v.write layout 0) = .ok (v.reread, []) := by
    intro n hn
    have h := value_write hl hw hn 0 [] fun _ h => nomatch h
    rwa [List.append_nil] at h
  rw [parse_eq_ok, String.toList_ofList, trimChars_write layout hw, document_eq_ok]
  constructor
  · rintro ⟨rest, hvalue, -⟩
    -- With depth enough for `v` the reader gives the same, so what was read is `v` reread.
    have hmore := value_mono (Nat.le_max_left greatestDepth v.depth) hvalue
    rw [hread _ (Nat.le_max_right greatestDepth v.depth)] at hmore
    cases hmore
    have hfits := (value_refines greatestDepth _ _ _ hvalue).2
    rw [Fits, depth_reread] at hfits
    exact ⟨hfits.2, rfl⟩
  · rintro ⟨hd, rfl⟩
    exact ⟨[], hread greatestDepth hd, rfl⟩

theorem parse_pretty_iff (width : Nat) (hw : v.wellFormed = true) {w : Json} :
    parse (v.pretty width) = .ok w ↔ v.depth ≤ greatestDepth ∧ w = v.reread := by
  rw [pretty_eq]
  exact parse_write (Layout.indented_spaced width) hw

theorem parse_pretty (width : Nat) (hw : v.wellFormed = true) (hd : v.depth ≤ greatestDepth) :
    parse (v.pretty width) = .ok v.reread :=
  (parse_pretty_iff width hw).mpr ⟨hd, rfl⟩

theorem parse_compact (hw : v.wellFormed = true) (hd : v.depth ≤ greatestDepth) :
    parse v.compact = .ok v.reread := by
  rw [compact_eq]
  exact (parse_write Layout.compact_spaced hw).mpr ⟨hd, rfl⟩

end

end Json

/-! ## The round trip -/

/-- What reading a text does to the numbers that were written: integers stay, a whole binary64
number becomes the same integer if 64 bits hold it, and every other one stays. -/
structure Number.KeepsValues (f : Number → Number) : Prop where
  value : ∀ n, (f n).toRat = n.toRat
  int : ∀ i, f (.int i) = .int i
  whole : ∀ d i, d.whole? = some i → FitsInt64 i → ∃ k, f (.double d) = .int k ∧ k.toInt = i
  wide : ∀ d i, d.whole? = some i → ¬ FitsInt64 i → f (.double d) = .double d
  fraction : ∀ d, d.whole? = none → f (.double d) = .double d

theorem Number.reread_keepsValues : Number.KeepsValues Number.reread where
  value := Number.toRat_reread
  int := fun _ => rfl
  whole := fun _ i hd hi =>
    ⟨Int64.ofInt i, Number.reread_double_of_fits hd hi, toInt_ofInt hi⟩
  wide := fun d i hd hi => Number.reread_double_of_not_fits fun j hj => by
    rw [hd] at hj
    rwa [← Option.some.inj hj]
  fraction := fun d hd => Number.reread_double_of_not_fits fun j hj => by
    rw [hd] at hj
    cases hj

namespace Json

/-- The indented and the compact text of a value both read back as that value with another
representation of its numbers at most, which is equal to it and has the same texts. -/
theorem written_text_reads_back (v : Json) (width : Nat) (hw : v.wellFormed = true)
    (hd : v.depth ≤ 127) :
    ∃ f, Number.KeepsValues f ∧
      parse (v.pretty width) = .ok (v.mapNumbers f) ∧ parse v.compact = .ok (v.mapNumbers f) ∧
      (v.mapNumbers f).same v = true ∧
      (v.mapNumbers f).pretty width = v.pretty width ∧ (v.mapNumbers f).compact = v.compact :=
  ⟨Number.reread, Number.reread_keepsValues, parse_pretty width hw hd, parse_compact hw hd,
    same_reread hw, pretty_reread v width, compact_reread v⟩

/-- A value with both zeros, the ends of the integers, numbers beyond them, escapes and empty
containers. -/
def mixedSample : Json :=
  .obj [("", .arr [.num (.double (.zero false)), .num (.double (.zero true)),
      .num (.int Int64.minValue), .num (.int Int64.maxValue)]),
    ("wide \"\\\n\x01", .arr [.num (.double (.ofBits 0x43E0000000000000)),
      .num (.double (.ofBits 0x444B1AE4D6E2EF50)), .num (.double (.ofBits 0x3FB999999999999A))]),
    ("nested", .obj [("a", .arr []), ("b", .obj []), ("c", .str "\t\x7f\u00e9")]),
    ("rest", .arr [.null, .bool true, .bool false])]

theorem mixedSample_reads_back : mixedSample.wellFormed = true ∧ mixedSample.depth ≤ 127 ∧
    ∃ f, Number.KeepsValues f ∧
      parse (mixedSample.pretty 2) = .ok (mixedSample.mapNumbers f) ∧
      parse mixedSample.compact = .ok (mixedSample.mapNumbers f) ∧
      (mixedSample.mapNumbers f).same mixedSample = true ∧
      (mixedSample.mapNumbers f).pretty 2 = mixedSample.pretty 2 ∧
      (mixedSample.mapNumbers f).compact = mixedSample.compact :=
  ⟨by decide, by decide, written_text_reads_back mixedSample 2 (by decide) (by decide)⟩

end Json

end JsonInspect
