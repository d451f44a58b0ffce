import JsonInspect.Proofs.Json.RoundTrip
import Mathlib.Data.List.TakeWhile

/-! # How far a number reaches

A number that is read is a part of the text without blanks, and it is read the same before any
other text that does not continue it (`number_local`). -/

namespace JsonInspect.Json

def EndsSolid (cs : List Char) : Prop := ∃ front c, cs = front ++ [c] ∧ isBlank c = false

theorem EndsSolid.append {cs : List Char} (front : List Char) (h : EndsSolid cs) :
    EndsSolid (front ++ cs) := by
  obtain ⟨rest, c, rfl, hc⟩ := h
  exact ⟨front ++ rest, c, (List.append_assoc ..).symm, hc⟩

theorem endsSolid_of_solid {cs : List Char} (hne : cs ≠ []) (h : Number.Solid cs) :
    EndsSolid cs :=
  ⟨cs.dropLast, cs.getLast hne, (List.dropLast_append_getLast hne).symm,
    h _ (List.getLast_mem hne)⟩

theorem solid_of_digits {ds : List Char} (h : Digits ds) : Number.Solid ds :=
  fun c hc => isBlank_of_isDigit (h c hc)

/-! ## Digits -/

section

variable {cs ds rest : List Char}

theorem digits_nil : Digits [] := fun _ h => absurd h List.not_mem_nil

theorem noDigit_nil : NoDigit [] := fun c h => absurd h (Option.not_mem_none c)

theorem digits_takeWhile (cs : List Char) : Digits (cs.takeWhile Char.isDigit) :=
  fun _ hc => List.mem_takeWhile_imp hc

theorem wholeDigits_inv (h : wholeDigits cs = .ok (ds, rest)) :
    cs = ds ++ rest ∧ WholeDigits ds := by
  unfold wholeDigits at h
  split at h
  · cases h
  · split at h
    · cases h
    · cases h
      refine ⟨rfl, List.cons_ne_nil _ _, ?_, fun _ => rfl⟩
      intro c hc
      rw [List.mem_singleton.mp hc]
      rfl
  · rename_i c tail hzero
    split at h
    · rename_i hc
      cases h
      refine ⟨by rw [List.cons_append, List.takeWhile_append_dropWhile], List.cons_ne_nil _ _,
        List.forall_mem_cons.mpr ⟨hc, digits_takeWhile tail⟩, fun h0 => ?_⟩
      -- A zero with more of the text behind it was the case before.
      obtain rfl := Option.some.inj h0
      cases tail with
      | nil => rfl
      | cons x tail => exact absurd rfl (hzero x tail rfl)
    · cases h

theorem fractionDigits_inv (h : fractionDigits cs = .ok (ds, rest)) :
    cs = ds ++ rest ∧ ds ≠ [] ∧ Digits ds := by
  unfold fractionDigits at h
  split at h
  · cases h
  · rename_i c tail
    split at h
    · rename_i hc
      cases h
      refine ⟨List.takeWhile_append_dropWhile.symm, ?_, digits_takeWhile _⟩
      rw [List.takeWhile_cons, hc]
      exact List.cons_ne_nil _ _
    · cases h

/-- The digits of an exponent are read the same before anything but another digit. -/
theorem exponentDigits_local {bounded : Bool} {n m : Nat}
    (h : exponentDigits bounded n cs = .ok (m, rest)) :
    ∃ ds, cs = ds ++ rest ∧ Digits ds ∧ NoDigit rest ∧
      ∀ other, NoDigit other → exponentDigits bounded n (ds ++ other) = .ok (m, other) := by
  have hstop : ∀ n other, NoDigit other → exponentDigits bounded n other = .ok (n, other) := by
    intro n other ho
    cases other with
    | nil => rfl
    | cons c other => rw [exponentDigits, ho c rfl]; rfl
  induction cs generalizing n with
  | nil =>
    cases h
    exact ⟨[], rfl, digits_nil, noDigit_nil, hstop m⟩
  | cons c cs ih =>
    rw [exponentDigits] at h
    split at h
    · rename_i hc
      dsimp only at h
      split at h
      · cases h
      · rename_i hsmall
        obtain ⟨ds, rfl, hds, hrest, hread⟩ := ih h
        refine ⟨c :: ds, rfl, List.forall_mem_cons.mpr ⟨hc, hds⟩, hrest, fun other ho => ?_⟩
        rw [List.cons_append, exponentDigits, if_pos hc]
        dsimp only
        rw [if_neg hsmall]
        exact hread other ho
    · rename_i hc
      cases h
      exact ⟨[], rfl, digits_nil, noDigit_cons (Bool.eq_false_iff.mpr hc), hstop m⟩

/-- A sign is taken again in front of a digit. -/
theorem sign_local (cs : List Char) :
    ∃ mark, cs = mark ++ (Operand.sign cs).2 ∧ Number.Solid mark ∧
      ∀ c tail, c.isDigit = true →
        Operand.sign (mark ++ c :: tail) = ((Operand.sign cs).1, c :: tail) := by
  unfold Operand.sign
  split
  · exact ⟨['+'], rfl, Number.solid_nil.cons rfl, fun _ _ _ => rfl⟩
  · exact ⟨['-'], rfl, Number.solid_nil.cons rfl, fun _ _ _ => rfl⟩
  · refine ⟨[], rfl, Number.solid_nil, fun c tail hc => ?_⟩
    rw [List.nil_append]
    split
    · rename_i h
      rw [(List.cons.inj h).1] at hc
      cases hc
    · rename_i h
      rw [(List.cons.inj h).1] at hc
      cases hc
    · rfl

theorem exponent_local {isZero : Bool} {e : Int} (h : exponent isZero cs = .ok (e, rest)) :
    ∃ part, cs = part ++ rest ∧ Number.Solid part ∧
      ∀ other, NoDigit other → exponent isZero (part ++ other) = .ok (e, other) := by
  obtain ⟨mark, hcs, hmark, hsign⟩ := sign_local cs
  unfold exponent at h
  dsimp only at h
  split at h
  · cases h
  · rename_i c tail htail
    split at h
    · rename_i hc
      obtain ⟨⟨n, mid⟩, hdigits, h⟩ := bind_eq_ok.mp h
      cases h
      obtain ⟨ds, hds, hdigit, hrest, hread⟩ := exponentDigits_local hdigits
      rw [htail, hds] at hcs
      obtain ⟨ds, rfl⟩ : ∃ ds', ds = c :: ds' := by
        cases ds with
        | nil =>
          rw [List.nil_append] at hds
          rw [hrest c (by rw [← hds]; rfl)] at hc
          cases hc
        | cons d ds => exact ⟨ds, by rw [(List.cons.inj hds).1]⟩
      refine ⟨mark ++ c :: ds, by rw [hcs, List.append_assoc],
        hmark.append (solid_of_digits hdigit), fun other ho => ?_⟩
      unfold exponent
      rw [List.append_assoc, List.cons_append, hsign c _ hc]
      dsimp only
      rw [if_pos hc, ← List.cons_append, hread other ho]
      rfl
    · cases h

end

/-! ## Numbers -/

section

variable {cs rest : List Char} {n : Number}

theorem finiteNumber_local {d : Double} (h : finiteNumber d cs = .ok (n, rest)) :
    rest = cs ∧ ∀ other, finiteNumber d other = .ok (n, other) := by
  unfold finiteNumber at h ⊢
  split at h
  · rename_i hd
    cases h
    exact ⟨rfl, fun other => if_pos hd⟩
  · cases h

theorem wholeNumber_local {negative : Bool} {digits : List Char}
    (h : wholeNumber negative digits cs = .ok (n, rest)) :
    rest = cs ∧ ∀ other, wholeNumber negative digits other = .ok (n, other) := by
  unfold wholeNumber at h ⊢
  dsimp only at h ⊢
  generalize (if negative = true then -((Nat.ofDigitChars 10 digits 0 : Nat) : Int)
    else Nat.ofDigitChars 10 digits 0) = i at h ⊢
  split at h
  · rename_i hi
    cases h
    exact ⟨rfl, fun other => if_pos hi⟩
  · rename_i hi
    obtain ⟨hrest, hread⟩ := finiteNumber_local h
    exact ⟨hrest, fun other => (if_neg hi).trans (hread other)⟩

/-- The text does not continue digits that may have a point behind them. -/
def EndsDigits (rest : List Char) : Prop := ∀ c ∈ rest.head?, c.isDigit = false ∧ c ≠ '.'

/-- What a number has after its digits: an exponent or nothing. -/
theorem scaledNumber_local {negative : Bool} {whole fraction : List Char}
    (h : scaledNumber negative whole fraction cs = .ok (n, rest)) :
    ∃ part, cs = part ++ rest ∧ Number.Solid part ∧
      ∀ other, EndsNumber other → EndsDigits (part ++ other) ∧
        scaledNumber negative whole fraction (part ++ other) = .ok (n, other) := by
  have hends : ∀ other : List Char, EndsNumber other → EndsDigits other :=
    fun other ho c hc => ⟨(ho c hc).1, (ho c hc).2.1⟩
  have hplain : ∀ {n : Number} {cs rest : List Char},
      (if fraction.isEmpty then wholeNumber negative whole cs
        else finiteNumber (nearestDouble negative whole fraction 0) cs) = .ok (n, rest) →
      rest = cs ∧ ∀ other, EndsNumber other →
        scaledNumber negative whole fraction other = .ok (n, other) := by
    intro n cs rest h
    split at h
    · rename_i hf
      obtain ⟨hrest, hread⟩ := wholeNumber_local h
      exact ⟨hrest, fun other ho => by rw [scaledNumber_ends ho, if_pos hf, hread other]⟩
    · rename_i hf
      obtain ⟨hrest, hread⟩ := finiteNumber_local h
      exact ⟨hrest, fun other ho => by rw [scaledNumber_ends ho, if_neg hf, hread other]⟩
  unfold scaledNumber at h
  dsimp only at h
  split at h
  · rename_i c tail
    split at h
    · rename_i hc
      obtain ⟨⟨e, mid⟩, he, h⟩ := bind_eq_ok.mp h
      obtain ⟨rfl, hread⟩ := finiteNumber_local h
      obtain ⟨part, rfl, hpart, hexponent⟩ := exponent_local he
      have hsolid : isBlank c = false ∧ c.isDigit = false ∧ c ≠ '.' := by
        rcases hc with rfl | rfl <;> decide
      refine ⟨c :: part, rfl, hpart.cons hsolid.1, fun other ho => ⟨?_, ?_⟩⟩
      · intro x hx
        obtain rfl := Option.some.inj hx
        exact hsolid.2
      · unfold scaledNumber
        dsimp only [List.cons_append]
        rw [if_pos hc, hexponent other ho.noDigit]
        exact hread other
    · obtain ⟨rfl, hread⟩ := hplain h
      exact ⟨[], rfl, Number.solid_nil, fun other ho => ⟨hends other ho, hread other ho⟩⟩
  · obtain ⟨rfl, hread⟩ := hplain h
    exact ⟨[], rfl, Number.solid_nil, fun other ho => ⟨hends other ho, hread other ho⟩⟩

theorem fractionPart_local {digits : List Char} (h : fractionPart cs = .ok (digits, rest)) :
    ∃ part, cs = part ++ rest ∧ Number.Solid part ∧
      ∀ other, EndsDigits other → NoDigit (part ++ other) ∧
        fractionPart (part ++ other) = .ok (digits, other) := by
  unfold fractionPart at h
  split at h
  · obtain ⟨rfl, hne, hdigits⟩ := fractionDigits_inv h
    refine ⟨'.' :: digits, rfl, (solid_of_digits hdigits).cons rfl, fun other ho => ?_⟩
    exact ⟨noDigit_cons rfl, fractionDigits_append hne hdigits fun c hc => (ho c hc).1⟩
  · cases h
    exact ⟨[], rfl, Number.solid_nil, fun other ho =>
      ⟨fun c hc => (ho c hc).1, fractionPart_none fun c hc => (ho c hc).2⟩⟩

/-- What a minus sign was taken from is what it is written in front of. -/
theorem signed_minus (cs : List Char) : Number.signed (minus cs).1 (minus cs).2 = cs := by
  unfold minus
  split <;> rfl

theorem number_local (h : number cs = .ok (n, rest)) :
    ∃ part, cs = part ++ rest ∧ EndsSolid part ∧
      ∀ other, EndsNumber other → number (part ++ other) = .ok (n, other) := by
  obtain ⟨⟨whole, mid⟩, hwhole, h⟩ := bind_eq_ok.mp h
  obtain ⟨⟨fraction, tail⟩, hfraction, hscaled⟩ := bind_eq_ok.mp h
  obtain ⟨(hmid : (minus cs).2 = whole ++ mid), hdigits⟩ := wholeDigits_inv hwhole
  obtain ⟨point, hpoint, hsolidPoint, hreadPoint⟩ := fractionPart_local hfraction
  obtain ⟨part, htail, hsolidPart, hreadScale⟩ := scaledNumber_local hscaled
  have hcs := signed_minus cs
  have hsigned : ∀ back, Number.signed (minus cs).1 (whole ++ back) =
      Number.signed (minus cs).1 whole ++ back := by
    cases (minus cs).1 <;> exact fun _ => rfl
  have hsolid : Number.Solid (Number.signed (minus cs).1 whole) :=
    (solid_of_digits hdigits.digits).signed _
  refine ⟨Number.signed (minus cs).1 whole ++ (point ++ part), ?_, endsSolid_of_solid ?_
    (hsolid.append (hsolidPoint.append hsolidPart)), fun other ho => ?_⟩
  · conv_lhs => rw [← hcs]
    rw [hmid, hsigned, hpoint, htail]
    simp only [List.append_assoc]
  · have hne : Number.signed (minus cs).1 whole ≠ [] := by
      cases (minus cs).1
      · exact hdigits.ne_nil
      · exact List.cons_ne_nil _ _
    exact List.append_ne_nil_of_left_ne_nil hne _
  · obtain ⟨hends, hscaled⟩ := hreadScale other ho
    obtain ⟨hplain, hpoint⟩ := hreadPoint _ hends
    rw [List.append_assoc, List.append_assoc, number_signed hdigits hplain, hpoint]
    exact hscaled

end

end JsonInspect.Json
