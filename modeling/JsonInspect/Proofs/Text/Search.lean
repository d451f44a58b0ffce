import JsonInspect.Text.Search
import Mathlib.Data.List.Infix

/-! # Where a text stands in another one

A search finds what stands in a text in one piece (`occursIn_iff`), and a text is broken at the
leftmost of the places where another one stands in it (`breakAt?_eq_some_iff`). -/

namespace JsonInspect

variable {needle cs before after front back : List Char}

theorem occursIn_iff : occursIn needle cs = true ↔ needle <:+: cs := by
  induction cs with
  | nil => simp [occursIn]
  | cons c rest ih =>
    rw [occursIn, Bool.or_eq_true, List.isPrefixOf_iff_prefix, ih, List.infix_cons_iff]

/-- A text of at most two characters stands in one of two texts, or one character of it ends the
first text and the other one starts the second. -/
theorem infix_append_iff_meets (hlen : needle.length ≤ 2) : needle <:+: front ++ back ↔
    needle <:+: front ∨ needle <:+: back ∨
      ∃ c ∈ front.getLast?, ∃ d ∈ back.head?, needle = [c, d] := by
  rw [List.infix_append_iff]
  constructor
  · rintro (h | h | ⟨left, right, rfl, hleft, hright⟩)
    · exact .inl h
    · exact .inr (.inl h)
    · match left, right with
      | [], right => exact .inr (.inl hright.isInfix)
      | left, [] =>
        rw [List.append_nil]
        exact .inl hleft.isInfix
      | c :: left, d :: right =>
        rw [List.length_append, List.length_cons, List.length_cons] at hlen
        obtain rfl : left = [] := List.eq_nil_of_length_eq_zero (by omega)
        obtain rfl : right = [] := List.eq_nil_of_length_eq_zero (by omega)
        obtain ⟨front, rfl⟩ := hleft
        obtain ⟨back, rfl⟩ := hright
        exact .inr (.inr ⟨c, by simp, d, by simp, rfl⟩)
  · rintro (h | h | ⟨c, hc, d, hd, rfl⟩)
    · exact .inl h
    · exact .inr (.inl h)
    · obtain ⟨front, rfl⟩ := List.getLast?_eq_some_iff.mp hc
      obtain ⟨back, rfl⟩ := List.head?_eq_some_iff.mp hd
      exact .inr (.inr ⟨[c], [d], rfl, List.suffix_append front [c], List.prefix_append [d] back⟩)

/-! ## Breaking a text -/

/-- What stands before and after the leftmost occurrence of a text. -/
structure Leftmost (needle cs before after : List Char) : Prop where
  eq_append : cs = before ++ (needle ++ after)
  le_length : ∀ before' after', cs = before' ++ (needle ++ after') →
    before.length ≤ before'.length

namespace Leftmost

theorem isInfix (h : Leftmost needle cs before after) : needle <:+: cs :=
  ⟨before, after, by rw [h.eq_append, List.append_assoc]⟩

theorem unique {before' after' : List Char} (h : Leftmost needle cs before after)
    (h' : Leftmost needle cs before' after') : before = before' ∧ after = after' := by
  have hlength : before.length = before'.length :=
    Nat.le_antisymm (h.le_length _ _ h'.eq_append) (h'.le_length _ _ h.eq_append)
  obtain ⟨hbefore, hrest⟩ := List.append_inj (h.eq_append.symm.trans h'.eq_append) hlength
  exact ⟨hbefore, List.append_cancel_left hrest⟩

/-- One character further left nothing is found. -/
theorem cons {c : Char} (h : Leftmost needle cs before after) (hc : ¬ needle <+: c :: cs) :
    Leftmost needle (c :: cs) (c :: before) after where
  eq_append := by rw [h.eq_append, List.cons_append]
  le_length before' after' heq := by
    cases before' with
    | nil => exact absurd ⟨after', heq.symm⟩ hc
    | cons d before' =>
      rw [List.cons_append, List.cons.injEq] at heq
      exact Nat.succ_le_succ (h.le_length before' after' heq.2)

end Leftmost

/-- Between two texts another one is leftmost if it does not start within the first of them. -/
theorem leftmost_append_iff (hne : needle ≠ []) :
    Leftmost needle (before ++ (needle ++ after)) before after ↔
      ¬ needle <:+: before ++ needle.dropLast := by
  have hlen : needle.dropLast.length + 1 = needle.length := by
    rw [List.length_dropLast, Nat.sub_add_cancel (List.length_pos_iff.mpr hne)]
  constructor
  · rintro h ⟨before', after', heq⟩
    have hcut : before ++ (needle ++ after) =
        before' ++ (needle ++ (after' ++ ([needle.getLast hne] ++ after))) :=
      calc before ++ (needle ++ after)
        _ = before ++ (needle.dropLast ++ [needle.getLast hne] ++ after) := by
          rw [List.dropLast_concat_getLast hne]
        _ = (before' ++ needle ++ after') ++ ([needle.getLast hne] ++ after) := by
          rw [heq, List.append_assoc, List.append_assoc]
        _ = _ := by simp only [List.append_assoc]
    have hle := h.le_length _ _ hcut
    have hlength := congrArg List.length heq
    simp only [List.length_append] at hlength
    omega
  · intro h
    refine ⟨rfl, fun before' after' heq => Nat.le_of_not_lt fun hlt => h ?_⟩
    -- What starts further left ends before the last character of the one between.
    have hfound : before' ++ needle <+: before ++ (needle ++ after) :=
      ⟨after', by rw [heq, List.append_assoc]⟩
    have hrest : before ++ needle.dropLast <+: before ++ (needle ++ after) :=
      (List.prefix_append_right_inj before).mpr
        ((List.dropLast_prefix needle).trans (List.prefix_append needle after))
    have hprefix := List.prefix_of_prefix_length_le hfound hrest (by
      simp only [List.length_append]
      omega)
    exact (List.suffix_append before' needle).isInfix.trans hprefix.isInfix

theorem breakAt?_eq_none_iff : breakAt? needle cs = none ↔ ¬ needle <:+: cs := by
  induction cs with
  | nil => simp [breakAt?]
  | cons c rest ih =>
    rw [breakAt?, List.infix_cons_iff, ← List.isPrefixOf_iff_prefix]
    split
    · rename_i hstarts
      simp [hstarts]
    · rename_i hstarts
      simp [hstarts, ih]

theorem leftmost_of_breakAt? (h : breakAt? needle cs = some (before, after)) :
    Leftmost needle cs before after := by
  induction cs generalizing before with
  | nil =>
    rw [breakAt?, Option.ite_none_right_eq_some, List.isEmpty_iff] at h
    obtain ⟨rfl, heq⟩ := h
    cases heq
    exact ⟨rfl, fun _ _ _ => Nat.zero_le _⟩
  | cons c rest ih =>
    rw [breakAt?] at h
    split at h
    · rename_i hstarts
      obtain ⟨tail, htail⟩ := List.isPrefixOf_iff_prefix.mp hstarts
      rw [← htail, List.drop_left] at h
      cases h
      exact ⟨htail.symm, fun _ _ _ => Nat.zero_le _⟩
    · rename_i hstarts
      obtain ⟨⟨before, after⟩, hrest, heq⟩ := Option.map_eq_some_iff.mp h
      cases heq
      exact (ih hrest).cons (mt List.isPrefixOf_iff_prefix.mpr hstarts)

theorem breakAt?_eq_some_iff :
    breakAt? needle cs = some (before, after) ↔ Leftmost needle cs before after := by
  refine ⟨leftmost_of_breakAt?, fun h => ?_⟩
  cases hbreak : breakAt? needle cs with
  | none => exact absurd h.isInfix (breakAt?_eq_none_iff.mp hbreak)
  | some parts =>
    obtain ⟨hbefore, hafter⟩ := (leftmost_of_breakAt? hbreak).unique h
    rw [← hbefore, ← hafter]

end JsonInspect
