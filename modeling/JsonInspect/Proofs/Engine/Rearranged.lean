import JsonInspect.Proofs.Engine.Palette
import Mathlib.Data.List.Sort

/-! # The palette of a rearranged document

A document is rearranged by giving the entries of its objects and the elements of its arrays other
places, anywhere in it and in many places at once. What a palette lists is found in any order of the
parts, and it is listed in an order of its own, so a document and a rearranged one have the same
palette (`Rearranged.ofDocument_eq`), whatever their keys are. -/

namespace JsonInspect

open Json

/-- The second value has the parts of the first in any order, and its parts may be rearranged in
their turn. The pairs say what has become of each part, so nothing is lost and nothing added. -/
inductive Rearranged : Json → Json → Prop
  | refl (v : Json) : Rearranged v v
  | arr {pairs : List (Json × Json)} {items : List Json} :
    (∀ p ∈ pairs, Rearranged p.1 p.2) → (pairs.map Prod.snd).Perm items →
      Rearranged (.arr (pairs.map Prod.fst)) (.arr items)
  | obj {pairs : List (String × Json × Json)} {entries : List (String × Json)} :
    (∀ p ∈ pairs, Rearranged p.2.1 p.2.2) → (pairs.map fun p => (p.1, p.2.2)).Perm entries →
      Rearranged (.obj (pairs.map fun p => (p.1, p.2.1))) (.obj entries)

namespace Rearranged

variable {v w root root' : Json} {depth : Nat} {location text : String}

theorem isArray_eq (h : Rearranged v w) : v.isArray = w.isArray := by
  cases h <;> rfl

/-- What holds of a part is found before and after if it holds of a part and of what has become of
it alike. -/
theorem exists_part {α β : Type} {pairs : List α} {before after : α → β} {parts : List β}
    {P Q : β → Prop} (hperm : (pairs.map after).Perm parts)
    (halike : ∀ p ∈ pairs, P (before p) ↔ Q (after p)) :
    (∃ part ∈ pairs.map before, P part) ↔ ∃ part ∈ parts, Q part := by
  constructor
  · rintro ⟨part, hpart, hP⟩
    obtain ⟨p, hp, rfl⟩ := List.mem_map.mp hpart
    exact ⟨after p, hperm.mem_iff.mp (List.mem_map_of_mem hp), (halike p hp).mp hP⟩
  · rintro ⟨part, hpart, hQ⟩
    obtain ⟨p, hp, rfl⟩ := List.mem_map.mp (hperm.mem_iff.mpr hpart)
    exact ⟨before p, List.mem_map_of_mem hp, (halike p hp).mpr hQ⟩

/-- Rearranging a value leaves the locations below it what they are. -/
theorem mem_below_iff (h : Rearranged v w) :
    text ∈ Palette.below depth location v ↔ text ∈ Palette.below depth location w := by
  induction h generalizing depth location with
  | refl v => exact Iff.rfl
  | arr hparts hperm ih =>
    rw [Palette.below, Palette.below, Palette.mem_belowItems, Palette.mem_belowItems]
    refine exists_part hperm fun p hp => ?_
    rw [(hparts p hp).isArray_eq, ih p hp]
  | obj hparts hperm ih =>
    rw [Palette.below, Palette.below, Palette.mem_belowEntries, Palette.mem_belowEntries]
    refine and_congr_right fun _ => exists_part hperm fun p hp => ?_
    rw [ih p hp]

/-- A document and a rearranged one have the same palette. -/
theorem ofDocument_eq (depth : Nat) (h : Rearranged root root') :
    Palette.ofDocument depth root = Palette.ofDocument depth root' := by
  have hmem : ∀ text, text ∈ Palette.ofDocument depth root ↔
      text ∈ Palette.ofDocument depth root' := by
    intro text
    rw [Palette.ofDocument, Palette.ofDocument, Palette.mem_foldl_insertKey,
      Palette.mem_foldl_insertKey, h.mem_below_iff]
  exact (Palette.ascending_ofDocument depth root).eq_of_mem_iff
    (Palette.ascending_ofDocument depth root') hmem

end Rearranged

/-- Records in which several sequences of keys have one dotted form, with an empty key, a key with a
dot and an array. -/
def sharedForms : Json :=
  .arr [.obj [("a", .obj [("b", .null), ("", .null)]), ("", .arr [.null, .obj [("a", .null)]])],
    .obj [("a.b", .null)]]

def sharedFormsReversed : Json :=
  .arr [.obj [("a.b", .null)],
    .obj [("", .arr [.obj [("a", .null)], .null]), ("a", .obj [("", .null), ("b", .null)])]]

theorem sharedForms_ofDocument : Rearranged sharedForms sharedFormsReversed ∧
    Palette.ofDocument 3 sharedForms = Palette.ofDocument 3 sharedFormsReversed := by
  have hobject : Rearranged (.obj [("b", .null), ("", .null)])
      (.obj [("", .null), ("b", .null)]) :=
    @Rearranged.obj [("b", .null, .null), ("", .null, .null)] _
      (by simp [Rearranged.refl]) (.swap _ _ [])
  have harray : Rearranged (.arr [.null, .obj [("a", .null)]])
      (.arr [.obj [("a", .null)], .null]) :=
    @Rearranged.arr [(.null, .null), (.obj [("a", .null)], .obj [("a", .null)])] _
      (by simp [Rearranged.refl]) (.swap _ _ [])
  have hrecord : Rearranged
      (.obj [("a", .obj [("b", .null), ("", .null)]), ("", .arr [.null, .obj [("a", .null)]])])
      (.obj [("", .arr [.obj [("a", .null)], .null]), ("a", .obj [("", .null), ("b", .null)])]) :=
    @Rearranged.obj [("a", _, _), ("", _, _)] _
      (by simpa using ⟨hobject, harray⟩) (.swap _ _ [])
  have hroot : Rearranged sharedForms sharedFormsReversed :=
    @Rearranged.arr [(_, _), (_, _)] _
      (by simpa using ⟨hrecord, .refl (.obj [("a.b", .null)])⟩) (.swap _ _ [])
  exact ⟨hroot, hroot.ofDocument_eq 3⟩

example : Palette.ofDocument 3 sharedForms = ["", "a", "a.", "a.b"] := by decide +kernel

end JsonInspect
