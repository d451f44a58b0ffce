import JsonInspect.Proofs.Except
import Mathlib.Data.List.Forall2

/-! # Lists side by side

A list and the list of what is computed for its elements, related element by element, and functions
that go through a list from left to right (`Passes`). -/

namespace JsonInspect

section

variable {α β : Type} {R S : α → β → Prop} {as : List α} {bs : List β}

theorem forall₂_imp_of_mem (h : List.Forall₂ R as bs) (himp : ∀ a ∈ as, ∀ b, R a b → S a b) :
    List.Forall₂ S as bs := by
  have hmem : List.Forall₂ (fun a b => a ∈ as ∧ R a b) as bs :=
    (List.forall₂_and_left as bs).mpr ⟨fun _ ha => ha, h⟩
  exact hmem.imp fun a b hab => himp a hab.1 b hab.2

theorem exists_of_forall₂ (h : List.Forall₂ R as bs) : ∀ b ∈ bs, ∃ a ∈ as, R a b := by
  have hflip : List.Forall₂ (fun b a => (∃ a ∈ as, R a b) ∧ R a b) bs as :=
    (forall₂_imp_of_mem h fun a ha _ hab => ⟨⟨a, ha, hab⟩, hab⟩).flip
  exact ((List.forall₂_and_left bs as).mp hflip).1

theorem exists_forall₂ (h : ∀ a ∈ as, ∃ b, R a b) : ∃ bs, List.Forall₂ R as bs := by
  induction as with
  | nil => exact ⟨[], .nil⟩
  | cons a rest ih =>
    rw [List.forall_mem_cons] at h
    obtain ⟨b, hb⟩ := h.1
    obtain ⟨bs, hbs⟩ := ih h.2
    exact ⟨b :: bs, .cons hb hbs⟩

theorem map_eq_of_forall₂ {γ : Type} {f : β → γ} {g : α → γ}
    (h : List.Forall₂ (fun a b => f b = g a) as bs) : bs.map f = as.map g := by
  induction h with
  | nil => rfl
  | cons hab _ ih => rw [List.map_cons, List.map_cons, hab, ih]

theorem flatMap_eq_of_forall₂ {γ : Type} {f : β → List γ} {g : α → List γ}
    (h : List.Forall₂ (fun a b => f b = g a) as bs) : bs.flatMap f = as.flatMap g := by
  rw [List.flatMap_def, List.flatMap_def, map_eq_of_forall₂ h]

/-- A list without repetition has several elements if and only if two of them differ. -/
theorem one_lt_length_iff (h : as.Nodup) : 1 < as.length ↔ ∃ a ∈ as, ∃ a' ∈ as, a ≠ a' := by
  match as with
  | [] => simp
  | [a] => simp
  | a :: a' :: rest =>
    have hne : a ≠ a' := (List.nodup_cons.mp h).1 ∘ (· ▸ List.mem_cons_self)
    refine iff_of_true (by simp) ⟨a, List.mem_cons_self, a', ?_, hne⟩
    exact List.mem_cons_of_mem _ List.mem_cons_self

theorem mapM_eq_some_iff {f : α → Option β} :
    as.mapM f = some bs ↔ List.Forall₂ (fun a b => f a = some b) as bs := by
  induction as generalizing bs with
  | nil => simp [pure, eq_comm]
  | cons a rest ih =>
    rw [List.mapM_cons, List.forall₂_cons_left_iff]
    simp only [Option.bind_eq_bind, Option.bind_eq_some_iff, ih]
    constructor
    · rintro ⟨b, hb, bs, hbs, h⟩
      cases h
      exact ⟨b, bs, hb, hbs, rfl⟩
    · rintro ⟨b, bs, hb, hbs, rfl⟩
      exact ⟨b, hb, bs, hbs, rfl⟩

theorem isSome_mapM {f : α → Option β} :
    (as.mapM f).isSome = true ↔ ∀ a ∈ as, (f a).isSome = true := by
  induction as with
  | nil => simp
  | cons a rest ih =>
    rw [List.forall_mem_cons, ← ih, List.mapM_cons]
    cases f a <;> cases rest.mapM f <;> simp

end

/-! ## Steps that may fail -/

section

variable {α β ε : Type} {f : α → Except ε β} {as : List α} {bs : List β} {e : ε}

theorem mapM_eq_ok_iff : as.mapM f = .ok bs ↔ List.Forall₂ (fun a b => f a = .ok b) as bs := by
  induction as generalizing bs with
  | nil => simp [pure, Except.pure, eq_comm]
  | cons a rest ih =>
    rw [List.mapM_cons, bind_eq_ok, List.forall₂_cons_left_iff]
    simp only [bind_eq_ok, ih]
    constructor
    · rintro ⟨b, hb, bs, hbs, h⟩
      cases h
      exact ⟨b, bs, hb, hbs, rfl⟩
    · rintro ⟨b, bs, hb, hbs, rfl⟩
      exact ⟨b, hb, bs, hbs, rfl⟩

/-- Where all failures are alike, one of them is enough. -/
theorem mapM_eq_error (hfails : ∃ a ∈ as, f a = .error e)
    (hall : ∀ a ∈ as, f a = .error e ∨ ∃ b, f a = .ok b) : as.mapM f = .error e := by
  induction as with
  | nil =>
    obtain ⟨a, ha, -⟩ := hfails
    cases ha
  | cons a rest ih =>
    rw [List.forall_mem_cons] at hall
    rw [List.mapM_cons]
    rcases hall.1 with ha | ⟨b, hb⟩
    · rw [ha]
      rfl
    · obtain ⟨a', ha', hfail⟩ := hfails
      rcases List.mem_cons.mp ha' with rfl | ha'
      · rw [hb] at hfail
        cases hfail
      · rw [hb, ok_bind, ih ⟨a', ha', hfail⟩ hall.2]
        rfl

end

/-! ## Passes over a list -/

/-- A function goes through a list and leaves `image` of its front, whatever follows. -/
def Passes {α β : Type} (f : List α → List β) (front : List α) (image : List β) : Prop :=
  ∀ rest, f (front ++ rest) = image ++ f rest

namespace Passes

variable {α β : Type} {f : List α → List β} {front front' : List α} {image image' : List β}

theorem nil (f : List α → List β) : Passes f [] [] := fun _ => rfl

theorem append (h : Passes f front image) (h' : Passes f front' image') :
    Passes f (front ++ front') (image ++ image') := by
  intro rest
  rw [List.append_assoc, h, h', List.append_assoc]

theorem of_forall {f : List α → List α} (h : ∀ a ∈ front, Passes f [a] [a]) :
    Passes f front front := by
  induction front with
  | nil => exact nil f
  | cons a rest ih =>
    rw [List.forall_mem_cons] at h
    exact h.1.append (ih h.2)

theorem eq (h : Passes f front image) (hnil : f [] = []) : f front = image := by
  have heq := h []
  rwa [List.append_nil, hnil, List.append_nil] at heq

end Passes

end JsonInspect
