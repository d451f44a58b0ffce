import JsonInspect.Proofs.Engine.Occurrences
import JsonInspect.Proofs.Text.Dotted

/-! # Texts of locations

A location is written with dots between its keys and with each index in brackets. Where no key has
a dot or a bracket, reading such a text gives the steps back (`steps_locationFrom`), with one
exception: an empty key at the start leaves no trace in the text unless nothing follows it. -/

namespace JsonInspect.Location

open Json Aggregate

/-! ## Reading -/

def indexOf (bracket : List Char) : Step := .index (Nat.ofDigitChars 10 bracket.dropLast 0)

/-- The steps of what stands between two dots: a key, and the indices in brackets behind it. -/
def partSteps (part : List Char) : List Step :=
  match splitAtChar '[' part with
  | [] => []
  | name :: brackets => .key (String.ofList name) :: brackets.map indexOf

/-- The steps of a location: keys with dots between them, each with the indices in brackets behind
it. Indices at the start are those of the root itself and have no key in front of them. -/
def steps (text : String) : List Step :=
  let all := (splitAtChar '.' text.toList).flatMap partSteps
  if text.toList.head? = some '[' then all.tail else all

def read (text : String) (root : Json) : Option Json := at? (steps text) root

/-! ## Writing -/

def isBareKey (key : String) : Bool :=
  key.toList.all fun c => c != '.' && c != '[' && c != ']'

def hasBareKeys : Json → Bool
  | .obj entries => (Entries.keys entries).all isBareKey
  | _ => true

def BareSteps (p : List Step) : Prop := ∀ k, .key k ∈ p → isBareKey k = true

theorem bareSteps_nil : BareSteps [] := by
  intro k hk
  cases hk

theorem BareSteps.tail {step : Step} {rest : List Step} (h : BareSteps (step :: rest)) :
    BareSteps rest :=
  fun k hk => h k (List.mem_cons_of_mem step hk)

theorem BareSteps.key {k : String} {rest : List Step} (hk : isBareKey k = true)
    (h : BareSteps rest) : BareSteps (.key k :: rest) := by
  intro name hname
  rcases List.mem_cons.mp hname with he | hname
  · rwa [Step.key.inj he]
  · exact h name hname

theorem BareSteps.index {rest : List Step} (i : Nat) (h : BareSteps rest) :
    BareSteps (.index i :: rest) := by
  intro name hname
  rcases List.mem_cons.mp hname with he | hname
  · cases he
  · exact h name hname

def indexChars (i : Nat) : List Char := '[' :: (Nat.toDigits 10 i ++ [']'])

def stepChars : Step → List Char
  | .key k => '.' :: k.toList
  | .index i => indexChars i

theorem isBareKey_iff {key : String} : isBareKey key = true ↔
    '.' ∉ key.toList ∧ '[' ∉ key.toList ∧ ']' ∉ key.toList := by
  simp only [isBareKey, List.all_eq_true, Bool.and_eq_true, bne_iff_ne]
  constructor
  · intro h
    exact ⟨fun hm => (h _ hm).1.1 rfl, fun hm => (h _ hm).1.2 rfl, fun hm => (h _ hm).2 rfl⟩
  · rintro ⟨hdot, hopen, hclose⟩ c hc
    exact ⟨⟨fun he => hdot (he ▸ hc), fun he => hopen (he ▸ hc)⟩, fun he => hclose (he ▸ hc)⟩

theorem toList_indexed (location : String) (i : Nat) :
    (indexed location i).toList = location.toList ++ indexChars i := by
  simp [indexed, indexChars]

theorem indexed_ne_empty (location : String) (i : Nat) : indexed location i ≠ "" := by
  rw [← String.toList_inj.ne, toList_indexed]
  simp [indexChars]

theorem toList_locationFrom {location : String} (h : location ≠ "") (p : List Step) :
    (locationFrom location p).toList = location.toList ++ p.flatMap stepChars := by
  induction p generalizing location with
  | nil => simp [locationFrom]
  | cons step rest ih =>
    cases step with
    | key k =>
      have hne : dotted location k ≠ "" := by
        rw [dotted_of_ne h]
        simp [String.append_eq_empty_iff, h]
      rw [locationFrom, ih hne, dotted_of_ne h]
      simp [stepChars]
    | index i =>
      rw [locationFrom, ih (indexed_ne_empty location i), toList_indexed]
      simp [stepChars]

/-! ## One part -/

theorem partSteps_of_notMem {name : List Char} (h : '[' ∉ name) :
    partSteps name = [.key (String.ofList name)] := by
  rw [partSteps, splitAtChar_of_notMem h]
  rfl

theorem notMem_digits {c : Char} (hc : c.isDigit = false) (i : Nat) : c ∉ Nat.toDigits 10 i := by
  intro h
  rw [Nat.isDigit_of_mem_toDigits (by decide) (by decide) h] at hc
  cases hc

theorem partSteps_append_index (part : List Char) (i : Nat) :
    partSteps (part ++ indexChars i) = partSteps part ++ [.index i] := by
  have hdigits : '[' ∉ Nat.toDigits 10 i ++ [']'] := by
    simp [notMem_digits]
  have hindex : indexOf (Nat.toDigits 10 i ++ [']']) = .index i := by
    rw [indexOf, List.dropLast_concat, Nat.ofDigitChars_toDigits (by decide) (by decide)]
  obtain ⟨name, brackets, hpart⟩ :=
    List.exists_cons_of_ne_nil (splitAtChar_ne_nil '[' part)
  rw [partSteps, indexChars, splitAtChar_append_sep, splitAtChar_of_notMem hdigits, partSteps,
    hpart]
  simp [hindex]

/-! ## The whole text -/

/-- What is written behind a part is read behind it. -/
theorem flatMap_partSteps {part : List Char} (hpart : '.' ∉ part) {p : List Step}
    (hp : BareSteps p) :
    (splitAtChar '.' (part ++ p.flatMap stepChars)).flatMap partSteps = partSteps part ++ p := by
  induction p generalizing part with
  | nil => simp [splitAtChar_of_notMem hpart]
  | cons step rest ih =>
    cases step with
    | key k =>
      obtain ⟨hdot, hopen, -⟩ := isBareKey_iff.mp (hp k List.mem_cons_self)
      rw [List.flatMap_cons, stepChars, List.cons_append, splitAtChar_append hpart,
        List.flatMap_cons, ih hdot hp.tail, partSteps_of_notMem hopen, String.ofList_toList]
      rfl
    | index i =>
      have hnext : '.' ∉ part ++ indexChars i := by
        simp [indexChars, hpart, notMem_digits]
      rw [List.flatMap_cons, stepChars, ← List.append_assoc, ih hnext hp.tail,
        partSteps_append_index, List.append_assoc]
      rfl

/-- What the text of a place shows of it: an empty key at the start is not seen, unless nothing
follows it. -/
def visible : List Step → List Step
  | .key k :: step :: rest => if k = "" then visible (step :: rest) else .key k :: step :: rest
  | p => p

theorem visible_empty {rest : List Step} (hne : rest ≠ []) :
    visible (.key "" :: rest) = visible rest := by
  obtain ⟨step, rest, rfl⟩ := List.exists_cons_of_ne_nil hne
  rw [visible, if_pos rfl]

theorem visible_cons (step : Step) (rest : List Step) :
    visible (step :: rest) = step :: rest ∨
      step = .key "" ∧ rest ≠ [] ∧ visible (step :: rest) = visible rest := by
  cases rest with
  | nil => cases step <;> exact .inl rfl
  | cons next rest =>
    cases step with
    | key k =>
      by_cases hk : k = ""
      · subst hk
        exact .inr ⟨rfl, List.cons_ne_nil _ _, visible_empty (List.cons_ne_nil _ _)⟩
      · exact .inl (by rw [visible, if_neg hk])
    | index i => exact .inl rfl

/-- What is seen of a place is its end. -/
theorem visible_suffix (p : List Step) : visible p <:+ p := by
  induction p with
  | nil => exact List.suffix_rfl
  | cons step rest ih =>
    obtain h | ⟨-, -, h⟩ := visible_cons step rest
    · rw [h]
    · rw [h]
      exact ih.trans (List.suffix_cons step rest)

theorem visible_ne_nil {p : List Step} (hne : p ≠ []) : visible p ≠ [] := by
  induction p with
  | nil => exact absurd rfl hne
  | cons step rest ih =>
    obtain h | ⟨-, hrest, h⟩ := visible_cons step rest
    · rwa [h]
    · rw [h]
      exact ih hrest

/-- A place has the location of what is seen of it. -/
theorem locationFrom_visible (p : List Step) :
    locationFrom "" (visible p) = locationFrom "" p := by
  induction p with
  | nil => rfl
  | cons step rest ih =>
    obtain h | ⟨rfl, -, h⟩ := visible_cons step rest
    · rw [h]
    · rw [h, ih]
      rfl

/-- Reading a location gives what is seen of its place. -/
theorem steps_locationFrom {p : List Step} (hne : p ≠ []) (hp : BareSteps p) :
    steps (locationFrom "" p) = visible p := by
  induction p with
  | nil => exact absurd rfl hne
  | cons step rest ih =>
    cases step with
    | key k =>
      obtain ⟨hdot, hopen, -⟩ := isBareKey_iff.mp (hp k List.mem_cons_self)
      by_cases hk : k = ""
      · subst hk
        cases rest with
        | nil => rfl
        | cons step rest =>
          rw [visible_empty (List.cons_ne_nil _ _)]
          exact ih (List.cons_ne_nil _ _) hp.tail
      · have htext : (locationFrom "" (.key k :: rest)).toList =
            k.toList ++ rest.flatMap stepChars := toList_locationFrom hk rest
        have hhead : (k.toList ++ rest.flatMap stepChars).head? ≠ some '[' := by
          obtain ⟨c, cs, hcs⟩ := List.exists_cons_of_ne_nil (mt String.toList_eq_nil_iff.mp hk)
          rw [hcs] at hopen ⊢
          intro h
          exact hopen (Option.some.inj h ▸ List.mem_cons_self)
        have hvisible : visible (.key k :: rest) = .key k :: rest :=
          (visible_cons (.key k) rest).resolve_right fun h => hk (Step.key.inj h.1)
        rw [steps, htext, flatMap_partSteps hdot hp.tail, partSteps_of_notMem hopen,
          String.ofList_toList, if_neg hhead, hvisible]
        rfl
    | index i =>
      have htext : (locationFrom "" (.index i :: rest)).toList =
          indexChars i ++ rest.flatMap stepChars := by
        rw [locationFrom, toList_locationFrom (indexed_ne_empty "" i), toList_indexed]
        rfl
      have hdot : '.' ∉ indexChars i := by
        simp [indexChars, notMem_digits]
      have hpart : partSteps (indexChars i) = [.key "", .index i] := partSteps_append_index [] i
      have hhead : (indexChars i ++ rest.flatMap stepChars).head? = some '[' := rfl
      rw [steps, htext, flatMap_partSteps hdot hp.tail, hpart, if_pos hhead]
      rfl

end JsonInspect.Location
