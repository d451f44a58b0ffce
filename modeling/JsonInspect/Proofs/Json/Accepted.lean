import JsonInspect.Proofs.Json.Reading

/-! # What the reader gives

A text that is read gives a well-formed value that is no deeper than the reader allows, and a
reader that allows more reads the same (`value_refines`). -/

namespace JsonInspect.Json

variable {α : Type}

/-- What the first reader reads is read by the second one as well, and has a property. -/
def Refines (P : α → Prop) (first second : Reader α) : Prop :=
  ∀ cs a rest, first cs = .ok (a, rest) → second cs = .ok (a, rest) ∧ P a

/-! ## Numbers -/

section

variable {cs rest : List Char} {n : Number}

theorem finiteNumber_finite {d : Double} (h : finiteNumber d cs = .ok (n, rest)) :
    n.isFinite = true := by
  unfold finiteNumber at h
  split at h
  · rename_i hd
    cases h
    exact hd
  · cases h

theorem wholeNumber_finite {negative : Bool} {digits : List Char}
    (h : wholeNumber negative digits cs = .ok (n, rest)) : n.isFinite = true := by
  unfold wholeNumber at h
  dsimp only at h
  generalize (if negative = true then -((Nat.ofDigitChars 10 digits 0 : Nat) : Int)
    else Nat.ofDigitChars 10 digits 0) = i at h
  split at h
  · cases h
    rfl
  · exact finiteNumber_finite h

theorem scaledNumber_finite {negative : Bool} {whole fraction : List Char}
    (h : scaledNumber negative whole fraction cs = .ok (n, rest)) : n.isFinite = true := by
  unfold scaledNumber at h
  dsimp only at h
  split at h
  · split at h
    · obtain ⟨_, _, h⟩ := bind_eq_ok.mp h
      exact finiteNumber_finite h
    · split at h
      · exact wholeNumber_finite h
      · exact finiteNumber_finite h
  · split at h
    · exact wholeNumber_finite h
    · exact finiteNumber_finite h

/-- A number that is read is finite. -/
theorem number_finite (h : number cs = .ok (n, rest)) : n.isFinite = true := by
  obtain ⟨_, _, h⟩ := bind_eq_ok.mp h
  obtain ⟨_, _, h⟩ := bind_eq_ok.mp h
  exact scaledNumber_finite h

end

/-! ## Containers -/

section

variable {reader : Reader Json} {x : Char} {fuel cs tail : List Char}

/-- What was read when elements were read. -/
theorem elements_inv {items : List Json}
    (h : elements reader (x :: fuel) cs = .ok (items, tail)) :
    ∃ item mid, reader cs = .ok (item, mid) ∧
      ((skipGap mid = ']' :: tail ∧ items = [item]) ∨
        ∃ after c next rest, skipGap mid = ',' :: after ∧ skipGap after = c :: next ∧ c ≠ ']' ∧
          elements reader fuel (c :: next) = .ok (rest, tail) ∧ items = item :: rest) := by
  rw [elements] at h
  obtain ⟨⟨item, mid⟩, hitem, h⟩ := bind_eq_ok.mp h
  refine ⟨item, mid, hitem, ?_⟩
  dsimp only at h
  split at h
  · cases h
  · rename_i hmid
    cases h
    exact .inl ⟨hmid, rfl⟩
  · rename_i after hmid
    split at h
    · cases h
    · cases h
    · rename_i hnil hbracket
      obtain ⟨c, next, hafter⟩ := List.exists_cons_of_ne_nil hnil
      obtain ⟨⟨rest, tail'⟩, hrest, h⟩ := bind_eq_ok.mp h
      cases h
      rw [hafter] at hrest
      exact .inr ⟨after, c, next, rest, hmid, hafter,
        fun hc => hbracket next (hc ▸ hafter), hrest, rfl⟩
  · cases h

theorem array_inv {v : Json} (h : array reader cs = .ok (v, tail)) :
    (skipGap cs = ']' :: tail ∧ v = arr []) ∨
      ∃ c next items, skipGap cs = c :: next ∧ c ≠ ']' ∧
        elements reader (c :: next) (c :: next) = .ok (items, tail) ∧ v = arr items := by
  unfold array at h
  split at h
  · cases h
  · rename_i hcs
    cases h
    exact .inl ⟨hcs, rfl⟩
  · rename_i hnil hbracket
    obtain ⟨c, next, hcs⟩ := List.exists_cons_of_ne_nil hnil
    obtain ⟨⟨items, tail'⟩, hitems, h⟩ := bind_eq_ok.mp h
    cases h
    rw [hcs] at hitems
    exact .inr ⟨c, next, items, hcs, fun hc => hbracket next (hc ▸ hcs), hitems, rfl⟩

theorem member_inv {e : String × Json} (h : member reader cs = .ok (e, tail)) :
    ∃ mid next, string cs = .ok (e.1, mid) ∧ skipGap mid = ':' :: next ∧
      reader next = .ok (e.2, tail) := by
  obtain ⟨⟨key, mid⟩, hkey, h⟩ := bind_eq_ok.mp h
  dsimp only at h
  split at h
  · cases h
  · rename_i next hmid
    obtain ⟨⟨child, tail'⟩, hchild, h⟩ := bind_eq_ok.mp h
    cases h
    exact ⟨mid, next, hkey, hmid, hchild⟩
  · cases h

theorem members_inv {entries : List (String × Json)}
    (h : members reader (x :: fuel) cs = .ok (entries, tail)) :
    ∃ e mid, member reader cs = .ok (e, mid) ∧
      ((skipGap mid = '\x7d' :: tail ∧ entries = [e]) ∨
        ∃ after next rest, skipGap mid = ',' :: after ∧ skipGap after = '"' :: next ∧
          members reader fuel next = .ok (rest, tail) ∧ entries = e :: rest) := by
  rw [members] at h
  obtain ⟨⟨e, mid⟩, he, h⟩ := bind_eq_ok.mp h
  refine ⟨e, mid, he, ?_⟩
  dsimp only at h
  split at h
  · cases h
  · rename_i hmid
    cases h
    exact .inl ⟨hmid, rfl⟩
  · rename_i after hmid
    split at h
    · cases h
    · rename_i next hafter
      obtain ⟨⟨rest, tail'⟩, hrest, h⟩ := bind_eq_ok.mp h
      cases h
      exact .inr ⟨after, next, rest, hmid, hafter, hrest, rfl⟩
    · cases h
    · cases h
  · cases h

theorem object_inv {v : Json} (h : object reader cs = .ok (v, tail)) :
    (skipGap cs = '\x7d' :: tail ∧ v = obj []) ∨
      ∃ next entries, skipGap cs = '"' :: next ∧
        members reader ('"' :: next) next = .ok (entries, tail) ∧
        v = obj (Entries.ofPairs entries) := by
  unfold object at h
  split at h
  · cases h
  · rename_i hcs
    cases h
    exact .inl ⟨hcs, rfl⟩
  · rename_i next hcs
    obtain ⟨⟨entries, tail'⟩, hentries, h⟩ := bind_eq_ok.mp h
    cases h
    exact .inr ⟨next, entries, hcs, hentries, rfl⟩
  · cases h

end

section

variable {P : Json → Prop} {first second : Reader Json}

theorem elements_refines (h : Refines P first second) (fuel : List Char) :
    Refines (fun items => ∀ item ∈ items, P item) (elements first fuel)
      (elements second fuel) := by
  induction fuel with
  | nil =>
    intro _ _ _ h
    cases h
  | cons x fuel ih =>
    intro cs items tail hread
    obtain ⟨item, mid, hitem, hread⟩ := elements_inv hread
    obtain ⟨hsecond, hp⟩ := h cs item mid hitem
    rcases hread with ⟨hmid, rfl⟩ | ⟨after, c, next, rest, hmid, hafter, hc, hrest, rfl⟩
    · exact ⟨elements_last hsecond hmid, List.forall_mem_singleton.mpr hp⟩
    · obtain ⟨hrest, hps⟩ := ih _ rest tail hrest
      exact ⟨elements_more hsecond hmid hafter hc hrest, List.forall_mem_cons.mpr ⟨hp, hps⟩⟩

theorem member_refines (h : Refines P first second) :
    Refines (fun e => P e.2) (member first) (member second) := by
  intro cs e tail hread
  obtain ⟨mid, next, hkey, hmid, hchild⟩ := member_inv hread
  obtain ⟨hsecond, hp⟩ := h next e.2 tail hchild
  refine ⟨?_, hp⟩
  rw [member, hkey, ok_bind]
  simp only [hmid, hsecond, ok_bind]

theorem members_refines (h : Refines P first second) (fuel : List Char) :
    Refines (fun entries => ∀ e ∈ entries, P e.2) (members first fuel)
      (members second fuel) := by
  induction fuel with
  | nil =>
    intro _ _ _ h
    cases h
  | cons x fuel ih =>
    intro cs entries tail hread
    obtain ⟨e, mid, he, hread⟩ := members_inv hread
    obtain ⟨hsecond, hp⟩ := member_refines h cs e mid he
    rcases hread with ⟨hmid, rfl⟩ | ⟨after, next, rest, hmid, hafter, hrest, rfl⟩
    · exact ⟨members_last hsecond hmid, List.forall_mem_singleton.mpr hp⟩
    · obtain ⟨hrest, hps⟩ := ih _ rest tail hrest
      exact ⟨members_more hsecond hmid hafter hrest, List.forall_mem_cons.mpr ⟨hp, hps⟩⟩

/-! ## Values -/

/-- Well-formed, with at most `n` containers nested in each other. -/
def Fits (n : Nat) (v : Json) : Prop := v.wellFormed = true ∧ v.depth ≤ n

theorem array_refines {n : Nat} (h : Refines (Fits n) first second) :
    Refines (Fits (n + 1)) (array first) (array second) := by
  intro cs v tail hread
  rcases array_inv hread with ⟨hcs, rfl⟩ | ⟨c, next, items, hcs, hc, hitems, rfl⟩
  · refine ⟨?_, rfl, Nat.succ_le_succ (Nat.zero_le n)⟩
    rw [array, hcs]
    rfl
  · obtain ⟨hsecond, hfits⟩ := elements_refines h _ _ items tail hitems
    exact ⟨array_elements hcs hc hsecond, wellFormed_arr.mpr fun item hi => (hfits item hi).1,
      depth_arr_le.mpr fun item hi => (hfits item hi).2⟩

theorem object_refines {n : Nat} (h : Refines (Fits n) first second) :
    Refines (Fits (n + 1)) (object first) (object second) := by
  intro cs v tail hread
  rcases object_inv hread with ⟨hcs, rfl⟩ | ⟨next, pairs, hcs, hpairs, rfl⟩
  · refine ⟨?_, rfl, Nat.succ_le_succ (Nat.zero_le n)⟩
    rw [object, hcs]
    rfl
  · obtain ⟨hsecond, hfits⟩ := members_refines h _ _ pairs tail hpairs
    have hfits : ∀ e ∈ Entries.ofPairs pairs, Fits n e.2 := fun e he =>
      hfits e (Entries.mem_of_mem_ofPairs pairs e he)
    exact ⟨object_members hcs hsecond,
      wellFormed_obj.mpr ⟨Entries.nodup_ofPairs pairs, fun e he => (hfits e he).1⟩,
      depth_obj_le.mpr fun e he => (hfits e he).2⟩

end

theorem word_value {a b : α} {letters cs rest : List Char}
    (h : word a letters cs = .ok (b, rest)) : b = a := by
  induction letters generalizing cs with
  | nil =>
    cases h
    rfl
  | cons e letters ih =>
    cases cs with
    | nil => cases h
    | cons c cs =>
      rw [word] at h
      split at h
      · exact ih h
      · cases h

theorem valueWith_refines {first second : Option (Reader Json)} {n : Nat}
    (h : ∀ r, first = some r →
      ∃ r' m, second = some r' ∧ n = m + 1 ∧ Refines (Fits m) r r') :
    Refines (Fits n) (valueWith first) (valueWith second) := by
  intro cs v tail hread
  rw [valueWith] at hread ⊢
  cases hcs : skipGap cs with
  | nil =>
    rw [hcs] at hread
    cases hread
  | cons c rest =>
    rw [hcs] at hread
    dsimp only at hread ⊢
    by_cases hn : c = 'n'
    · rw [if_pos hn] at hread ⊢
      obtain rfl := word_value hread
      exact ⟨hread, rfl, Nat.zero_le n⟩
    rw [if_neg hn] at hread ⊢
    by_cases ht : c = 't'
    · rw [if_pos ht] at hread ⊢
      obtain rfl := word_value hread
      exact ⟨hread, rfl, Nat.zero_le n⟩
    rw [if_neg ht] at hread ⊢
    by_cases hf : c = 'f'
    · rw [if_pos hf] at hread ⊢
      obtain rfl := word_value hread
      exact ⟨hread, rfl, Nat.zero_le n⟩
    rw [if_neg hf] at hread ⊢
    by_cases hd : c = '-' ∨ c.isDigit = true
    · rw [if_pos hd] at hread ⊢
      refine ⟨hread, ?_⟩
      obtain ⟨⟨k, rest'⟩, hk, hread⟩ := bind_eq_ok.mp hread
      cases hread
      exact ⟨number_finite hk, Nat.zero_le n⟩
    rw [if_neg hd] at hread ⊢
    by_cases hq : c = '"'
    · rw [if_pos hq] at hread ⊢
      refine ⟨hread, ?_⟩
      obtain ⟨⟨s, rest'⟩, -, hread⟩ := bind_eq_ok.mp hread
      cases hread
      exact ⟨rfl, Nat.zero_le n⟩
    rw [if_neg hq] at hread ⊢
    cases first with
    | none =>
      split at hread
      · cases hread
      · split at hread <;> cases hread
    | some r =>
      obtain ⟨r', m, rfl, rfl, hr⟩ := h r rfl
      by_cases ha : c = '['
      · rw [if_pos ha] at hread ⊢
        exact array_refines hr rest v tail hread
      rw [if_neg ha] at hread ⊢
      by_cases ho : c = '\x7b'
      · rw [if_pos ho] at hread ⊢
        exact object_refines hr rest v tail hread
      rw [if_neg ho] at hread
      cases hread

/-- What is read with some depth is well-formed and no deeper, and is read with more as well. -/
theorem value_refines (n : Nat) : Refines (Fits n) (value n) (value (n + 1)) := by
  induction n with
  | zero => exact valueWith_refines fun r hr => nomatch hr
  | succ n ih =>
    refine valueWith_refines fun r hr => ?_
    cases hr
    exact ⟨value (n + 1), n, rfl, rfl, ih⟩

theorem value_mono {n m : Nat} (h : n ≤ m) {cs rest : List Char} {v : Json}
    (hread : value n cs = .ok (v, rest)) : value m cs = .ok (v, rest) := by
  induction h with
  | refl => exact hread
  | step _ ih => exact (value_refines _ cs v rest ih).1

/-! ## Documents -/

theorem document_eq_ok {cs : List Char} {v : Json} :
    document cs = .ok v ↔ ∃ rest, value greatestDepth cs = .ok (v, rest) ∧ skipGap rest = [] := by
  refine ⟨fun h => ?_, fun ⟨rest, hread, hrest⟩ => ?_⟩
  · obtain ⟨⟨v', rest⟩, hread, h⟩ := bind_eq_ok.mp h
    dsimp only at h
    split at h
    · rename_i hrest
      cases h
      exact ⟨rest, hread, hrest⟩
    · cases h
  · rw [document, hread, ok_bind]
    dsimp only
    rw [hrest]

theorem parse_eq_ok {text : String} {v : Json} :
    parse text = .ok v ↔ document (trimChars text.toList) = .ok v := by
  rw [parse, read, mapError_eq_ok, trim, String.toList_ofList]

/-- Every value that is parsed is well-formed and not too deep. -/
theorem parse_fits {text : String} {v : Json} (h : parse text = .ok v) : Fits greatestDepth v := by
  obtain ⟨rest, hread, -⟩ := document_eq_ok.mp (parse_eq_ok.mp h)
  exact (value_refines greatestDepth _ v rest hread).2

end JsonInspect.Json
