import JsonInspect.Proofs.Number.Locality

/-! # How far the reader looks

What is read is a part of the text that does not end in a blank, and it is read the same before any
other text that does not continue a number (`value_local`). So blanks around a document are either
gaps, and make no difference, or keep it from being read (`document_between_blanks`). -/

namespace JsonInspect.Json

variable {α : Type}

/-- What was read is a part of the text that does not end in a blank, and it is read the same before
any other text that does not continue a number. -/
def Taken (read : Reader α) (cs : List Char) (a : α) (rest : List Char) : Prop :=
  ∃ part, cs = part ++ rest ∧ EndsSolid part ∧
    ∀ other, EndsNumber other → read (part ++ other) = .ok (a, other)

/-- A reader that looks no further than at the character behind what it reads. -/
def Local (read : Reader α) : Prop :=
  ∀ cs a rest, read cs = .ok (a, rest) → Taken read cs a rest

/-- Something that is read up to a mark, whatever follows the mark. -/
theorem taken_of_mark {read : Reader α} {a : α} {opening mark : Char} {rest : List Char}
    (front : List Char) (hmark : isBlank mark = false)
    (h : ∀ other, read (opening :: (front ++ mark :: other)) = .ok (a, other)) :
    Taken read (opening :: (front ++ mark :: rest)) a rest := by
  refine ⟨opening :: (front ++ [mark]), by simp, ⟨opening :: front, mark, rfl, hmark⟩, ?_⟩
  intro other _
  rw [List.cons_append, List.append_assoc]
  exact h other

/-! ## Strings -/

section

variable {cs rest : List Char} {c : Char}

theorem hexUnit_local {n : Nat} (h : hexUnit cs = .ok (n, rest)) :
    ∃ part, cs = part ++ rest ∧ ∀ other, hexUnit (part ++ other) = .ok (n, other) := by
  have hbad : ∀ {ds : List Char}, badUnit ds ≠ .ok (n, rest) := by
    intro ds h
    unfold badUnit at h
    split at h <;> cases h
  unfold hexUnit at h
  split at h
  · rename_i x₁ x₂ x₃ x₄ tail
    split at h
    · rename_i h₁ h₂ h₃ h₄
      cases h
      refine ⟨[x₁, x₂, x₃, x₄], rfl, fun other => ?_⟩
      simp only [hexUnit, List.cons_append, h₁, h₂, h₃, h₄, List.nil_append]
    · exact absurd h hbad
  · exact absurd h hbad

theorem pairMark_inv {mark : Char} {u : Unit} (h : pairMark mark cs = .ok (u, rest)) :
    cs = mark :: rest := by
  cases cs with
  | nil => cases h
  | cons x cs =>
    rw [pairMark] at h
    split at h
    · rename_i hx
      cases h
      rw [hx]
    · cases h

theorem pairMark_self (mark : Char) (rest : List Char) :
    pairMark mark (mark :: rest) = .ok ((), rest) := if_pos rfl

theorem unicodeEscape_local (h : unicodeEscape cs = .ok (c, rest)) :
    ∃ part, cs = part ++ rest ∧ ∀ other, unicodeEscape (part ++ other) = .ok (c, other) := by
  obtain ⟨⟨unit, mid⟩, hunit, hmore⟩ := bind_eq_ok.mp h
  obtain ⟨part, rfl, hread⟩ := hexUnit_local hunit
  dsimp only at hmore
  split at hmore
  · cases hmore
  · rename_i hlow
    split at hmore
    · rename_i hplain
      cases hmore
      refine ⟨part, rfl, fun other => ?_⟩
      rw [unicodeEscape, hread other, ok_bind]
      dsimp only
      rw [if_neg hlow, if_pos hplain]
    · rename_i hhigh
      obtain ⟨⟨_, mid₁⟩, hback, hmore⟩ := bind_eq_ok.mp hmore
      obtain ⟨⟨_, mid₂⟩, hu, hmore⟩ := bind_eq_ok.mp hmore
      obtain ⟨⟨second, mid₃⟩, hsecond, hlast⟩ := bind_eq_ok.mp hmore
      dsimp only at hlast
      split at hlast
      · cases hlast
      · rename_i hrange
        obtain ⟨rfl, rfl⟩ := Prod.mk.inj (Except.ok.inj hlast)
        obtain rfl := pairMark_inv hback
        obtain rfl := pairMark_inv hu
        obtain ⟨part', rfl, hread'⟩ := hexUnit_local hsecond
        refine ⟨part ++ '\\' :: 'u' :: part', by simp, fun other => ?_⟩
        rw [unicodeEscape, List.append_assoc, hread, ok_bind]
        dsimp only
        rw [if_neg hlow, if_neg hhigh, List.cons_append, pairMark_self, ok_bind]
        dsimp only
        rw [List.cons_append, pairMark_self, ok_bind]
        dsimp only
        rw [hread' other, ok_bind]
        exact if_neg hrange

theorem escaped_local (h : escaped cs = .ok (c, rest)) :
    ∃ part, cs = part ++ rest ∧ ∀ other, escaped (part ++ other) = .ok (c, other) := by
  cases cs with
  | nil => cases h
  | cons x cs =>
    rw [escaped] at h
    iterate 8
      rcases ite_eq_iff.mp h with ⟨rfl, hread⟩ | ⟨-, h⟩
      · cases hread
        exact ⟨[_], rfl, fun _ => rfl⟩
    rcases ite_eq_iff.mp h with ⟨rfl, hread⟩ | ⟨-, h⟩
    · obtain ⟨part, rfl, hlocal⟩ := unicodeEscape_local hread
      exact ⟨'u' :: part, rfl, hlocal⟩
    · cases h

/-- The characters of a string reach up to a quote, and are read the same whatever follows it. -/
theorem stringChars_local {fuel text : List Char} (h : stringChars fuel cs = .ok (text, rest)) :
    ∃ part, cs = part ++ '"' :: rest ∧ ∀ fuel' other, part.length < fuel'.length →
      stringChars fuel' (part ++ '"' :: other) = .ok (text, other) := by
  induction fuel generalizing cs text with
  | nil => cases cs <;> cases h
  | cons x fuel ih =>
    cases cs with
    | nil => cases h
    | cons c cs =>
      rw [stringChars] at h
      split at h
      · rename_i hquote
        subst c
        cases h
        refine ⟨[], rfl, fun fuel' other hf => ?_⟩
        obtain ⟨y, fuel', rfl⟩ := List.exists_cons_of_length_pos hf
        rfl
      rename_i hquote
      split at h
      · rename_i hback
        subst c
        obtain ⟨⟨d, mid⟩, hd, h⟩ := bind_eq_ok.mp h
        obtain ⟨⟨ds, tail⟩, hds, h⟩ := bind_eq_ok.mp h
        cases h
        obtain ⟨mark, rfl, hmark⟩ := escaped_local hd
        obtain ⟨part, rfl, hpart⟩ := ih hds
        refine ⟨'\\' :: mark ++ part, by simp, fun fuel' other hf => ?_⟩
        obtain ⟨y, fuel', rfl⟩ := List.exists_cons_of_length_pos (Nat.zero_lt_of_lt hf)
        have hfuel : part.length < fuel'.length := by
          simp only [List.length_append, List.length_cons] at hf
          omega
        rw [List.append_assoc, stringChars_escaped y fuel' (hmark _), hpart fuel' other hfuel]
        rfl
      rename_i hback
      split at h
      · cases h
      · rename_i hcontrol
        obtain ⟨⟨ds, tail⟩, hds, h⟩ := bind_eq_ok.mp h
        cases h
        obtain ⟨part, rfl, hpart⟩ := ih hds
        refine ⟨c :: part, rfl, fun fuel' other hf => ?_⟩
        obtain ⟨y, fuel', rfl⟩ := List.exists_cons_of_length_pos (Nat.zero_lt_of_lt hf)
        rw [List.cons_append, stringChars_plain y fuel' _ hquote hback hcontrol,
          hpart fuel' other (Nat.lt_of_succ_lt_succ hf)]
        rfl

theorem string_local {s : String} (h : string cs = .ok (s, rest)) :
    ∃ part, cs = part ++ '"' :: rest ∧
      ∀ other, string (part ++ '"' :: other) = .ok (s, other) := by
  obtain ⟨⟨text, tail⟩, htext, h⟩ := bind_eq_ok.mp h
  cases h
  obtain ⟨part, rfl, hread⟩ := stringChars_local htext
  refine ⟨part, rfl, fun other => ?_⟩
  rw [string, hread _ other (by simp), ok_bind]

end

/-! ## Containers -/

theorem skipGap_eq_cons {cs next : List Char} {c : Char} (h : skipGap cs = c :: next) :
    ∃ gap, cs = gap ++ c :: next ∧ Gaps gap ∧ isGap c = false := by
  refine ⟨cs.takeWhile isGap, ?_, fun x hx => List.mem_takeWhile_imp hx, ?_⟩
  · rw [← h, skipGap, List.takeWhile_append_dropWhile]
  · have hhead := List.head?_dropWhile_not isGap cs
    rw [← skipGap, h] at hhead
    simpa using hhead

/-- What ends before a mark and does not start with it has a first character of its own. -/
theorem exists_cons_of_ne {part next rest : List Char} {c mark : Char}
    (h : c :: next = part ++ mark :: rest) (hc : c ≠ mark) :
    ∃ tail, part = c :: tail ∧ next = tail ++ mark :: rest := by
  cases part with
  | nil => exact absurd (List.cons.inj h).1 hc
  | cons d tail =>
    obtain ⟨rfl, hnext⟩ := List.cons.inj h
    exact ⟨tail, rfl, hnext⟩

section

variable {reader : Reader Json} {fuel cs rest : List Char}

/-- Elements reach up to a bracket, and are read the same whatever follows it. -/
theorem elements_local (hr : Local reader) {items : List Json}
    (h : elements reader fuel cs = .ok (items, rest)) :
    ∃ part, cs = part ++ ']' :: rest ∧ ∀ fuel' other, part.length < fuel'.length →
      elements reader fuel' (part ++ ']' :: other) = .ok (items, other) := by
  induction fuel generalizing cs items with
  | nil => cases h
  | cons x fuel ih =>
    obtain ⟨item, mid, hitem, hmore⟩ := elements_inv h
    obtain ⟨part, rfl, hsolid, hread⟩ := hr _ _ _ hitem
    rcases hmore with ⟨hmid, rfl⟩ | ⟨after, c, next, items, hmid, hafter, hc, hrest, rfl⟩
    · obtain ⟨gap, rfl, hgap, -⟩ := skipGap_eq_cons hmid
      refine ⟨part ++ gap, by simp, fun fuel' other hf => ?_⟩
      obtain ⟨y, fuel', rfl⟩ := List.exists_cons_of_length_pos (Nat.zero_lt_of_lt hf)
      rw [List.append_assoc]
      exact elements_last (hread _ (endsNumber_gaps_cons other hgap (by decide)))
        (skipGap_gaps_cons other hgap rfl)
    · obtain ⟨gap, rfl, hgap, -⟩ := skipGap_eq_cons hmid
      obtain ⟨gap', rfl, hgap', hc'⟩ := skipGap_eq_cons hafter
      obtain ⟨part', hnext, hread'⟩ := ih hrest
      obtain ⟨part', rfl, rfl⟩ := exists_cons_of_ne hnext hc
      refine ⟨part ++ (gap ++ ',' :: (gap' ++ c :: part')), by simp, ?_⟩
      intro fuel' other hf
      obtain ⟨y, fuel', rfl⟩ := List.exists_cons_of_length_pos (Nat.zero_lt_of_lt hf)
      have hfuel : (c :: part').length < fuel'.length := by
        simp only [List.length_append, List.length_cons] at hf ⊢
        omega
      have hitem := hread (gap ++ ',' :: (gap' ++ c :: (part' ++ ']' :: other)))
        (endsNumber_gaps_cons _ hgap (by decide))
      simp only [List.append_assoc, List.cons_append]
      exact elements_more hitem (skipGap_gaps_cons _ hgap rfl) (skipGap_gaps_cons _ hgap' hc') hc
        (hread' fuel' other hfuel)

theorem array_local (hr : Local reader) {v : Json} (h : array reader cs = .ok (v, rest)) :
    ∃ part, cs = part ++ ']' :: rest ∧
      ∀ other, array reader (part ++ ']' :: other) = .ok (v, other) := by
  rcases array_inv h with ⟨hcs, rfl⟩ | ⟨c, next, items, hcs, hc, hitems, rfl⟩
  · obtain ⟨gap, rfl, hgap, -⟩ := skipGap_eq_cons hcs
    refine ⟨gap, rfl, fun other => ?_⟩
    rw [array, skipGap_gaps_cons other hgap rfl]
    rfl
  · obtain ⟨gap, rfl, hgap, hc'⟩ := skipGap_eq_cons hcs
    obtain ⟨part, hnext, hread⟩ := elements_local hr hitems
    obtain ⟨part, rfl, rfl⟩ := exists_cons_of_ne hnext hc
    refine ⟨gap ++ c :: part, by simp, fun other => ?_⟩
    rw [List.append_assoc]
    exact array_elements (skipGap_gaps_cons _ hgap hc') hc (hread _ other (by simp))

theorem member_local (hr : Local reader) : Local (member reader) := by
  intro cs e rest h
  obtain ⟨mid, next, hkey, hmid, hchild⟩ := member_inv h
  obtain ⟨key, rfl, hreadKey⟩ := string_local hkey
  obtain ⟨gap, rfl, hgap, -⟩ := skipGap_eq_cons hmid
  obtain ⟨part, rfl, hsolid, hread⟩ := hr _ _ _ hchild
  refine ⟨key ++ '"' :: (gap ++ ':' :: part), by simp, ?_, fun other ho => ?_⟩
  · exact EndsSolid.append key (EndsSolid.append ['"'] (EndsSolid.append gap (hsolid.append [':'])))
  · simp only [List.append_assoc, List.cons_append]
    rw [member, hreadKey, ok_bind]
    simp only [skipGap_gaps_cons _ hgap (show isGap ':' = false from rfl), hread other ho, ok_bind]

/-- Members reach up to a brace, and are read the same whatever follows it. -/
theorem members_local (hr : Local reader) {entries : List (String × Json)}
    (h : members reader fuel cs = .ok (entries, rest)) :
    ∃ part, cs = part ++ '\x7d' :: rest ∧ ∀ fuel' other, part.length < fuel'.length →
      members reader fuel' (part ++ '\x7d' :: other) = .ok (entries, other) := by
  induction fuel generalizing cs entries with
  | nil => cases h
  | cons x fuel ih =>
    obtain ⟨e, mid, he, hmore⟩ := members_inv h
    obtain ⟨part, rfl, -, hread⟩ := member_local hr _ _ _ he
    rcases hmore with ⟨hmid, rfl⟩ | ⟨after, next, entries, hmid, hafter, hrest, rfl⟩
    · obtain ⟨gap, rfl, hgap, -⟩ := skipGap_eq_cons hmid
      refine ⟨part ++ gap, by simp, fun fuel' other hf => ?_⟩
      obtain ⟨y, fuel', rfl⟩ := List.exists_cons_of_length_pos (Nat.zero_lt_of_lt hf)
      rw [List.append_assoc]
      exact members_last (hread _ (endsNumber_gaps_cons other hgap (by decide)))
        (skipGap_gaps_cons other hgap rfl)
    · obtain ⟨gap, rfl, hgap, -⟩ := skipGap_eq_cons hmid
      obtain ⟨gap', rfl, hgap', -⟩ := skipGap_eq_cons hafter
      obtain ⟨part', rfl, hread'⟩ := ih hrest
      refine ⟨part ++ (gap ++ ',' :: (gap' ++ '"' :: part')), by simp, fun fuel' other hf => ?_⟩
      obtain ⟨y, fuel', rfl⟩ := List.exists_cons_of_length_pos (Nat.zero_lt_of_lt hf)
      have hfuel : part'.length < fuel'.length := by
        simp only [List.length_append, List.length_cons] at hf
        omega
      have he := hread (gap ++ ',' :: (gap' ++ '"' :: (part' ++ '\x7d' :: other)))
        (endsNumber_gaps_cons _ hgap (by decide))
      simp only [List.append_assoc, List.cons_append]
      exact members_more he (skipGap_gaps_cons _ hgap rfl) (skipGap_gaps_cons _ hgap' rfl)
        (hread' fuel' other hfuel)

theorem object_local (hr : Local reader) {v : Json} (h : object reader cs = .ok (v, rest)) :
    ∃ part, cs = part ++ '\x7d' :: rest ∧
      ∀ other, object reader (part ++ '\x7d' :: other) = .ok (v, other) := by
  rcases object_inv h with ⟨hcs, rfl⟩ | ⟨next, entries, hcs, hentries, rfl⟩
  · obtain ⟨gap, rfl, hgap, -⟩ := skipGap_eq_cons hcs
    refine ⟨gap, rfl, fun other => ?_⟩
    rw [object, skipGap_gaps_cons other hgap rfl]
    rfl
  · obtain ⟨gap, rfl, hgap, -⟩ := skipGap_eq_cons hcs
    obtain ⟨part, rfl, hread⟩ := members_local hr hentries
    refine ⟨gap ++ '"' :: part, by simp, fun other => ?_⟩
    rw [List.append_assoc]
    refine object_members (skipGap_gaps_cons _ hgap rfl) (hread _ other ?_)
    exact Nat.lt_succ_of_le (List.length_append ▸ Nat.le_add_right _ _)

end

/-! ## Values -/

theorem word_local {a b : α} {letters cs rest : List Char} (h : word a letters cs = .ok (b, rest)) :
    cs = letters ++ rest ∧ ∀ other, word a letters (letters ++ other) = .ok (b, other) := by
  induction letters generalizing cs with
  | nil =>
    cases h
    exact ⟨rfl, fun _ => rfl⟩
  | cons e letters ih =>
    cases cs with
    | nil => cases h
    | cons c cs =>
      rw [word] at h
      split at h
      · rename_i hc
        obtain ⟨rfl, hread⟩ := ih h
        exact ⟨by rw [hc, List.cons_append], fun other => (if_pos rfl).trans (hread other)⟩
      · cases h

section

variable {nested : Option (Reader Json)} {cs rest : List Char}

/-- The first character tells what is read, and each kind of value is taken. -/
theorem valueWith_taken (hr : ∀ r ∈ nested, Local r) {c : Char} {v : Json} (hc : isGap c = false)
    (h : valueWith nested (c :: cs) = .ok (v, rest)) :
    Taken (valueWith nested) (c :: cs) v rest := by
  rw [valueWith, skipGap_cons cs hc] at h
  dsimp only at h
  rcases ite_eq_iff.mp h with ⟨rfl, hread⟩ | ⟨-, h⟩
  · obtain ⟨rfl, hword⟩ := word_local hread
    exact taken_of_mark ['u', 'l'] rfl hword
  rcases ite_eq_iff.mp h with ⟨rfl, hread⟩ | ⟨-, h⟩
  · obtain ⟨rfl, hword⟩ := word_local hread
    exact taken_of_mark ['r', 'u'] rfl hword
  rcases ite_eq_iff.mp h with ⟨rfl, hread⟩ | ⟨-, h⟩
  · obtain ⟨rfl, hword⟩ := word_local hread
    exact taken_of_mark ['a', 'l', 's'] rfl hword
  rcases ite_eq_iff.mp h with ⟨-, hread⟩ | ⟨-, h⟩
  · obtain ⟨⟨n, tail⟩, hn, hread⟩ := bind_eq_ok.mp hread
    cases hread
    obtain ⟨part, hpart, hsolid, hnumber⟩ := number_local hn
    exact ⟨part, hpart, hsolid, fun other ho => valueWith_number (hnumber other ho)⟩
  rcases ite_eq_iff.mp h with ⟨rfl, hread⟩ | ⟨-, h⟩
  · obtain ⟨⟨s, tail⟩, hs, hread⟩ := bind_eq_ok.mp hread
    cases hread
    obtain ⟨part, rfl, hstring⟩ := string_local hs
    exact taken_of_mark part rfl fun other => valueWith_quote (hstring other)
  cases nested with
  | none =>
    rcases ite_eq_iff.mp h with ⟨-, hread⟩ | ⟨-, h⟩
    · cases hread
    · rcases ite_eq_iff.mp h with ⟨-, hread⟩ | ⟨-, h⟩
      · cases hread
      · cases h
  | some r =>
    rcases ite_eq_iff.mp h with ⟨rfl, hread⟩ | ⟨-, h⟩
    · obtain ⟨part, rfl, harray⟩ := array_local (hr r rfl) hread
      exact taken_of_mark part rfl harray
    rcases ite_eq_iff.mp h with ⟨rfl, hread⟩ | ⟨-, h⟩
    · obtain ⟨part, rfl, hobject⟩ := object_local (hr r rfl) hread
      exact taken_of_mark part rfl hobject
    · cases h

theorem valueWith_local (hr : ∀ r ∈ nested, Local r) : Local (valueWith nested) := by
  intro cs v rest h
  cases hcs : skipGap cs with
  | nil =>
    rw [valueWith, hcs] at h
    cases h
  | cons c next =>
    obtain ⟨gap, rfl, hgap, hc⟩ := skipGap_eq_cons hcs
    rw [valueWith_gaps _ hgap] at h
    obtain ⟨part, hpart, hsolid, hread⟩ := valueWith_taken hr hc h
    refine ⟨gap ++ part, by rw [hpart, List.append_assoc], hsolid.append gap, fun other ho => ?_⟩
    rw [List.append_assoc, valueWith_gaps _ hgap]
    exact hread other ho

end

/-- A value that is read does not end in a blank, and is read the same in front of anything but the
rest of a number. -/
theorem value_local (n : Nat) : Local (value n) := by
  induction n with
  | zero => exact valueWith_local fun r hr => nomatch hr
  | succ n ih =>
    refine valueWith_local fun r hr => ?_
    cases hr
    exact ih

/-! ## Documents -/

theorem skipGap_eq_nil {cs : List Char} : skipGap cs = [] ↔ Gaps cs := List.dropWhile_eq_nil_iff

theorem endsNumber_gaps {cs : List Char} (h : Gaps cs) : EndsNumber cs := by
  intro x hx
  cases cs with
  | nil => cases hx
  | cons g cs =>
    exact endsNumber_gaps_cons (c := ',') [] h (by decide) x hx

/-- A value that is read starts behind a gap with a character that is not blank. -/
theorem valueWith_starts {nested : Option (Reader Json)} {cs rest : List Char} {v : Json}
    (h : valueWith nested cs = .ok (v, rest)) :
    ∃ gap c next, cs = gap ++ c :: next ∧ Gaps gap ∧ isBlank c = false := by
  cases hcs : skipGap cs with
  | nil =>
    rw [valueWith, hcs] at h
    cases h
  | cons c next =>
    obtain ⟨gap, rfl, hgap, hc⟩ := skipGap_eq_cons hcs
    refine ⟨gap, c, next, rfl, hgap, StartsValue.not_blank ?_⟩
    rw [valueWith, hcs] at h
    by_contra hstart
    simp only [StartsValue, not_or] at hstart
    obtain ⟨hn, ht, hf, hminus, hdigit, hquote, hbracket, hbrace⟩ := hstart
    simp only [hn, ht, hf, hminus, hdigit, hquote, hbracket, hbrace, if_false, or_self,
      Bool.false_eq_true] at h
    cases h

theorem value_starts {n : Nat} {cs rest : List Char} {v : Json}
    (h : value n cs = .ok (v, rest)) :
    ∃ gap c next, cs = gap ++ c :: next ∧ Gaps gap ∧ isBlank c = false := by
  cases n <;> exact valueWith_starts h

/-- Blanks around a text that is a value keep it one exactly if they may stand between tokens. -/
theorem document_between_blanks {before after : List Char} (cs : List Char) {v : Json}
    (hb : ∀ c ∈ before, isBlank c = true) (ha : ∀ c ∈ after, isBlank c = true) :
    document (before ++ (cs ++ after)) = .ok v ↔
      document cs = .ok v ∧ Gaps before ∧ Gaps after := by
  simp only [document_eq_ok, skipGap_eq_nil]
  constructor
  · rintro ⟨rest, hread, hrest⟩
    have hbefore : Gaps before := by
      obtain ⟨gap, c, next, hcs, hgap, hc⟩ := value_starts hread
      rcases List.append_eq_append_iff.mp hcs with ⟨more, rfl, -⟩ | ⟨more, rfl, hmore⟩
      · exact fun x hx => hgap x (List.mem_append_left _ hx)
      · -- What of the blanks is not in the gap starts with `c`, which is not blank.
        cases more with
        | nil => rwa [List.append_nil]
        | cons d more =>
          rw [List.cons_append] at hmore
          obtain ⟨rfl, -⟩ := List.cons.inj hmore
          rw [hb c (by simp)] at hc
          cases hc
    rw [value_gaps _ _ hbefore] at hread
    obtain ⟨part, hcs, ⟨front, last, rfl, hlast⟩, hlocal⟩ := value_local _ _ _ _ hread
    rcases List.append_eq_append_iff.mp hcs with ⟨more, hpart, hafter⟩ | ⟨more, rfl, rfl⟩
    · -- What of the blanks is in the part ends like it, so there is nothing of them.
      rcases List.eq_nil_or_concat more with rfl | ⟨more, x, rfl⟩
      · rw [List.append_nil] at hpart
        rw [List.nil_append] at hafter
        subst hpart hafter
        have hread := hlocal [] (endsNumber_gaps gaps_nil)
        rw [List.append_nil] at hread
        exact ⟨⟨[], hread, gaps_nil⟩, hbefore, hrest⟩
      · rw [List.concat_eq_append] at hpart hafter
        rw [← List.append_assoc] at hpart
        obtain ⟨-, hx⟩ := List.append_inj' hpart rfl
        obtain ⟨rfl, -⟩ := List.cons.inj hx
        rw [ha last (by simp [hafter])] at hlast
        cases hlast
    · have hgaps : Gaps more ∧ Gaps after := List.forall_mem_append.mp hrest
      exact ⟨⟨more, hlocal more (endsNumber_gaps hgaps.1), hgaps.1⟩, hbefore, hgaps.2⟩
  · rintro ⟨⟨rest, hread, hrest⟩, hbefore, hafter⟩
    obtain ⟨part, rfl, -, hlocal⟩ := value_local _ _ _ _ hread
    have hgaps : Gaps (rest ++ after) := List.forall_mem_append.mpr ⟨hrest, hafter⟩
    refine ⟨rest ++ after, ?_, hgaps⟩
    rw [value_gaps _ _ hbefore, List.append_assoc]
    exact hlocal _ (endsNumber_gaps hgaps)

end JsonInspect.Json
