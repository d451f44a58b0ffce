import JsonInspect.Proofs.Json.Reread
import JsonInspect.Proofs.Json.Strings

/-! # Reading a written value back

A value is read back from its text in any layout that puts nothing but gaps between the tokens,
whatever follows it, as long as the reader's depth is enough (`value_write`). -/

namespace JsonInspect

open Json

def Json.Gaps (cs : List Char) : Prop := ∀ c ∈ cs, isGap c = true

/-- A layout that puts nothing but gaps between the tokens. -/
structure Layout.Spaced (layout : Layout) : Prop where
  gap : ∀ depth, Gaps (layout.gap depth)
  afterColon : Gaps layout.afterColon

theorem Layout.compact_spaced : Layout.compact.Spaced :=
  ⟨fun _ _ h => (nomatch h), fun _ h => nomatch h⟩

theorem Layout.indented_spaced (width : Nat) : (Layout.indented width).Spaced := by
  refine ⟨fun depth c hc => ?_, fun c hc => ?_⟩
  · rcases List.mem_cons.mp hc with rfl | hc
    · rfl
    · rw [List.eq_of_mem_replicate hc]
      rfl
  · rw [List.mem_singleton.mp hc]
    rfl

namespace Json

/-! ## Gaps -/

theorem gaps_nil : Gaps [] := fun _ h => nomatch h

theorem skipGap_append {front : List Char} (rest : List Char) (h : Gaps front) :
    skipGap (front ++ rest) = skipGap rest :=
  List.dropWhile_append_of_pos h

theorem skipGap_cons {c : Char} (rest : List Char) (h : isGap c = false) :
    skipGap (c :: rest) = c :: rest := by
  rw [skipGap, List.dropWhile_cons, h]
  rfl

theorem skipGap_gaps_cons {front : List Char} {c : Char} (rest : List Char) (hf : Gaps front)
    (hc : isGap c = false) : skipGap (front ++ c :: rest) = c :: rest := by
  rw [skipGap_append _ hf, skipGap_cons rest hc]

/-- Neither a gap nor a mark that is no part of a number continues a number. -/
theorem endsNumber_gaps_cons {front : List Char} {c : Char} (rest : List Char)
    (hf : Gaps front) (hc : c.isDigit = false ∧ c ≠ '.' ∧ c ≠ 'e' ∧ c ≠ 'E') :
    EndsNumber (front ++ c :: rest) := by
  intro x hx
  cases front with
  | nil =>
    obtain rfl := Option.some.inj hx
    exact hc
  | cons g front =>
    obtain rfl := Option.some.inj hx
    have hg := hf g List.mem_cons_self
    simp only [isGap, Bool.or_eq_true, beq_iff_eq] at hg
    rcases hg with ((rfl | rfl) | rfl) | rfl <;> decide

theorem endsNumber_mark {c : Char} (rest : List Char)
    (hc : c.isDigit = false ∧ c ≠ '.' ∧ c ≠ 'e' ∧ c ≠ 'E') : EndsNumber (c :: rest) :=
  endsNumber_gaps_cons rest gaps_nil hc

theorem valueWith_gaps {nested : Option (Reader Json)} {front : List Char} (rest : List Char)
    (h : Gaps front) : valueWith nested (front ++ rest) = valueWith nested rest := by
  rw [valueWith, skipGap_append rest h, valueWith]

theorem value_gaps (n : Nat) {front : List Char} (rest : List Char) (h : Gaps front) :
    value n (front ++ rest) = value n rest := by
  cases n <;> exact valueWith_gaps rest h

/-! ## How a written value starts -/

def StartsValue (c : Char) : Prop :=
  c = 'n' ∨ c = 't' ∨ c = 'f' ∨ c = '-' ∨ c.isDigit = true ∨ c = '"' ∨ c = '[' ∨ c = '\x7b'

theorem StartsValue.not_gap {c : Char} (h : StartsValue c) : isGap c = false := by
  by_contra hg
  simp only [isGap, Bool.not_eq_false, Bool.or_eq_true, beq_iff_eq] at hg
  rcases hg with ((rfl | rfl) | rfl) | rfl <;> revert h <;> unfold StartsValue <;> decide

theorem StartsValue.ne_bracket {c : Char} (h : StartsValue c) : c ≠ ']' := by
  rintro rfl
  revert h
  unfold StartsValue
  decide

/-- A number starts with a minus sign or a digit. -/
theorem number_starts {cs rest : List Char} {n : Number} (h : number cs = .ok (n, rest)) :
    ∃ c cs', cs = c :: cs' ∧ (c = '-' ∨ c.isDigit = true) := by
  cases cs with
  | nil => exact nomatch h
  | cons c cs =>
    refine ⟨c, cs, rfl, ?_⟩
    by_cases hc : c = '-'
    · exact .inl hc
    · right
      have hminus : minus (c :: cs) = (false, c :: cs) := by
        unfold minus
        split
        · rename_i h'
          exact absurd (List.cons.inj h').1 hc
        · rfl
      rw [number, hminus] at h
      obtain ⟨⟨ds, mid⟩, hw, -⟩ := bind_eq_ok.mp h
      unfold wholeDigits at hw
      split at hw
      · rename_i h'
        cases h'
      · rename_i h'
        rw [(List.cons.inj h').1]
        rfl
      · rename_i h'
        rw [(List.cons.inj h').1]
        split at hw
        · assumption
        · cases hw

theorem write_starts (layout : Layout) (depth : Nat) {v : Json} (h : v.wellFormed = true) :
    ∃ c cs, v.write layout depth = c :: cs ∧ StartsValue c := by
  cases v with
  | null => exact ⟨'n', _, write_null layout depth, by simp [StartsValue]⟩
  | bool b =>
    rw [write_bool]
    cases b
    · exact ⟨'f', _, rfl, by simp [StartsValue]⟩
    · exact ⟨'t', _, rfl, by simp [StartsValue]⟩
  | num n =>
    have hread : number (n.chars ++ []) = _ := Number.number_chars h fun _ h => nomatch h
    rw [List.append_nil] at hread
    obtain ⟨c, cs, hcs, hc⟩ := number_starts hread
    refine ⟨c, cs, ?_, ?_⟩
    · rw [write_num, scalarChars, hcs]
    · rcases hc with hc | hc <;> simp [StartsValue, hc]
  | str s => exact ⟨'"', _, write_str layout depth s, by simp [StartsValue]⟩
  | arr items =>
    cases items with
    | nil => exact ⟨'[', _, write_arr_nil layout depth, by simp [StartsValue]⟩
    | cons item rest => exact ⟨'[', _, write_arr_cons layout depth item rest, by simp [StartsValue]⟩
  | obj entries =>
    cases entries with
    | nil => exact ⟨'\x7b', _, write_obj_nil layout depth, by simp [StartsValue]⟩
    | cons e rest =>
      exact ⟨'\x7b', _, write_obj_cons layout depth e.1 e.2 rest, by simp [StartsValue]⟩

/-! ## Containers -/

section

variable {layout : Layout} {depth : Nat} {reader : Reader Json} {closing tail : List Char}

/-- A reader reads a value back from its text, with gaps before and any ending after it. -/
def ReadsBack (reader : Reader Json) (layout : Layout) (depth : Nat) (v : Json) : Prop :=
  ∀ front rest, Gaps front → EndsNumber rest →
    reader (front ++ (v.write layout depth ++ rest)) = .ok (v.reread, rest)

theorem elements_last {fuel cs mid : List Char} {x : Char} {item : Json}
    (h : reader cs = .ok (item, mid)) (hmid : skipGap mid = ']' :: tail) :
    elements reader (x :: fuel) cs = .ok ([item], tail) := by
  rw [elements, h, ok_bind]
  dsimp only
  rw [hmid]
  rfl

theorem elements_more {fuel cs mid after next : List Char} {x c : Char} {item : Json}
    {items : List Json} (h : reader cs = .ok (item, mid)) (hmid : skipGap mid = ',' :: after)
    (hafter : skipGap after = c :: next) (hc : c ≠ ']')
    (hrest : elements reader fuel (c :: next) = .ok (items, tail)) :
    elements reader (x :: fuel) cs = .ok (item :: items, tail) := by
  rw [elements, h, ok_bind]
  dsimp only
  rw [hmid]
  simp only [hafter]
  split
  · rename_i h'
    cases h'
  · rename_i h'
    exact absurd (List.cons.inj h').1 hc
  · rw [hrest]
    rfl

/-- What follows an element ends a number. -/
theorem endsNumber_writeItems (items : List Json) (hc : Gaps closing) :
    EndsNumber (writeItems layout depth items ++ (closing ++ ']' :: tail)) := by
  cases items with
  | nil => exact endsNumber_gaps_cons tail hc (by decide)
  | cons item rest =>
    rw [writeItems_cons]
    exact endsNumber_mark _ (by decide)

/-- The elements of an array are read back, the first of them without a comma. -/
theorem elements_write (tail : List Char) (hl : layout.Spaced) (hc : Gaps closing) {item : Json}
    {rest : List Json} {fuel : List Char} (hf : rest.length < fuel.length)
    (hw : ∀ i ∈ item :: rest, i.wellFormed = true)
    (hr : ∀ i ∈ item :: rest, ReadsBack reader layout depth i) :
    elements reader fuel
        (item.write layout depth ++ (writeItems layout depth rest ++ (closing ++ ']' :: tail))) =
      .ok ((item :: rest).map reread, tail) := by
  induction rest generalizing item fuel with
  | nil =>
    obtain ⟨x, fuel, rfl⟩ := List.exists_cons_of_length_pos hf
    refine elements_last (hr item List.mem_cons_self [] _ gaps_nil
      (endsNumber_writeItems [] hc)) ?_
    exact skipGap_gaps_cons tail hc rfl
  | cons next rest ih =>
    obtain ⟨x, fuel, rfl⟩ := List.exists_cons_of_length_pos (Nat.zero_lt_of_lt hf)
    rw [List.forall_mem_cons] at hw
    rw [List.forall_mem_cons] at hr
    obtain ⟨c, cs, hcs, hstart⟩ := write_starts layout depth (hw.2 next List.mem_cons_self)
    have hrest := ih (Nat.lt_of_succ_lt_succ hf) hw.2 hr.2
    have hafter : skipGap (layout.gap depth ++ (next.write layout depth ++
        (writeItems layout depth rest ++ (closing ++ ']' :: tail)))) = c :: (cs ++
          (writeItems layout depth rest ++ (closing ++ ']' :: tail))) := by
      rw [hcs]
      exact skipGap_gaps_cons _ (hl.gap depth) hstart.not_gap
    rw [hcs] at hrest
    refine elements_more (hr.1 [] _ gaps_nil (endsNumber_writeItems _ hc)) ?_
      hafter hstart.ne_bracket hrest
    rw [writeItems_cons]
    simp only [List.cons_append, List.append_assoc]
    exact skipGap_cons _ rfl

theorem length_le_length_writeItems (layout : Layout) (depth : Nat) (items : List Json) :
    items.length ≤ (writeItems layout depth items).length := by
  induction items with
  | nil => exact Nat.le_refl 0
  | cons item rest ih =>
    rw [writeItems_cons, List.length_cons, List.length_cons, List.length_append]
    omega

theorem array_elements {cs next : List Char} {c : Char} {items : List Json}
    (h : skipGap cs = c :: next) (hc : c ≠ ']')
    (hr : elements reader (c :: next) (c :: next) = .ok (items, tail)) :
    array reader cs = .ok (arr items, tail) := by
  rw [array, h]
  split
  · rename_i h'
    cases h'
  · rename_i h'
    exact absurd (List.cons.inj h').1 hc
  · rw [hr]
    rfl

theorem array_write (hl : layout.Spaced) {item : Json} {items : List Json}
    (hw : ∀ i ∈ item :: items, i.wellFormed = true)
    (hr : ∀ i ∈ item :: items, ReadsBack reader layout (depth + 1) i) :
    array reader (layout.gap (depth + 1) ++ (item.write layout (depth + 1) ++
        (writeItems layout (depth + 1) items ++ (layout.gap depth ++ ']' :: tail)))) =
      .ok (arr ((item :: items).map reread), tail) := by
  obtain ⟨c, cs, hcs, hstart⟩ := write_starts layout (depth + 1) (hw item List.mem_cons_self)
  have hlen := length_le_length_writeItems layout (depth + 1) items
  have hfuel : items.length < (c :: (cs ++ (writeItems layout (depth + 1) items ++
      (layout.gap depth ++ ']' :: tail)))).length := by
    rw [List.length_cons, List.length_append, List.length_append]
    omega
  have helems := elements_write tail hl (hl.gap depth) hfuel hw hr
  rw [hcs] at helems
  refine array_elements ?_ hstart.ne_bracket helems
  rw [hcs]
  exact skipGap_gaps_cons _ (hl.gap (depth + 1)) hstart.not_gap

def entryChars (layout : Layout) (depth : Nat) (e : String × Json) (tail : List Char) :
    List Char :=
  Quoted.literal e.1 ++ (':' :: (layout.afterColon ++ (e.2.write layout depth ++ tail)))

/-- An entry is read back after the opening quote of its key. -/
theorem member_entryChars (hl : layout.Spaced) {e : String × Json} {rest : List Char}
    (hr : ReadsBack reader layout depth e.2) (hrest : EndsNumber rest) :
    ∃ inner, entryChars layout depth e rest = '"' :: inner ∧
      member reader inner = .ok ((e.1, e.2.reread), rest) := by
  obtain ⟨inner, hinner, hstring⟩ := string_literal e.1
    (':' :: (layout.afterColon ++ (e.2.write layout depth ++ rest)))
  refine ⟨inner, hinner, ?_⟩
  rw [member, hstring, ok_bind]
  dsimp only
  rw [skipGap_cons _ rfl]
  simp only [hr layout.afterColon rest hl.afterColon hrest, ok_bind]

theorem members_last {fuel cs mid : List Char} {x : Char} {e : String × Json}
    (h : member reader cs = .ok (e, mid)) (hmid : skipGap mid = '\x7d' :: tail) :
    members reader (x :: fuel) cs = .ok ([e], tail) := by
  rw [members, h, ok_bind]
  dsimp only
  rw [hmid]
  rfl

theorem members_more {fuel cs mid after next : List Char} {x : Char} {e : String × Json}
    {entries : List (String × Json)} (h : member reader cs = .ok (e, mid))
    (hmid : skipGap mid = ',' :: after) (hafter : skipGap after = '"' :: next)
    (hrest : members reader fuel next = .ok (entries, tail)) :
    members reader (x :: fuel) cs = .ok (e :: entries, tail) := by
  rw [members, h, ok_bind]
  dsimp only
  rw [hmid]
  simp only [hafter, hrest, ok_bind]

theorem endsNumber_writeEntries (entries : List (String × Json)) (hc : Gaps closing) :
    EndsNumber (writeEntries layout depth entries ++ (closing ++ '\x7d' :: tail)) := by
  cases entries with
  | nil => exact endsNumber_gaps_cons tail hc (by decide)
  | cons e rest =>
    rw [writeEntries_cons]
    exact endsNumber_mark _ (by decide)

/-- The entries of an object are read back, the first of them without a comma. -/
theorem members_write (tail : List Char) (hl : layout.Spaced) (hc : Gaps closing)
    {e : String × Json} {rest : List (String × Json)} (hr : ∀ i ∈ e :: rest, ReadsBack reader layout depth i.2) :
    ∃ inner, entryChars layout depth e
        (writeEntries layout depth rest ++ (closing ++ '\x7d' :: tail)) = '"' :: inner ∧
      ∀ fuel : List Char, rest.length < fuel.length →
        members reader fuel inner = .ok (Entries.mapValues reread (e :: rest), tail) := by
  induction rest generalizing e with
  | nil =>
    obtain ⟨inner, hinner, hmember⟩ := member_entryChars hl (hr e List.mem_cons_self)
      (endsNumber_writeEntries [] hc)
    refine ⟨inner, hinner, fun fuel hf => ?_⟩
    obtain ⟨x, fuel, rfl⟩ := List.exists_cons_of_length_pos hf
    exact members_last hmember (skipGap_gaps_cons tail hc rfl)
  | cons next rest ih =>
    rw [List.forall_mem_cons] at hr
    obtain ⟨inner, hinner, hmember⟩ := member_entryChars hl hr.1
      (endsNumber_writeEntries (next :: rest) hc)
    obtain ⟨inner', hinner', hmembers⟩ := ih hr.2
    refine ⟨inner, hinner, fun fuel hf => ?_⟩
    obtain ⟨x, fuel, rfl⟩ := List.exists_cons_of_length_pos (Nat.zero_lt_of_lt hf)
    have hafter : skipGap (layout.gap depth ++ entryChars layout depth next
        (writeEntries layout depth rest ++ (closing ++ '\x7d' :: tail))) = '"' :: inner' := by
      rw [hinner']
      exact skipGap_gaps_cons _ (hl.gap depth) rfl
    refine members_more hmember ?_ hafter (hmembers fuel (Nat.lt_of_succ_lt_succ hf))
    rw [writeEntries_cons, entryChars]
    simp only [List.cons_append, List.append_assoc]
    exact skipGap_cons _ rfl

theorem length_le_length_writeEntries (layout : Layout) (depth : Nat)
    (entries : List (String × Json)) :
    entries.length ≤ (writeEntries layout depth entries).length := by
  induction entries with
  | nil => exact Nat.le_refl 0
  | cons e rest ih =>
    rw [writeEntries_cons, List.length_cons, List.length_cons, List.length_append]
    omega

theorem object_members {cs next : List Char} {entries : List (String × Json)}
    (h : skipGap cs = '"' :: next)
    (hr : members reader ('"' :: next) next = .ok (entries, tail)) :
    object reader cs = .ok (obj (Entries.ofPairs entries), tail) := by
  rw [object, h]
  simp only [hr, ok_bind]

theorem object_write (hl : layout.Spaced) {e : String × Json} {entries : List (String × Json)}
    (hn : (Entries.keys (e :: entries)).Nodup)
    (hr : ∀ i ∈ e :: entries, ReadsBack reader layout (depth + 1) i.2) :
    object reader (layout.gap (depth + 1) ++ entryChars layout (depth + 1) e
        (writeEntries layout (depth + 1) entries ++ (layout.gap depth ++ '\x7d' :: tail))) =
      .ok (obj (Entries.mapValues reread (e :: entries)), tail) := by
  obtain ⟨inner, hinner, hmembers⟩ := members_write tail hl (hl.gap depth) hr
  have hfuel : entries.length < ('"' :: inner).length := by
    have h := length_le_length_writeEntries layout (depth + 1) entries
    rw [← hinner, entryChars]
    simp only [List.length_append, List.length_cons]
    omega
  rw [hinner]
  have hread := object_members (skipGap_gaps_cons inner (hl.gap (depth + 1)) rfl)
    (hmembers _ hfuel)
  rwa [Entries.ofPairs_of_nodup] at hread
  rw [Entries.keys_mapValues]
  exact hn

end

/-! ## Values -/

section

variable {nested : Option (Reader Json)} {reader : Reader Json} {rest : List Char}

theorem valueWith_number {cs : List Char} {n : Number} (h : number cs = .ok (n, rest)) :
    valueWith nested cs = .ok (num n, rest) := by
  obtain ⟨c, cs, rfl, hc⟩ := number_starts h
  have hstart : StartsValue c := by rcases hc with hc | hc <;> simp [StartsValue, hc]
  have hn : c ≠ 'n' ∧ c ≠ 't' ∧ c ≠ 'f' := by
    refine ⟨?_, ?_, ?_⟩ <;> rintro rfl <;> revert hc <;> decide
  rw [valueWith, skipGap_cons cs hstart.not_gap]
  dsimp only
  rw [if_neg hn.1, if_neg hn.2.1, if_neg hn.2.2, if_pos hc, h, ok_bind]

theorem valueWith_quote {cs : List Char} {s : String} (h : string cs = .ok (s, rest)) :
    valueWith nested ('"' :: cs) = .ok (str s, rest) := by
  show (string cs >>= fun p => .ok (str p.1, p.2)) = _
  rw [h, ok_bind]

theorem valueWith_string (s : String) (rest : List Char) :
    valueWith nested (Quoted.literal s ++ rest) = .ok (str s, rest) := by
  obtain ⟨inner, hinner, hstring⟩ := string_literal s rest
  rw [hinner]
  exact valueWith_quote hstring

theorem valueWith_array (cs : List Char) :
    valueWith (some reader) ('[' :: cs) = array reader cs := rfl

theorem valueWith_object (cs : List Char) :
    valueWith (some reader) ('\x7b' :: cs) = object reader cs := rfl

end

/-- A written value is read back by a reader whose depth is enough, whatever ends it. -/
theorem value_write {layout : Layout} (hl : layout.Spaced) {v : Json} {n : Nat}
    (hw : v.wellFormed = true) (hn : v.depth ≤ n) (depth : Nat) (rest : List Char)
    (hr : EndsNumber rest) :
    value n (v.write layout depth ++ rest) = .ok (v.reread, rest) := by
  induction v using induction generalizing n depth rest with
  | null =>
    rw [write_null]
    cases n <;> rfl
  | bool b =>
    rw [write_bool]
    cases n <;> cases b <;> rfl
  | num k =>
    rw [write_num]
    cases n <;> exact valueWith_number (Number.number_chars hw hr)
  | str s =>
    rw [write_str]
    cases n <;> exact valueWith_string s rest
  | arr items ih =>
    cases n with
    | zero => exact absurd hn (Nat.not_succ_le_zero _)
    | succ n =>
      rw [wellFormed_arr] at hw
      rw [depth_arr_le] at hn
      have hread : ∀ item ∈ items, ReadsBack (value n) layout (depth + 1) item := by
        intro item hi front rest hf hrest
        rw [value_gaps n _ hf]
        exact ih item hi (hw item hi) (hn item hi) (depth + 1) rest hrest
      rw [value, reread_arr]
      cases items with
      | nil => rfl
      | cons item items =>
        rw [write_arr_cons, List.cons_append, valueWith_array]
        simp only [List.append_assoc]
        exact array_write hl hw hread
  | obj entries ih =>
    cases n with
    | zero => exact absurd hn (Nat.not_succ_le_zero _)
    | succ n =>
      rw [wellFormed_obj] at hw
      rw [depth_obj_le] at hn
      have hread : ∀ e ∈ entries, ReadsBack (value n) layout (depth + 1) e.2 := by
        intro e he front rest hf hrest
        rw [value_gaps n _ hf]
        exact ih e he (hw.2 e he) (hn e he) (depth + 1) rest hrest
      rw [value, reread_obj]
      cases entries with
      | nil => rfl
      | cons e entries =>
        rw [write_obj_cons, List.cons_append, valueWith_object]
        simp only [List.append_assoc, List.cons_append]
        exact object_write hl hw.1 hread

end Json

end JsonInspect
