import JsonInspect.Proofs.Json.Entries
import JsonInspect.Proofs.Number.Digits
import JsonInspect.Proofs.Toml.Strings
import JsonInspect.Settings

/-! # Documents of one value a line

A line gives a bare key one of the values that are written there: a boolean, a size or a string
(`writes_boolean`, `writes_size`, `writes_string`). A text of such lines with distinct keys is read
as the entries that its lines write, in their order (`document?_lines`). -/

namespace JsonInspect.Toml

open Json

/-! ## Values at the end of a line -/

/-- What the characters up to the end of a line are read as. -/
def Writes (cs : List Char) (v : Value) : Prop :=
  ∀ rest, scalar? (cs ++ '\n' :: rest) = some (v, '\n' :: rest)

theorem writes_boolean (b : Bool) : Writes (Settings.booleanChars b) (.boolean b) := by
  cases b <;> exact fun _ => rfl

theorem writes_string (s : String) : Writes (Quoted.write s) (.string s) := by
  intro rest
  have hread : string? (Quoted.write s ++ '\n' :: rest) = some (s.toList, '\n' :: rest) :=
    string?_write s rfl rfl
  obtain ⟨quote, cs, hwrite, hquote⟩ : ∃ quote cs,
      Quoted.write s ++ '\n' :: rest = quote :: cs ∧ (quote = '"' ∨ quote = '\'') := by
    rw [Quoted.write]
    cases Quoted.Form.of s.toList with
    | basic => exact ⟨_, _, rfl, .inl rfl⟩
    | literal => exact ⟨_, _, rfl, .inr rfl⟩
    | multilineBasic => exact ⟨_, _, rfl, .inl rfl⟩
    | multilineLiteral => exact ⟨_, _, rfl, .inr rfl⟩
  rw [hwrite] at hread ⊢
  rw [scalar?, if_pos hquote, hread, Option.bind_eq_bind, Option.bind_some]
  dsimp only
  rw [String.ofList_toList]

/-! ### Sizes -/

section

variable {ds rest : List Char}

theorem ne_of_isDigit {c x : Char} (hc : c.isDigit = true) (hx : x.isDigit = false) : c ≠ x := by
  rintro rfl
  rw [hc] at hx
  cases hx

theorem moreDigits_line (hd : Digits ds) (rest : List Char) :
    moreDigits Char.isDigit (ds ++ '\n' :: rest) = some (ds, '\n' :: rest) := by
  induction ds with
  | nil => rfl
  | cons d ds ih =>
    have hdigit := hd d List.mem_cons_self
    have hmark := ne_of_isDigit hdigit (rfl : '_'.isDigit = false)
    rw [List.cons_append]
    unfold moreDigits
    split
    · next heq => exact absurd (List.cons.inj heq).1 hmark
    · next heq => exact absurd (List.cons.inj heq).1 hmark
    · next heq =>
      obtain ⟨rfl, rfl⟩ := List.cons.inj heq
      rw [if_pos hdigit, ih fun x hx => hd x (List.mem_cons_of_mem _ hx)]
      rfl
    · next heq => cases heq

theorem decimal?_line (hd : WholeDigits ds) (rest : List Char) :
    decimal? (ds ++ '\n' :: rest) = some (ds, '\n' :: rest) := by
  obtain ⟨d, ds, rfl⟩ := List.exists_cons_of_ne_nil hd.ne_nil
  have hdigit := hd.digits d List.mem_cons_self
  rw [List.cons_append]
  unfold decimal?
  split
  · next heq =>
    obtain ⟨rfl, rfl⟩ := List.cons.inj heq
    obtain rfl := (List.cons.inj (hd.zero_alone rfl)).2
    rfl
  · rw [digits?, if_pos hdigit, moreDigits_line fun x hx => hd.digits x (List.mem_cons_of_mem _ hx)]
    rfl

/-- Digits up to the end of the line do not continue as a date or a time would. -/
theorem mark?_fixed {count least greatest n : Nat} {x : Char} {tail : List Char} (hd : Digits ds)
    (hx : x.isDigit = false) (hline : x ≠ '\n')
    (h : fixed? count least greatest (ds ++ '\n' :: rest) = some (n, tail)) :
    mark? x tail = none := by
  simp only [fixed?] at h
  split_ifs at h with hfixed hbounds
  obtain ⟨hlength, hall⟩ := Bool.and_eq_true_iff.mp hfixed
  have hcount : count ≤ ds.length := by
    by_contra hshort
    obtain ⟨more, hmore⟩ := Nat.exists_eq_add_one_of_ne_zero (show count - ds.length ≠ 0 by omega)
    have hmem : '\n' ∈ (ds ++ '\n' :: rest).take count := by
      rw [List.take_append, hmore, List.take_succ_cons]
      exact List.mem_append_right _ List.mem_cons_self
    exact absurd (List.all_eq_true.mp hall _ hmem) (by decide)
  rw [List.drop_append_of_le_length hcount] at h
  obtain rfl := (Prod.mk.inj (Option.some.inj h)).2
  cases hdrop : ds.drop count with
  | nil => exact if_neg hline.symm
  | cons d more =>
    have hmem : d ∈ ds := List.mem_of_mem_drop (hdrop ▸ List.mem_cons_self)
    exact if_neg (ne_of_isDigit (hd d hmem) hx)

theorem date?_line (hd : Digits ds) (rest : List Char) : date? (ds ++ '\n' :: rest) = none := by
  rw [date?]
  cases hyear : fixed? 4 0 9999 (ds ++ '\n' :: rest) with
  | none => rfl
  | some found =>
    obtain ⟨year, tail⟩ := found
    have hmark := mark?_fixed hd (rfl : '-'.isDigit = false) (by decide) hyear
    rw [Option.bind_eq_bind, Option.bind_some]
    dsimp only
    rw [hmark]
    rfl

theorem time?_line (hd : Digits ds) (rest : List Char) : time? (ds ++ '\n' :: rest) = none := by
  rw [time?]
  cases hhour : fixed? 2 0 23 (ds ++ '\n' :: rest) with
  | none => rfl
  | some found =>
    obtain ⟨hour, tail⟩ := found
    have hmark := mark?_fixed hd (rfl : ':'.isDigit = false) (by decide) hhour
    rw [Option.bind_eq_bind, Option.bind_some]
    dsimp only
    rw [hmark]
    rfl

theorem dateTime?_line (hd : Digits ds) (rest : List Char) :
    dateTime? (ds ++ '\n' :: rest) = none := by
  rw [dateTime?, date?_line hd, time?_line hd]
  rfl

theorem sign_line (hd : WholeDigits ds) (rest : List Char) :
    sign (ds ++ '\n' :: rest) = (none, ds ++ '\n' :: rest) := by
  obtain ⟨d, ds, rfl⟩ := List.exists_cons_of_ne_nil hd.ne_nil
  have hdigit := hd.digits d List.mem_cons_self
  rw [List.cons_append]
  unfold sign
  split
  · next heq => exact absurd (List.cons.inj heq).1 (ne_of_isDigit hdigit rfl)
  · next heq => exact absurd (List.cons.inj heq).1 (ne_of_isDigit hdigit rfl)
  · rfl

theorem number?_line (hd : WholeDigits ds) {v : Value} (rest : List Char)
    (hv : integerOf? (Nat.ofDigitChars 10 ds 0 : Nat) = some v) :
    number? (ds ++ '\n' :: rest) = some (v, '\n' :: rest) := by
  have hfraction : fraction? ('\n' :: rest) = some (none, '\n' :: rest) := rfl
  have hexponent : exponent? ('\n' :: rest) = some (none, '\n' :: rest) := rfl
  simp only [number?, sign_line hd, decimal?_line hd, hfraction, hexponent, Option.bind_eq_bind,
    Option.bind_some, Option.isNone_none, Bool.and_self, if_true, reduceCtorEq, decide_false,
    Bool.false_eq_true, if_false, hv]

theorem numeric?_line (hd : WholeDigits ds) {v : Value} (rest : List Char)
    (hv : integerOf? (Nat.ofDigitChars 10 ds 0 : Nat) = some v) :
    numeric? (ds ++ '\n' :: rest) = some (v, '\n' :: rest) := by
  have hbase {x : Char} {tail : List Char} (hx : x.isDigit = false) (hline : x ≠ '\n')
      (h : ds ++ '\n' :: rest = '0' :: x :: tail) : False := by
    obtain ⟨d, ds, rfl⟩ := List.exists_cons_of_ne_nil hd.ne_nil
    obtain ⟨rfl, htail⟩ := List.cons.inj h
    obtain rfl := (List.cons.inj (hd.zero_alone rfl)).2
    exact hline (List.cons.inj htail).1.symm
  unfold numeric?
  rw [dateTime?_line hd.digits]
  dsimp only
  split
  · next heq => exact (hbase rfl (by decide) heq).elim
  · next heq => exact (hbase rfl (by decide) heq).elim
  · next heq => exact (hbase rfl (by decide) heq).elim
  · rw [number?_line hd rest hv]

/-- A size is written in digits, which are read as an integer if 64 bits hold it. -/
theorem writes_size {n : Nat} (hn : n ≤ Settings.greatestSize) :
    Writes (Settings.sizeChars n) (.integer n) := by
  intro rest
  have hd : WholeDigits (Nat.toDigits 10 n) := wholeDigits_toDigits n
  have hv : integerOf? (Nat.ofDigitChars 10 (Nat.toDigits 10 n) 0 : Nat) = some (.integer n) := by
    rw [Nat.ofDigitChars_ten_toDigits]
    have hleast : Int64.minValue.toInt ≤ 0 := by decide
    have hgreatest : Int64.maxValue.toInt = Settings.greatestSize := by decide
    exact if_pos (by omega)
  have hread := numeric?_line hd rest hv
  rw [Settings.sizeChars]
  obtain ⟨d, ds, hds⟩ := List.exists_cons_of_ne_nil hd.ne_nil
  have hdigit := hd.digits d (hds ▸ List.mem_cons_self)
  rw [hds, List.cons_append] at hread ⊢
  have hquote : ¬ (d = '"' ∨ d = '\'') := by
    rintro (rfl | rfl) <;> cases hdigit
  rw [scalar?, if_neg hquote, if_pos (.inr (.inr hdigit)), hread]

end

/-! ## Lines -/

def IsBareKey (key : String) : Prop := key ≠ "" ∧ key.toList.all isBareKeyChar = true

instance (key : String) : Decidable (IsBareKey key) :=
  inferInstanceAs (Decidable (key ≠ "" ∧ key.toList.all isBareKeyChar = true))

theorem ne_of_isBareKeyChar {c x : Char} (hc : isBareKeyChar c = true)
    (hx : isBareKeyChar x = false) : c ≠ x := by
  rintro rfl
  rw [hc] at hx
  cases hx

theorem IsBareKey.exists_cons {key : String} (h : IsBareKey key) :
    ∃ c cs, key.toList = c :: cs ∧ isBareKeyChar c = true := by
  obtain ⟨c, cs, hcs⟩ := List.exists_cons_of_ne_nil (mt String.toList_eq_nil_iff.mp h.1)
  refine ⟨c, cs, hcs, List.all_eq_true.mp h.2 c ?_⟩
  rw [hcs]
  exact List.mem_cons_self

theorem IsBareKey.line_eq_cons {key : String} (h : IsBareKey key) (value rest : List Char) :
    ∃ c tail, Settings.line key value ++ rest = c :: tail ∧ isBareKeyChar c = true := by
  obtain ⟨c, cs, hcs, hc⟩ := h.exists_cons
  exact ⟨c, cs ++ [' ', '=', ' '] ++ value ++ ['\n'] ++ rest, by simp [Settings.line, hcs], hc⟩

theorem skipSpaces_of_ne {c : Char} (hc : isSpace c = false) (cs : List Char) :
    skipSpaces (c :: cs) = c :: cs := by
  rw [skipSpaces, List.dropWhile_cons_of_neg (by rw [hc]; exact Bool.false_ne_true)]

theorem isSpace_of_isBareKeyChar {c : Char} (hc : isBareKeyChar c = true) : isSpace c = false := by
  rw [isSpace, Bool.or_eq_false_iff]
  exact ⟨beq_false_of_ne (ne_of_isBareKeyChar hc rfl), beq_false_of_ne (ne_of_isBareKeyChar hc rfl)⟩

section

variable {key : String} {cs rest text : List Char} {v : Value}

theorem keyPart?_bare (hkey : IsBareKey key) {x : Char} (hx : isBareKeyChar x = false)
    (rest : List Char) : keyPart? (key.toList ++ x :: rest) = some (key, x :: rest) := by
  obtain ⟨c, cs, hcs, hc⟩ := hkey.exists_cons
  have hall := List.all_eq_true.mp hkey.2
  have hx' : ¬ isBareKeyChar x = true := by
    rw [hx]
    exact Bool.false_ne_true
  have htake : (key.toList ++ x :: rest).takeWhile isBareKeyChar = key.toList := by
    rw [List.takeWhile_append_of_pos hall, List.takeWhile_cons_of_neg hx', List.append_nil]
  have hdrop : (key.toList ++ x :: rest).dropWhile isBareKeyChar = x :: rest := by
    rw [List.dropWhile_append_of_pos hall, List.dropWhile_cons_of_neg hx']
  unfold keyPart?
  split
  · next heq =>
    rw [hcs] at heq
    exact absurd (List.cons.inj heq).1 (ne_of_isBareKeyChar hc rfl)
  · next heq =>
    rw [hcs] at heq
    exact absurd (List.cons.inj heq).1 (ne_of_isBareKeyChar hc rfl)
  · have hne : ¬ key.toList.isEmpty = true := by
      rw [hcs]
      exact Bool.false_ne_true
    dsimp only
    rw [htake, hdrop, if_neg hne, String.ofList_toList]

theorem key?_bare (hkey : IsBareKey key) (rest : List Char) :
    key? (key.toList ++ ' ' :: '=' :: rest) = some ([key], '=' :: rest) := by
  have hskip : skipSpaces (key.toList ++ ' ' :: '=' :: rest) =
      key.toList ++ ' ' :: '=' :: rest := by
    obtain ⟨c, cs, hcs, hc⟩ := hkey.exists_cons
    rw [hcs, List.cons_append, skipSpaces_of_ne (isSpace_of_isBareKeyChar hc)]
  change keyParts? (78 + 1) _ = _
  rw [keyParts?, hskip, keyPart?_bare hkey rfl, Option.bind_eq_bind, Option.bind_some]
  rfl

/-- No container starts as a value on one line does. -/
theorem value?_of_scalar? {depth : Nat} {found : Value × List Char} (h : scalar? cs = some found) :
    value? depth cs = some found := by
  unfold value?
  split
  · cases h
  · cases h
  · cases h
  · cases h
  · exact h

theorem skipSpaces_writes (h : Writes cs v) (rest : List Char) :
    skipSpaces (cs ++ '\n' :: rest) = cs ++ '\n' :: rest := by
  have hread := h rest
  cases hcs : cs ++ '\n' :: rest with
  | nil => rfl
  | cons c tail =>
    rw [hcs] at hread
    refine skipSpaces_of_ne ?_ tail
    rw [isSpace, Bool.or_eq_false_iff]
    refine ⟨beq_false_of_ne ?_, beq_false_of_ne ?_⟩
    · rintro rfl
      cases hread
    · rintro rfl
      cases hread

theorem pair?_line (hkey : IsBareKey key) (h : Writes cs v) (rest : List Char) :
    pair? (value? greatestDepth) (Settings.line key cs ++ rest) =
      some (([key], v), '\n' :: rest) := by
  have htext : Settings.line key cs ++ rest =
      key.toList ++ ' ' :: '=' :: ' ' :: (cs ++ '\n' :: rest) := by
    simp [Settings.line]
  have hskip : skipSpaces (' ' :: (cs ++ '\n' :: rest)) = cs ++ '\n' :: rest :=
    skipSpaces_writes h rest
  simp only [pair?, htext, key?_bare hkey, mark?, hskip, value?_of_scalar? (h rest),
    Option.bind_eq_bind, Option.bind_some, if_true]
  rfl

theorem statement?_line (d : Draft) (hkey : IsBareKey key) (h : Writes cs v) (rest : List Char) :
    statement? d (Settings.line key cs ++ rest) = (d.assign [key] v).map fun d => (d, rest) := by
  have hpair := pair?_line hkey h rest
  obtain ⟨c, tail, htail, hc⟩ := hkey.line_eq_cons cs rest
  rw [htail] at hpair ⊢
  unfold statement?
  split
  · next heq => exact absurd (List.cons.inj heq).1 (ne_of_isBareKeyChar hc rfl)
  · next heq => exact absurd (List.cons.inj heq).1 (ne_of_isBareKeyChar hc rfl)
  · next heq => exact absurd (List.cons.inj heq).1 (ne_of_isBareKeyChar hc rfl)
  · next heq => exact absurd (List.cons.inj heq).1 (ne_of_isBareKeyChar hc rfl)
  · next heq => exact absurd (List.cons.inj heq).1 (ne_of_isBareKeyChar hc rfl)
  · have hend : lineEnd? ('\n' :: rest) = some rest := rfl
    rw [hpair, Option.bind_eq_bind, Option.bind_some]
    dsimp only
    rw [hend]
    cases d.assign [key] v <;> rfl

end

/-- Texts of lines, with the entries that the lines write. -/
inductive Lines : List (String × Value) → List Char → Prop
  | nil : Lines [] []
  | cons {key : String} {v : Value} {cs : List Char} {entries : List (String × Value)}
      {text : List Char} : IsBareKey key → Writes cs v → Lines entries text →
      Lines ((key, v) :: entries) (Settings.line key cs ++ text)

/-- A document of which some entries have been read. -/
def Draft.ofEntries (entries : List (String × Value)) : Draft :=
  ⟨Node.empty, .table false false (Entries.mapValues .value entries), [], false⟩

section

variable {front entries : List (String × Value)} {key : String} {v : Value} {text : List Char}

theorem Draft.assign_ofEntries (hkey : key ∉ Entries.keys entries) :
    (Draft.ofEntries entries).assign [key] v = some (Draft.ofEntries (entries ++ [(key, v)])) := by
  have hnode : key ∉ Entries.keys (Entries.mapValues Node.value entries) := by
    rwa [Entries.keys_mapValues]
  have hadd : Node.addEntry false key v (.table false false (Entries.mapValues .value entries)) =
      some (.table false false (Entries.mapValues .value (entries ++ [(key, v)]))) := by
    have hfresh : ¬ (false != false || Entries.hasKey (Entries.mapValues Node.value entries) key) =
        true := by
      rwa [bne_self_eq_false, Bool.false_or, Entries.hasKey_iff]
    rw [Node.addEntry, if_neg hfresh, Entries.put_of_not_mem _ hnode]
    simp [Entries.mapValues]
  change (Node.addEntry false key v (Draft.ofEntries entries).current).map _ = _
  rw [Draft.ofEntries, hadd]
  rfl

theorem Lines.length_le (h : Lines entries text) : entries.length ≤ text.length := by
  induction h with
  | nil => exact Nat.le_refl 0
  | cons _ _ _ ih =>
    rw [List.length_append, List.length_cons, Settings.line]
    simp only [List.length_append, List.length_cons]
    omega

/-- Each line adds its entry to those that were read before. -/
theorem statements?_lines {fuel : Nat} (h : Lines entries text)
    (hn : (Entries.keys (front ++ entries)).Nodup) (hfuel : entries.length < fuel) :
    statements? fuel (Draft.ofEntries front) text = some (Draft.ofEntries (front ++ entries)) := by
  induction h generalizing front fuel with
  | nil =>
    obtain ⟨fuel, rfl⟩ := Nat.exists_eq_add_one_of_ne_zero (Nat.ne_of_gt hfuel)
    rw [List.append_nil]
    rfl
  | @cons key v cs entries text hkey hv _ ih =>
    obtain ⟨fuel, rfl⟩ := Nat.exists_eq_add_one_of_ne_zero (Nat.ne_of_gt (Nat.zero_lt_of_lt hfuel))
    have hstep : statement? (Draft.ofEntries front) (Settings.line key cs ++ text) =
        some (Draft.ofEntries (front ++ [(key, v)]), text) := by
      have hfresh : key ∉ Entries.keys front := by
        rw [Entries.keys, List.map_append, List.nodup_append] at hn
        exact fun hmem => hn.2.2 key hmem key List.mem_cons_self rfl
      rw [statement?_line _ hkey hv, Draft.assign_ofEntries hfresh]
      rfl
    rw [List.append_cons] at hn ⊢
    have hrest := ih hn (Nat.lt_of_succ_lt_succ hfuel)
    obtain ⟨c, tail, htail, hc⟩ := hkey.line_eq_cons cs text
    rw [htail] at hstep ⊢
    rw [statements?, skipSpaces_of_ne (isSpace_of_isBareKeyChar hc)]
    dsimp only
    rw [hstep, Option.bind_eq_bind, Option.bind_some]
    exact hrest

theorem toEntries_mapValues (entries : List (String × Value)) :
    Node.toEntries (Entries.mapValues .value entries) = entries := by
  induction entries with
  | nil => rfl
  | cons e entries ih => rw [Entries.mapValues_cons, Node.toEntries, ih]; rfl

/-- A text of lines with distinct keys is read as the entries that its lines write. -/
theorem document?_lines (h : Lines entries text) (hn : (Entries.keys entries).Nodup) :
    document? (String.ofList text) = some entries := by
  have hn' : (Entries.keys ([] ++ entries)).Nodup := hn
  have hstatements : statements? (text.length + 1) Draft.start text =
      some (Draft.ofEntries entries) :=
    statements?_lines h hn' (Nat.lt_succ_of_le h.length_le)
  have hmark {tail : List Char} (heq : text = '\ufeff' :: tail) : False := by
    cases h with
    | nil => cases heq
    | cons hkey =>
      obtain ⟨c, _, htail, hc⟩ := hkey.line_eq_cons _ _
      rw [htail] at heq
      exact ne_of_isBareKeyChar hc rfl (List.cons.inj heq).1
  have hclose : (Draft.ofEntries entries).close =
      some (.table false false (Entries.mapValues .value entries)) := rfl
  have hroot : (Node.table false false (Entries.mapValues .value entries)).toValue =
      .table entries := by
    rw [Node.toValue, toEntries_mapValues]
  unfold document?
  rw [String.toList_ofList]
  split
  · exact (hmark rfl).elim
  · dsimp only
    simp only [hstatements, hclose, hroot, Option.bind_eq_bind, Option.bind_some]

end

end JsonInspect.Toml
