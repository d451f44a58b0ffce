import JsonInspect.Toml.Quoted
import JsonInspect.Toml.Scalar
import Mathlib.Data.List.Basic

/-! # Reading TOML strings back

Between quotes a text is spelled by its characters, by quotes that do not end the string, and by
escapes (`Spelled`). The readers of all four kinds of strings take what is spelled, both ways of
writing spell the text that they are given, and so every written string is read back
(`string?_write`). -/

namespace JsonInspect.Toml

/-! ## Spellings -/

/-- What follows the backslash in an escape of a character. -/
def IsEscape (c : Char) (mark : List Char) : Prop :=
  ∀ rest, escaped? (mark ++ rest) = some (c, rest) ∧ foldedLine? (mark ++ rest) = none

/-- What is written between quotes and what it stands for. Up to `allowed` quotes may stand next
to each other, but only `room` at the start. -/
inductive Spelled (quote : Char) (escapes lines : Bool) (allowed : Nat) :
    Nat → List Char → List Char → Prop
  | nil {room : Nat} : Spelled quote escapes lines allowed room [] []
  | quote {room : Nat} {written meant : List Char} : 0 < room →
      Spelled quote escapes lines allowed (room - 1) written meant →
      Spelled quote escapes lines allowed room (quote :: written) (quote :: meant)
  | plain {room : Nat} {c : Char} {written meant : List Char} : c ≠ quote →
      (escapes = true → c ≠ '\\') → isCommentChar c = true ∨ lines = true ∧ c = '\n' →
      Spelled quote escapes lines allowed allowed written meant →
      Spelled quote escapes lines allowed room (c :: written) (c :: meant)
  | escape {room : Nat} {c : Char} {mark written meant : List Char} : escapes = true →
      IsEscape c mark → Spelled quote escapes lines allowed allowed written meant →
      Spelled quote escapes lines allowed room ('\\' :: (mark ++ written)) (c :: meant)

section

variable {quote : Char} {escapes lines : Bool} {allowed room fuel : Nat}
  {written meant : List Char}

theorem Spelled.length_le (h : Spelled quote escapes lines allowed room written meant) :
    meant.length ≤ written.length := by
  induction h with
  | nil => exact Nat.le_refl 0
  | quote _ _ ih => exact Nat.succ_le_succ ih
  | plain _ _ _ _ ih => exact Nat.succ_le_succ ih
  | escape _ _ _ ih =>
    rw [List.length_cons, List.length_cons, List.length_append]
    omega

/-! ## Strings on one line -/

theorem basicChars_spelled (h : Spelled '"' true false 0 room written meant) (hroom : room = 0)
    (hfuel : meant.length < fuel) (rest : List Char) :
    basicChars fuel (written ++ '"' :: rest) = some (meant, rest) := by
  induction h generalizing fuel with
  | nil =>
    obtain ⟨fuel, rfl⟩ := Nat.exists_eq_add_one_of_ne_zero (Nat.ne_of_gt hfuel)
    exact if_pos rfl
  | quote hpos => omega
  | plain hquote hback hc _ ih =>
    obtain ⟨fuel, rfl⟩ := Nat.exists_eq_add_one_of_ne_zero (Nat.ne_of_gt (Nat.zero_lt_of_lt hfuel))
    have hchar := hc.resolve_right fun h => Bool.noConfusion h.1
    rw [List.cons_append, basicChars, if_neg hquote, if_neg (hback rfl), if_pos hchar,
      ih rfl (Nat.lt_of_succ_lt_succ hfuel)]
    rfl
  | @escape _ _ mark written _ _ hmark _ ih =>
    obtain ⟨fuel, rfl⟩ := Nat.exists_eq_add_one_of_ne_zero (Nat.ne_of_gt (Nat.zero_lt_of_lt hfuel))
    rw [List.cons_append, List.append_assoc, basicChars, if_neg (by decide), if_pos rfl,
      (hmark _).1, Option.bind_eq_bind, Option.bind_some]
    dsimp only
    rw [ih rfl (Nat.lt_of_succ_lt_succ hfuel)]
    rfl

theorem literalChars_spelled (h : Spelled '\'' false false 0 room written meant)
    (hroom : room = 0) (rest : List Char) :
    literalChars (written ++ '\'' :: rest) = some (meant, rest) := by
  induction h with
  | nil => exact if_pos rfl
  | quote hpos => omega
  | plain hquote _ hc _ ih =>
    have hchar := hc.resolve_right fun h => Bool.noConfusion h.1
    rw [List.cons_append, literalChars, if_neg hquote, if_pos hchar, ih rfl]
    rfl
  | escape hescapes => cases hescapes

/-! ## Strings over several lines -/

theorem quoteRun_self (quote : Char) (cs : List Char) :
    quoteRun quote (quote :: cs) = quoteRun quote cs + 1 := by
  simp [quoteRun]

theorem quoteRun_of_ne {c : Char} (hc : c ≠ quote) (cs : List Char) :
    quoteRun quote (c :: cs) = 0 := by
  simp [quoteRun, hc]

theorem quoteRun_replicate (quote : Char) (count : Nat) (cs : List Char) :
    quoteRun quote (List.replicate count quote ++ cs) = count + quoteRun quote cs := by
  induction count with
  | zero => exact (Nat.zero_add _).symm
  | succ count ih =>
    rw [List.replicate_succ, List.cons_append, quoteRun_self, ih]
    omega

/-- A spelling starts with no more quotes than there is room for, unless it has nothing else. -/
theorem Spelled.quoteRun_le (h : Spelled quote escapes lines allowed room written meant)
    (hquote : quote ≠ '\\') (rest : List Char) :
    (∃ count ≤ room, written = List.replicate count quote ∧ meant = List.replicate count quote) ∨
      quoteRun quote (written ++ rest) ≤ room := by
  induction h with
  | nil => exact .inl ⟨0, Nat.zero_le _, rfl, rfl⟩
  | quote hpos _ ih =>
    rcases ih with ⟨count, hcount, rfl, rfl⟩ | hrun
    · exact .inl ⟨count + 1, by omega, rfl, rfl⟩
    · refine .inr ?_
      rw [List.cons_append, quoteRun_self]
      omega
  | plain hc =>
    refine .inr ?_
    rw [List.cons_append, quoteRun_of_ne hc]
    exact Nat.zero_le _
  | escape =>
    refine .inr ?_
    rw [List.cons_append, quoteRun_of_ne hquote.symm]
    exact Nat.zero_le _

/-- Of the quotes that end a string only the last three are not part of it. -/
theorem multilineChars_closing {count : Nat} (hcount : count ≤ 2) {rest : List Char}
    (hrest : quoteRun quote rest = 0) :
    multilineChars quote escapes (fuel + 1)
        (List.replicate count quote ++ quote :: quote :: quote :: rest) =
      some (List.replicate count quote, rest) := by
  have hrun : quoteRun quote (List.replicate count quote ++ quote :: quote :: quote :: rest) =
      count + 3 := by
    rw [quoteRun_replicate, quoteRun_self, quoteRun_self, quoteRun_self, hrest]
  have hdrop : (List.replicate count quote ++ quote :: quote :: quote :: rest).drop (count + 3) =
      rest := by
    rw [← List.drop_drop, List.drop_left' List.length_replicate]
    rfl
  obtain ⟨tail, htail⟩ : ∃ tail,
      List.replicate count quote ++ quote :: quote :: quote :: rest = quote :: tail := by
    cases count with
    | zero => exact ⟨_, rfl⟩
    | succ count => exact ⟨_, rfl⟩
  rw [htail] at hrun hdrop ⊢
  have hinside : min (count + 3 - 3) 2 = count := by omega
  rw [multilineChars, if_pos rfl, hrun]
  dsimp only
  rw [if_pos (by omega), hinside, hdrop]

theorem newline?_of_ne {c : Char} (hc : c ≠ '\n') (hc' : c ≠ '\r') (rest : List Char) :
    newline? (c :: rest) = none := by
  unfold newline?
  split
  · next heq => exact absurd (List.cons.inj heq).1 hc
  · next heq => exact absurd (List.cons.inj heq).1 hc'
  · rfl

/-- A character that stands for itself is read as itself, and so is a line end. -/
theorem multilineChars_plain {c : Char} (hc : c ≠ quote) (hback : escapes = true → c ≠ '\\')
    (hchar : isCommentChar c = true ∨ c = '\n') {rest more : List Char}
    (hrest : multilineChars quote escapes fuel rest = some (meant, more)) :
    multilineChars quote escapes (fuel + 1) (c :: rest) = some (c :: meant, more) := by
  have hback : ¬ (c = '\\' ∧ escapes = true) := fun h => hback h.2 h.1
  rw [multilineChars, if_neg hc, if_neg hback]
  by_cases hline : c = '\n'
  · subst hline
    rw [newline?]
    dsimp only
    rw [hrest]
    rfl
  · have hchar := hchar.resolve_right hline
    have hreturn : c ≠ '\r' := by
      rintro rfl
      cases hchar
    rw [newline?_of_ne hline hreturn]
    dsimp only
    rw [if_pos hchar, hrest]
    rfl

theorem multilineChars_spelled (h : Spelled quote escapes true 2 room written meant)
    (hquote : quote ≠ '\\') (hroom : room ≤ 2) (hfuel : meant.length < fuel) {rest : List Char}
    (hrest : quoteRun quote rest = 0) :
    multilineChars quote escapes fuel (written ++ quote :: quote :: quote :: rest) =
      some (meant, rest) := by
  induction h generalizing fuel with
  | nil =>
    obtain ⟨fuel, rfl⟩ := Nat.exists_eq_add_one_of_ne_zero (Nat.ne_of_gt hfuel)
    exact multilineChars_closing (Nat.zero_le 2) hrest
  | @quote room written meant hpos hw ih =>
    obtain ⟨fuel, rfl⟩ := Nat.exists_eq_add_one_of_ne_zero (Nat.ne_of_gt (Nat.zero_lt_of_lt hfuel))
    rcases hw.quoteRun_le hquote (quote :: quote :: quote :: rest) with
      ⟨count, hcount, rfl, rfl⟩ | hrun
    · exact multilineChars_closing (by omega : count + 1 ≤ 2) hrest
    · have hshort :
          ¬ 3 ≤ quoteRun quote (quote :: (written ++ quote :: quote :: quote :: rest)) := by
        rw [quoteRun_self]
        omega
      rw [List.cons_append, multilineChars, if_pos rfl]
      dsimp only
      rw [if_neg hshort, ih (by omega) (Nat.lt_of_succ_lt_succ hfuel)]
      rfl
  | plain hc hback hchar _ ih =>
    obtain ⟨fuel, rfl⟩ := Nat.exists_eq_add_one_of_ne_zero (Nat.ne_of_gt (Nat.zero_lt_of_lt hfuel))
    exact multilineChars_plain hc hback (hchar.imp_right And.right)
      (ih (Nat.le_refl 2) (Nat.lt_of_succ_lt_succ hfuel))
  | escape hescapes hmark _ ih =>
    obtain ⟨fuel, rfl⟩ := Nat.exists_eq_add_one_of_ne_zero (Nat.ne_of_gt (Nat.zero_lt_of_lt hfuel))
    rw [List.cons_append, List.append_assoc, multilineChars, if_neg hquote.symm,
      if_pos ⟨rfl, hescapes⟩, (hmark _).2]
    dsimp only
    rw [(hmark _).1, Option.bind_eq_bind, Option.bind_some]
    dsimp only
    rw [ih (Nat.le_refl 2) (Nat.lt_of_succ_lt_succ hfuel)]
    rfl

/-- Where no line ends are meant, none is taken from the start. -/
theorem Spelled.newline?_eq_none (h : Spelled quote escapes lines allowed room written meant)
    (hline : quote ≠ '\n') (hreturn : quote ≠ '\r') (hmeant : '\n' ∉ meant) (rest : List Char) :
    newline? (written ++ quote :: rest) = none := by
  cases h with
  | nil => exact newline?_of_ne hline hreturn _
  | quote => exact newline?_of_ne hline hreturn _
  | @plain _ c _ _ _ _ hchar =>
    have hc : c ≠ '\n' := fun h => hmeant (h ▸ List.mem_cons_self)
    have hchar := hchar.resolve_right fun h => hc h.2
    refine newline?_of_ne hc ?_ _
    rintro rfl
    cases hchar
  | escape => exact newline?_of_ne (by decide) (by decide) _

end

/-! ## What is written -/

theorem hexDigit?_hexDigit : ∀ n < 16, hexDigit? (Quoted.hexDigit n) = some n := by
  decide

theorem isEscape_control {n : Nat} (h : n < 0x20 ∨ n = 0x7F) :
    IsEscape (Char.ofNat n)
      ['u', '0', '0', Quoted.hexDigit (n / 16), Quoted.hexDigit (n % 16)] := by
  intro rest
  refine ⟨?_, rfl⟩
  have hzero : hexDigit? '0' = some 0 := by decide
  have hnumber : hexNumber? 4 0
      ('0' :: '0' :: Quoted.hexDigit (n / 16) :: Quoted.hexDigit (n % 16) :: rest) =
        some (n, rest) := by
    have hvalue : 16 * (16 * (16 * (16 * 0 + 0) + 0) + n / 16) + n % 16 = n := by omega
    simp only [hexNumber?, hzero, hexDigit?_hexDigit (n / 16) (by omega),
      hexDigit?_hexDigit (n % 16) (by omega), hvalue]
  have hvalid : n.isValidChar := .inl (by omega)
  change hexChar? 4 ('0' :: '0' :: _ :: _ :: rest) = _
  rw [hexChar?, hnumber, Option.bind_eq_bind, Option.bind_some]
  exact if_pos hvalid

section

variable {multiline : Bool} {allowed room : Nat} {written meant : List Char}

theorem spelled_escapeChar {c : Char} (hc : c ≠ '"')
    (h : Spelled '"' true multiline allowed allowed written meant) :
    Spelled '"' true multiline allowed room (Quoted.escapeChar multiline c ++ written)
      (c :: meant) := by
  have named {c mark : Char} (hmark : IsEscape c [mark]) :
      Spelled '"' true multiline allowed room (['\\', mark] ++ written) (c :: meant) :=
    .escape rfl hmark h
  unfold Quoted.escapeChar
  split_ifs with hb ht hn hlines hf hr hback hcontrol
  · subst hb
    exact named fun _ => ⟨rfl, rfl⟩
  · subst ht
    exact named fun _ => ⟨rfl, rfl⟩
  · subst hn
    exact .plain hc (fun _ => by decide) (.inr ⟨hlines, rfl⟩) h
  · subst hn
    exact named fun _ => ⟨rfl, rfl⟩
  · subst hf
    exact named fun _ => ⟨rfl, rfl⟩
  · subst hr
    exact named fun _ => ⟨rfl, rfl⟩
  · subst hback
    exact named fun _ => ⟨rfl, rfl⟩
  · have hmark := isEscape_control hcontrol
    rw [Char.ofNat_toNat] at hmark
    exact .escape rfl hmark h
  · refine .plain hc (fun _ => hback) (.inl ?_) h
    simp only [isCommentChar, Bool.or_eq_true, Bool.and_eq_true, decide_eq_true_eq, bne_iff_ne]
    omega

/-- Escapes spell the text that they are made from. -/
theorem spelled_escape (cs : List Char) :
    Spelled '"' true multiline allowed room (Quoted.escape multiline allowed room cs) cs := by
  induction cs generalizing room with
  | nil => exact .nil
  | cons c cs ih =>
    unfold Quoted.escape
    split_ifs with hc
    · subst hc
      cases room with
      | zero => exact .escape rfl (fun _ => ⟨rfl, rfl⟩ : IsEscape '"' ['"']) ih
      | succ room => exact .quote (Nat.succ_pos room) ih
    · exact spelled_escapeChar hc ih

end

theorem le_longestRun (quote : Char) (cs : List Char) (run : Nat) :
    run ≤ Quoted.longestRun quote run cs := by
  induction cs generalizing run with
  | nil => exact Nat.le_refl run
  | cons c cs ih =>
    rw [Quoted.longestRun]
    split_ifs
    · exact Nat.le_of_succ_le (ih (run + 1))
    · exact Nat.le_max_left _ _

theorem isCommentChar_of_not_isControl {c : Char} (h : Quoted.isControl c = false)
    (hline : c ≠ '\n') : isCommentChar c = true := by
  simp only [Quoted.isControl, isCommentChar, Bool.and_eq_false_iff, Bool.or_eq_false_iff,
    decide_eq_false_iff_not, bne_eq_false_iff_eq, beq_eq_false_iff_ne, Bool.or_eq_true,
    Bool.and_eq_true, decide_eq_true_eq, beq_iff_eq, bne_iff_ne] at h ⊢
  rcases h with (⟨hlow, hdelete⟩ | htab) | hline'
  · exact .inr ⟨by omega, hdelete⟩
  · exact .inl htab
  · exact absurd hline' hline

/-- A text without control characters and long runs of quotes spells itself. -/
theorem spelled_self {quote : Char} {lines : Bool} {allowed run : Nat} {cs : List Char}
    (hcontrol : ∀ c ∈ cs, Quoted.isControl c = false) (hlines : lines = false → '\n' ∉ cs)
    (hrun : Quoted.longestRun quote run cs ≤ allowed) :
    Spelled quote false lines allowed (allowed - run) cs cs := by
  induction cs generalizing run with
  | nil => exact .nil
  | cons c cs ih =>
    rw [List.forall_mem_cons] at hcontrol
    have htail : lines = false → '\n' ∉ cs := fun h hmem =>
      hlines h (List.mem_cons_of_mem _ hmem)
    rw [Quoted.longestRun] at hrun
    split_ifs at hrun with hc
    · subst hc
      have hroom := le_longestRun c cs (run + 1)
      have h := ih hcontrol.2 htail hrun
      rw [← Nat.sub_sub] at h
      exact .quote (by omega) h
    · refine .plain hc (fun h => Bool.noConfusion h) ?_
        (ih hcontrol.2 htail (Nat.le_trans (Nat.le_max_right _ _) hrun))
      by_cases hline : c = '\n'
      · subst hline
        refine .inr ⟨?_, rfl⟩
        cases lines with
        | true => rfl
        | false => exact absurd List.mem_cons_self (hlines rfl)
      · exact .inl (isCommentChar_of_not_isControl hcontrol.1 hline)

/-! ## Whole strings -/

section

variable {quote : Char} {escapes : Bool} {written meant cs rest : List Char}

/-- The opening quote of a string on one line is not the first of three. -/
theorem Spelled.quoteRun_closed (h : Spelled quote escapes false 0 0 written meant)
    (hquote : quote ≠ '\\') (hrest : quoteRun quote rest = 0) :
    quoteRun quote (written ++ quote :: rest) ≤ 1 := by
  rcases h.quoteRun_le hquote (quote :: rest) with ⟨count, hcount, rfl, -⟩ | hrun
  · rw [quoteRun_replicate, quoteRun_self, hrest]
    omega
  · omega

theorem string?_basic (h : quoteRun '"' cs ≤ 1) :
    string? ('"' :: cs) = basicChars (cs.length + 1) cs := by
  unfold string?
  split
  · next heq =>
    rw [(List.cons.inj heq).2, quoteRun_self, quoteRun_self] at h
    omega
  · next heq => rw [(List.cons.inj heq).2]
  · next heq => exact absurd (List.cons.inj heq).1 (by decide)
  · next heq => exact absurd (List.cons.inj heq).1 (by decide)
  · next hno _ _ => exact absurd rfl (hno cs)

theorem string?_literal (h : quoteRun '\'' cs ≤ 1) : string? ('\'' :: cs) = literalChars cs := by
  unfold string?
  split
  · next heq => exact absurd (List.cons.inj heq).1 (by decide)
  · next heq => exact absurd (List.cons.inj heq).1 (by decide)
  · next heq =>
    rw [(List.cons.inj heq).2, quoteRun_self, quoteRun_self] at h
    omega
  · next heq => rw [(List.cons.inj heq).2]
  · next hno => exact absurd rfl (hno cs)

/-- A line end in front of the text, which starts on a new line if it has line ends. -/
def opening (cs : List Char) : List Char := if cs.contains '\n' then ['\n'] else []

theorem multiline?_spelled {room : Nat} (h : Spelled quote escapes true 2 room written meant)
    (hquote : quote = '"' ∨ quote = '\'') (hroom : room ≤ 2) (hrest : quoteRun quote rest = 0) :
    multiline? quote escapes (opening meant ++ written ++ quote :: quote :: quote :: rest) =
      some (meant, rest) := by
  have hback : quote ≠ '\\' := by rcases hquote with rfl | rfl <;> decide
  have hstart : (newline? (opening meant ++ written ++ quote :: quote :: quote :: rest)).getD
      (opening meant ++ written ++ quote :: quote :: quote :: rest) =
        written ++ quote :: quote :: quote :: rest := by
    by_cases hlines : '\n' ∈ meant
    · rw [opening, if_pos (List.contains_iff_mem.mpr hlines)]
      rfl
    · have hline : quote ≠ '\n' := by rcases hquote with rfl | rfl <;> decide
      have hreturn : quote ≠ '\r' := by rcases hquote with rfl | rfl <;> decide
      rw [opening, if_neg (mt List.contains_iff_mem.mp hlines), List.nil_append,
        h.newline?_eq_none hline hreturn hlines]
      rfl
  have hlength := h.length_le
  rw [multiline?, hstart]
  refine multilineChars_spelled h hback hroom ?_ hrest
  rw [List.length_append]
  omega

end

/-- A literal form is chosen only for texts without control characters and with few quotes. -/
theorem form_literal {cs : List Char} (h : Quoted.Form.of cs = .literal) :
    (∀ c ∈ cs, Quoted.isControl c = false) ∧ '\n' ∉ cs ∧ Quoted.longestRun '\'' 0 cs ≤ 0 := by
  simp only [Quoted.Form.of] at h
  split_ifs at h with _ hliteral
  simp only [Bool.and_eq_true, Bool.not_eq_true', List.any_eq_false, Bool.not_eq_true,
    beq_iff_eq, List.contains_eq_mem, decide_eq_false_iff_not] at hliteral
  exact ⟨hliteral.1.1, hliteral.2, Nat.le_of_eq hliteral.1.2⟩

theorem form_multilineLiteral {cs : List Char} (h : Quoted.Form.of cs = .multilineLiteral) :
    (∀ c ∈ cs, Quoted.isControl c = false) ∧ Quoted.longestRun '\'' 0 cs ≤ 2 := by
  simp only [Quoted.Form.of] at h
  split_ifs at h with _ _ _ hliteral
  simp only [Bool.and_eq_true, Bool.not_eq_true', List.any_eq_false, Bool.not_eq_true,
    decide_eq_true_eq] at hliteral
  exact hliteral

/-- A written string is read back, whatever its text, before a text that starts with no quote. -/
theorem string?_write (s : String) {rest : List Char} (hdouble : quoteRun '"' rest = 0)
    (hsingle : quoteRun '\'' rest = 0) :
    string? (Quoted.write s ++ rest) = some (s.toList, rest) := by
  rw [Quoted.write]
  cases hform : Quoted.Form.of s.toList with
  | basic =>
    have h : Spelled '"' true false 0 0 (Quoted.escape false 0 0 s.toList) s.toList :=
      spelled_escape _
    have hlength := h.length_le
    dsimp only
    rw [List.append_assoc, List.singleton_append, List.cons_append,
      string?_basic (h.quoteRun_closed (by decide) hdouble)]
    refine basicChars_spelled h rfl ?_ rest
    rw [List.length_append]
    omega
  | literal =>
    obtain ⟨hcontrol, hlines, hrun⟩ := form_literal hform
    have h : Spelled '\'' false false 0 0 s.toList s.toList :=
      spelled_self hcontrol (fun _ => hlines) hrun
    dsimp only
    rw [List.append_assoc, List.singleton_append, List.cons_append,
      string?_literal (h.quoteRun_closed (by decide) hsingle)]
    exact literalChars_spelled h rfl rest
  | multilineBasic =>
    have h : Spelled '"' true true 2 2 (Quoted.escape true 2 2 s.toList) s.toList :=
      spelled_escape _
    have hread := multiline?_spelled h (.inl rfl) (Nat.le_refl 2) hdouble
    simpa [string?, opening] using hread
  | multilineLiteral =>
    obtain ⟨hcontrol, hrun⟩ := form_multilineLiteral hform
    have h : Spelled '\'' false true 2 2 s.toList s.toList :=
      spelled_self hcontrol (fun h => Bool.noConfusion h) hrun
    have hread := multiline?_spelled h (.inr rfl) (Nat.le_refl 2) hsingle
    simpa [string?, opening] using hread

end JsonInspect.Toml
