import JsonInspect.Proofs.Text.Search
import JsonInspect.Proofs.Text.Trim
import JsonInspect.Text.Lowercase

/-! # Lower-casing the parts of a text

Each character of a text is lower-cased by itself, but a capital sigma is given another form at the
end of a word. So a part of a text is lower-cased in its place as it is alone if and only if each of
its capital sigmas is at the end of a word in both (`lowerWithin_eq_self_iff`). Blanks are no
letters, so those at the ends of a text do not change the rest of it (`lowerChars_between_blanks`),
and what has none at its ends is found in the text and in the trimmed text alike
(`occursIn_lower_trim`). -/

namespace JsonInspect

variable {before part after before' after' cs : List Char} {c : Char}

/-! ## Characters in their places -/

/-- Whether the place between two texts is at the end of a word: there is a cased letter before it
and none after it, ignorable characters apart. -/
def atWordEnd (before after : List Char) : Bool :=
  startsCased before.reverse && !startsCased after

/-- What lower-casing makes of a character that stands between two texts. -/
def lowerAt (before : List Char) (c : Char) (after : List Char) : List Char :=
  if c = '\u03a3' then [if atWordEnd before after then '\u03c2' else '\u03c3'] else lowerChar c

/-- What lower-casing makes of a part of a text that stands between two others. -/
def lowerWithin : List Char → List Char → List Char → List Char
  | _, [], _ => []
  | before, c :: rest, after =>
    lowerAt before c (rest ++ after) ++ lowerWithin (before ++ [c]) rest after

theorem startsCased_cons (c : Char) (cs : List Char) :
    startsCased (c :: cs) = if isCaseIgnorable c then startsCased cs else isCased c := by
  rw [startsCased, List.dropWhile_cons]
  split <;> rfl

theorem lowerFrom_startsCased (before cs : List Char) :
    lowerFrom (startsCased before.reverse) cs = lowerWithin before cs [] := by
  induction cs generalizing before with
  | nil => rfl
  | cons c rest ih =>
    rw [lowerFrom, lowerWithin, ← ih, List.append_nil, List.reverse_concat, startsCased_cons]
    rfl

theorem lowerChars_eq (cs : List Char) : lowerChars cs = lowerWithin [] cs [] :=
  lowerFrom_startsCased [] cs

theorem lowerWithin_append (before part part' after : List Char) :
    lowerWithin before (part ++ part') after =
      lowerWithin before part (part' ++ after) ++ lowerWithin (before ++ part) part' after := by
  induction part generalizing before with
  | nil => rw [List.nil_append, lowerWithin, List.nil_append, List.append_nil]
  | cons c rest ih =>
    rw [List.cons_append, lowerWithin, lowerWithin, ih, List.append_assoc, List.append_assoc,
      List.append_assoc, List.singleton_append]

/-- A text is lower-cased part by part. -/
theorem lowerChars_append (before part after : List Char) :
    lowerChars (before ++ (part ++ after)) = lowerWithin [] before (part ++ after) ++
      (lowerWithin before part after ++ lowerWithin (before ++ part) after []) := by
  rw [lowerChars_eq, lowerWithin_append, lowerWithin_append, List.append_nil, List.append_nil,
    List.nil_append]

/-! ## The same part in two places -/

theorem lowerAt_eq_iff : lowerAt before c after = lowerAt before' c after' ↔
    (c = '\u03a3' → atWordEnd before after = atWordEnd before' after') := by
  unfold lowerAt
  split
  · rename_i hsigma
    cases atWordEnd before after <;> cases atWordEnd before' after' <;> simp [hsigma]
  · rename_i hother
    simp [hother]

theorem length_lowerAt (before after before' after' : List Char) (c : Char) :
    (lowerAt before c after).length = (lowerAt before' c after').length := by
  unfold lowerAt
  split <;> rfl

/-- A part is lower-cased the same in two places if and only if each capital sigma in it is at the
end of a word in both or in none. -/
theorem lowerWithin_eq_iff : lowerWithin before part after = lowerWithin before' part after' ↔
    ∀ front back, part = front ++ '\u03a3' :: back →
      atWordEnd (before ++ front) (back ++ after) =
        atWordEnd (before' ++ front) (back ++ after') := by
  induction part generalizing before before' with
  | nil => simp [lowerWithin]
  | cons c rest ih =>
    rw [lowerWithin, lowerWithin,
      List.append_eq_append_iff_of_size_eq_left (length_lowerAt _ _ _ _ c), lowerAt_eq_iff, ih]
    -- A sigma of `c :: rest` is `c`, with nothing in front of it, or a sigma of `rest`.
    constructor
    · rintro ⟨hfirst, hrest⟩ front back heq
      cases front with
      | nil =>
        cases heq
        simpa using hfirst rfl
      | cons d front =>
        cases heq
        simpa using hrest front back rfl
    · intro h
      refine ⟨?_, fun front back heq => ?_⟩
      · rintro rfl
        simpa using h [] rest rfl
      · simpa using h (c :: front) back (by rw [heq, List.cons_append])

/-- Whether each capital sigma of a part is at the end of a word in its place if and only if it is
at the end of a word in the part alone. -/
def KeepsSigmas (before part after : List Char) : Prop :=
  ∀ front back, part = front ++ '\u03a3' :: back →
    atWordEnd (before ++ front) (back ++ after) = atWordEnd front back

theorem lowerWithin_eq_self_iff :
    lowerWithin before part after = lowerChars part ↔ KeepsSigmas before part after := by
  rw [lowerChars_eq, lowerWithin_eq_iff]
  simp only [List.nil_append, List.append_nil, KeepsSigmas]

instance (before part after : List Char) : Decidable (KeepsSigmas before part after) :=
  decidable_of_iff _ lowerWithin_eq_self_iff

/-- Lower-cased in a text, a part that keeps its sigmas is found as it is lower-cased alone. -/
theorem KeepsSigmas.isInfix (h : KeepsSigmas before part after) :
    lowerChars part <:+: lowerChars (before ++ (part ++ after)) := by
  refine ⟨lowerWithin [] before (part ++ after), lowerWithin (before ++ part) after [], ?_⟩
  rw [lowerChars_append, lowerWithin_eq_self_iff.mpr h, List.append_assoc]

/-! ## Blanks -/

def rangesApart (rs rs' : List (Nat × Nat)) : Bool :=
  rs.all fun r => rs'.all fun r' => r.2 < r'.1 || r'.2 < r.1

theorem notMem_of_rangesApart {rs rs' : List (Nat × Nat)} {r r' : Nat × Nat} {n : Nat}
    (h : rangesApart rs rs' = true) (hr : r ∈ rs) (hr' : r' ∈ rs') (hn : r.1 ≤ n ∧ n ≤ r.2) :
    ¬ (r'.1 ≤ n ∧ n ≤ r'.2) := by
  have hpair := List.all_eq_true.mp (List.all_eq_true.mp h r hr) r' hr'
  rw [Bool.or_eq_true, decide_eq_true_eq, decide_eq_true_eq] at hpair
  omega

theorem inRanges_iff {rs : List (Nat × Nat)} :
    inRanges rs c = true ↔ ∃ r ∈ rs, r.1 ≤ c.toNat ∧ c.toNat ≤ r.2 := by
  simp [inRanges]

theorem isBlank_eq_inRanges (c : Char) : isBlank c = inRanges blankRanges c := rfl

theorem inRanges_of_isBlank {rs : List (Nat × Nat)} (h : rangesApart blankRanges rs = true)
    (hc : isBlank c = true) : inRanges rs c = false := by
  rw [isBlank_eq_inRanges] at hc
  obtain ⟨r, hr, hn⟩ := inRanges_iff.mp hc
  refine Bool.eq_false_iff.mpr fun hin => ?_
  obtain ⟨r', hr', hn'⟩ := inRanges_iff.mp hin
  exact notMem_of_rangesApart h hr hr' hn hn'

theorem isCaseIgnorable_of_isBlank (h : isBlank c = true) : isCaseIgnorable c = false :=
  inRanges_of_isBlank (by decide +kernel) h

theorem isCased_of_isBlank (h : isBlank c = true) : isCased c = false :=
  inRanges_of_isBlank (by decide +kernel) h

def capitalRanges : List (Nat × Nat) := caseRuns.map fun r => (r.first, r.last)

def smallRanges : List (Nat × Nat) :=
  caseRuns.map fun r => ((r.first + r.offset).toNat, (r.last + r.offset).toNat)

theorem CaseRun.bounds_of_covers {run : CaseRun} {n : Nat} (h : run.covers n = true) :
    run.first ≤ n ∧ n ≤ run.last := by
  simp only [CaseRun.covers, Bool.and_eq_true, decide_eq_true_eq] at h
  exact h.1

theorem isBlank_toLower (h : c.toNat < 128) :
    isBlank c.toLower = isBlank c ∧ (isBlank c = true → c.toLower = c) := by
  have hall : ((List.range 128).map Char.ofNat).all fun c =>
      isBlank c.toLower == isBlank c && (!isBlank c || c.toLower == c) := by
    decide +kernel
  have hmem : c ∈ (List.range 128).map Char.ofNat :=
    List.mem_map.mpr ⟨c.toNat, List.mem_range.mpr h, Char.ofNat_toNat c⟩
  have hc := List.all_eq_true.mp hall c hmem
  simp only [Bool.and_eq_true, beq_iff_eq, Bool.or_eq_true, Bool.not_eq_true'] at hc
  refine ⟨hc.1, fun hblank => hc.2.resolve_left ?_⟩
  rw [hblank]
  exact Bool.noConfusion

/-- The small letter of a run is no blank, and neither is what stands for an invalid code point. -/
theorem isBlank_ofNat_of_mem {r : Nat × Nat} {n : Nat} (hr : r ∈ smallRanges)
    (hn : r.1 ≤ n ∧ n ≤ r.2) : isBlank (Char.ofNat n) = false := by
  by_cases hvalid : n.isValidChar
  · have hvalue : (Char.ofNat n).toNat = n := by
      rw [Char.ofNat, dif_pos hvalid]
      rfl
    refine Bool.eq_false_iff.mpr fun hblank => ?_
    rw [isBlank_eq_inRanges] at hblank
    obtain ⟨r', hr', hn'⟩ := inRanges_iff.mp hblank
    rw [hvalue] at hn'
    exact notMem_of_rangesApart (by decide +kernel) hr hr' hn hn'
  · -- Surrogates and numbers beyond the last code point stand for the character zero.
    rw [Char.ofNat, dif_neg hvalid]
    decide

theorem lowerChar_of_isBlank (h : isBlank c = true) : lowerChar c = [c] := by
  unfold lowerChar
  split
  · rename_i hascii
    rw [(isBlank_toLower hascii).2 h]
  · split
    · rename_i hdotted
      rw [hdotted] at h
      exact absurd h (by decide)
    · have hnone : caseRuns.find? (·.covers c.toNat) = none := by
        refine List.find?_eq_none.mpr fun run hrun hcovers => ?_
        have hcapital : inRanges capitalRanges c = true :=
          inRanges_iff.mpr ⟨_, List.mem_map_of_mem hrun, CaseRun.bounds_of_covers hcovers⟩
        rw [inRanges_of_isBlank (by decide +kernel) h] at hcapital
        cases hcapital
      rw [hnone]

/-- A blank stays a blank, and nothing else becomes one. -/
theorem isBlank_of_mem_lowerChar {d : Char} (h : d ∈ lowerChar c) : isBlank d = isBlank c := by
  cases hc : isBlank c with
  | true =>
    rw [lowerChar_of_isBlank hc, List.mem_singleton] at h
    rw [h, hc]
  | false =>
    unfold lowerChar at h
    split at h
    · rename_i hascii
      rw [List.mem_singleton.mp h, (isBlank_toLower hascii).1, hc]
    · split at h
      · have hall : ['i', '\u0307'].all fun d => isBlank d == false := by decide
        exact beq_iff_eq.mp (List.all_eq_true.mp hall d h)
      · split at h
        · rename_i run hrun
          have hcovers := List.find?_some (p := fun run : CaseRun => run.covers c.toNat) hrun
          have hbounds := CaseRun.bounds_of_covers hcovers
          have hsmall : ((run.first + run.offset).toNat, (run.last + run.offset).toNat) ∈
              smallRanges := List.mem_map.mpr ⟨run, List.mem_of_find?_eq_some hrun, rfl⟩
          rw [List.mem_singleton.mp h]
          exact isBlank_ofNat_of_mem hsmall (by dsimp only; omega)
        · rw [List.mem_singleton.mp h, hc]

theorem isBlank_of_mem_lowerAt {d : Char} (h : d ∈ lowerAt before c after) :
    isBlank d = isBlank c := by
  unfold lowerAt at h
  split at h
  · rename_i hsigma
    have hforms : ∀ final : Bool, isBlank (if final then '\u03c2' else '\u03c3') = false := by
      decide
    rw [List.mem_singleton.mp h, hforms, hsigma]
    decide
  · exact isBlank_of_mem_lowerChar h

theorem lowerAt_of_isBlank (h : isBlank c = true) : lowerAt before c after = [c] := by
  rw [lowerAt, if_neg, lowerChar_of_isBlank h]
  rintro rfl
  exact absurd h (by decide)

theorem lowerWithin_of_blanks (h : ∀ c ∈ part, isBlank c = true) :
    lowerWithin before part after = part := by
  induction part generalizing before with
  | nil => rfl
  | cons c rest ih =>
    rw [List.forall_mem_cons] at h
    rw [lowerWithin, lowerAt_of_isBlank h.1, ih h.2, List.singleton_append]

theorem startsCased_append_blanks (h : ∀ c ∈ after, isBlank c = true) (cs : List Char) :
    startsCased (cs ++ after) = startsCased cs := by
  induction cs with
  | nil =>
    cases after with
    | nil => rfl
    | cons c rest =>
      rw [List.forall_mem_cons] at h
      rw [List.nil_append, startsCased_cons, isCaseIgnorable_of_isBlank h.1, isCased_of_isBlank h.1]
      rfl
  | cons c rest ih => rw [List.cons_append, startsCased_cons, startsCased_cons, ih]

theorem keepsSigmas_between_blanks (hbefore : ∀ c ∈ before, isBlank c = true)
    (hafter : ∀ c ∈ after, isBlank c = true) : KeepsSigmas before part after := by
  intro front back _
  rw [atWordEnd, atWordEnd, List.reverse_append, startsCased_append_blanks hafter,
    startsCased_append_blanks fun c hc => hbefore c (List.mem_reverse.mp hc)]

/-- Blanks at the ends of a text stay, and its rest is lower-cased as if they were not there. -/
theorem lowerChars_between_blanks (hbefore : ∀ c ∈ before, isBlank c = true)
    (hafter : ∀ c ∈ after, isBlank c = true) (cs : List Char) :
    lowerChars (before ++ (cs ++ after)) = before ++ (lowerChars cs ++ after) := by
  rw [lowerChars_append, lowerWithin_of_blanks hbefore, lowerWithin_of_blanks hafter,
    lowerWithin_eq_self_iff.mpr (keepsSigmas_between_blanks hbefore hafter)]

/-! ## Ends of a text in lower case -/

theorem lowerAt_ne_nil (before : List Char) (c : Char) (after : List Char) :
    lowerAt before c after ≠ [] := by
  have hchar : lowerChar c ≠ [] := by
    unfold lowerChar
    split
    · exact List.cons_ne_nil _ _
    · split
      · exact List.cons_ne_nil _ _
      · split <;> exact List.cons_ne_nil _ _
  unfold lowerAt
  split
  · exact List.cons_ne_nil _ _
  · exact hchar

theorem lowerChars_eq_nil_iff : lowerChars cs = [] ↔ cs = [] := by
  rw [lowerChars_eq]
  cases cs with
  | nil => simp [lowerWithin]
  | cons c rest => simp [lowerWithin, lowerAt_ne_nil]

/-- A text that starts with no blank does so in lower case. -/
theorem head?_lowerChars (h : ∀ c ∈ cs.head?, isBlank c = false) :
    ∀ c ∈ (lowerChars cs).head?, isBlank c = false := by
  cases cs with
  | nil => exact h
  | cons c rest =>
    intro d hd
    rw [lowerChars_eq, lowerWithin, List.head?_append_of_ne_nil _ (lowerAt_ne_nil _ _ _)] at hd
    rw [isBlank_of_mem_lowerAt (List.mem_of_mem_head? hd)]
    exact h c rfl

theorem getLast?_lowerChars (h : ∀ c ∈ cs.getLast?, isBlank c = false) :
    ∀ c ∈ (lowerChars cs).getLast?, isBlank c = false := by
  rcases List.eq_nil_or_concat cs with rfl | ⟨front, c, rfl⟩
  · exact h
  · intro d hd
    rw [List.concat_eq_append, lowerChars_eq, lowerWithin_append, lowerWithin, lowerWithin,
      List.append_nil, List.append_nil,
      List.getLast?_append_of_ne_nil _ (lowerAt_ne_nil _ _ _)] at hd
    rw [isBlank_of_mem_lowerAt (List.mem_of_mem_getLast? hd)]
    exact h c (by simp)

/-! ## Texts as a whole -/

variable {text : String}

theorem toList_lower (text : String) : (lower text).toList = lowerChars text.toList :=
  String.toList_ofList

theorem lower_eq_empty_iff : lower text = "" ↔ text = "" := by
  rw [← String.toList_eq_nil_iff, toList_lower, lowerChars_eq_nil_iff, String.toList_eq_nil_iff]

/-- What has no blanks at its ends is found in a text if and only if it is found in the trimmed
text, in lower case. -/
theorem occursIn_lower_trim {value : String} (hvalue : value ≠ "")
    (hhead : ∀ c ∈ value.toList.head?, isBlank c = false)
    (hlast : ∀ c ∈ value.toList.getLast?, isBlank c = false) (text : String) :
    occursIn (lower value).toList (lower (trim text)).toList =
      occursIn (lower value).toList (lower text).toList := by
  have hbefore : ∀ c ∈ text.toList.takeWhile isBlank, isBlank c = true :=
    fun _ hc => List.mem_takeWhile_imp hc
  have hafter : ∀ c ∈ (text.toList.dropWhile isBlank).rtakeWhile isBlank, isBlank c = true :=
    fun _ hc => List.mem_rtakeWhile_imp hc
  have hbetween := lowerChars_between_blanks hbefore hafter (trimChars text.toList)
  rw [trimChars_between] at hbetween
  have hne : lowerChars value.toList ≠ [] := by
    rwa [ne_eq, lowerChars_eq_nil_iff, String.toList_eq_nil_iff]
  rw [Bool.eq_iff_iff, occursIn_iff, occursIn_iff, toList_lower, toList_lower, toList_lower, trim,
    String.toList_ofList, hbetween, infix_between_blanks_iff hne (head?_lowerChars hhead)
      (getLast?_lowerChars hlast) hbefore hafter]

end JsonInspect
