import JsonInspect.Proofs.Json.Written
import JsonInspect.Proofs.Lists

/-! # Layouts differ in spacing only

The spaces and line ends outside the string literals of a JSON text are found by a scanner that
knows quotes and backslashes (`withoutSpacing`). Without them the text of a value in any airy layout
is its text in the compact layout (`passes_write`). Both forms of a value are texts in a layout, so
the one over several lines, line by line as it is written, comes down to the one whose parts are
joined (`pretty_without_spacing`). -/

namespace JsonInspect

/-- Where a character of a JSON text stands: among the tokens, in a string literal, or behind a
backslash in one. -/
inductive Zone where
  | token | literal | escape
deriving DecidableEq

def Zone.next : Zone → Char → Zone
  | token, c => if c = '"' then literal else token
  | literal, c => if c = '"' then token else if c = '\\' then escape else literal
  | escape, _ => literal

/-- The characters that layouts put between tokens. -/
def IsSpacing (c : Char) : Prop := c = ' ' ∨ c = '\n'

instance : DecidablePred IsSpacing := fun _ => inferInstanceAs (Decidable (_ ∨ _))

/-- A JSON text without the spaces and line ends outside its string literals. -/
def withoutSpacing : Zone → List Char → List Char
  | _, [] => []
  | zone, c :: rest =>
    if zone = .token ∧ IsSpacing c then withoutSpacing .token rest
    else c :: withoutSpacing (zone.next c) rest

/-- A layout that puts spaces and line ends between tokens and nothing else. -/
structure Layout.Airy (layout : Layout) : Prop where
  gap : ∀ depth, ∀ c ∈ layout.gap depth, IsSpacing c
  afterColon : ∀ c ∈ layout.afterColon, IsSpacing c

theorem Layout.indented_airy (width : Nat) : (Layout.indented width).Airy := by
  refine ⟨fun depth c hc => ?_, fun c hc => .inl (List.mem_singleton.mp hc)⟩
  rcases List.mem_cons.mp hc with hc | hc
  · exact .inr hc
  · exact .inl (List.eq_of_mem_replicate hc)

/-! ## Scanning tokens -/

theorem passes_spacing {cs : List Char} (h : ∀ c ∈ cs, IsSpacing c) :
    Passes (withoutSpacing .token) cs [] := by
  intro rest
  induction cs with
  | nil => rfl
  | cons c cs ih =>
    rw [List.forall_mem_cons] at h
    rw [List.cons_append, withoutSpacing, if_pos ⟨rfl, h.1⟩]
    exact ih h.2

/-- A character that is no spacing and opens no literal. -/
def IsMark (c : Char) : Prop := ¬ IsSpacing c ∧ c ≠ '"'

instance : DecidablePred IsMark := fun _ => inferInstanceAs (Decidable (_ ∧ _))

theorem withoutSpacing_mark {c : Char} (h : IsMark c) (rest : List Char) :
    withoutSpacing .token (c :: rest) = c :: withoutSpacing .token rest := by
  rw [withoutSpacing, if_neg (fun hc => h.1 hc.2), Zone.next, if_neg h.2]

theorem passes_marks {cs : List Char} (h : ∀ c ∈ cs, IsMark c) :
    Passes (withoutSpacing .token) cs cs :=
  .of_forall fun c hc => withoutSpacing_mark (h c hc)

/-! ## Scanning literals -/

theorem withoutSpacing_cons_of_ne {zone : Zone} (h : zone ≠ .token) (c : Char) (rest : List Char) :
    withoutSpacing zone (c :: rest) = c :: withoutSpacing (zone.next c) rest := by
  rw [withoutSpacing, if_neg fun hzone => h hzone.1]

theorem passes_inside {c : Char} (hquote : c ≠ '"') (hback : c ≠ '\\') :
    Passes (withoutSpacing .literal) [c] [c] := by
  intro rest
  rw [List.singleton_append, withoutSpacing_cons_of_ne (by decide), Zone.next, if_neg hquote,
    if_neg hback]
  rfl

/-- Whatever follows a backslash belongs to the literal. -/
theorem passes_escaped (c : Char) : Passes (withoutSpacing .literal) ['\\', c] ['\\', c] := by
  intro rest
  show withoutSpacing .literal ('\\' :: c :: rest) = _
  rw [withoutSpacing_cons_of_ne (by decide)]
  exact congrArg ('\\' :: ·) (withoutSpacing_cons_of_ne (by decide) c rest)

theorem passes_hexDigit {n : Nat} (h : n < 16) :
    Passes (withoutSpacing .literal) [Quoted.hexDigit n] [Quoted.hexDigit n] := by
  have hdigits : ∀ n < 16, Quoted.hexDigit n ≠ '"' ∧ Quoted.hexDigit n ≠ '\\' := by decide
  exact passes_inside (hdigits n h).1 (hdigits n h).2

theorem passes_escapeChar (c : Char) :
    Passes (withoutSpacing .literal) (Quoted.escapeChar c) (Quoted.escapeChar c) := by
  unfold Quoted.escapeChar
  iterate 7
    split
    · exact passes_escaped _
  split
  · rename_i hcontrol
    exact (passes_escaped 'u').append ((passes_inside (by decide) (by decide)).append
      ((passes_inside (by decide) (by decide)).append ((passes_hexDigit (by omega)).append
        (passes_hexDigit (by omega)))))
  · rename_i hback hquote _ _ _ _ _ _
    exact passes_inside hquote hback

theorem passes_literal (s : String) :
    Passes (withoutSpacing .token) (Quoted.literal s) (Quoted.literal s) := by
  intro rest
  have hescape : Passes (withoutSpacing .literal) (Quoted.escape s.toList)
      (Quoted.escape s.toList) := by
    rw [Quoted.escape]
    induction s.toList with
    | nil => exact .nil _
    | cons c cs ih => exact (passes_escapeChar c).append ih
  have hquote : withoutSpacing .literal ('"' :: rest) = '"' :: withoutSpacing .token rest :=
    withoutSpacing_cons_of_ne (by decide) '"' rest
  have hopen : withoutSpacing .token ('"' :: (Quoted.escape s.toList ++ '"' :: rest)) =
      '"' :: withoutSpacing .literal (Quoted.escape s.toList ++ '"' :: rest) := by
    rw [withoutSpacing, if_neg (by decide)]
    rfl
  simp only [Quoted.literal, List.cons_append, List.append_assoc, List.nil_append]
  rw [hopen, hescape, hquote]

/-! ## Texts of values -/

theorem Number.IsNumeral.isMark {c : Char} (h : IsNumeral c) : IsMark c := by
  refine ⟨?_, ?_⟩
  · rintro (rfl | rfl) <;> exact absurd h (by decide)
  · rintro rfl
    exact absurd h (by decide)

/-- The words and the brackets of empty containers have nothing to take out. -/
theorem passes_plain {cs : List Char} (h : cs.all (IsMark ·) = true) :
    Passes (withoutSpacing .token) cs cs :=
  passes_marks fun c hc => of_decide_eq_true (List.all_eq_true.mp h c hc)

namespace Json

section

variable {layout : Layout} (hl : layout.Airy)
include hl

theorem passes_writeItems {items : List Json} (h : ∀ item ∈ items, ∀ depth depth',
      Passes (withoutSpacing .token) (item.write layout depth) (item.write .compact depth'))
    (depth depth' : Nat) : Passes (withoutSpacing .token) (writeItems layout depth items)
      (writeItems .compact depth' items) := by
  induction items with
  | nil => exact .nil _
  | cons item rest ih =>
    intro tail
    rw [List.forall_mem_cons] at h
    simp only [writeItems_cons, List.cons_append, List.append_assoc, compact_gap, List.nil_append]
    rw [withoutSpacing_mark (by decide), passes_spacing (hl.gap depth), h.1 depth depth', ih h.2,
      List.nil_append]

theorem passes_writeEntries {entries : List (String × Json)} (h : ∀ e ∈ entries, ∀ depth depth',
      Passes (withoutSpacing .token) (e.2.write layout depth) (e.2.write .compact depth'))
    (depth depth' : Nat) : Passes (withoutSpacing .token) (writeEntries layout depth entries)
      (writeEntries .compact depth' entries) := by
  induction entries with
  | nil => exact .nil _
  | cons e rest ih =>
    intro tail
    obtain ⟨key, child⟩ := e
    rw [List.forall_mem_cons] at h
    simp only [writeEntries_cons, List.cons_append, List.append_assoc, compact_gap,
      compact_afterColon, List.nil_append]
    rw [withoutSpacing_mark (by decide), passes_spacing (hl.gap depth), passes_literal,
      withoutSpacing_mark (by decide), passes_spacing hl.afterColon, h.1 depth depth', ih h.2,
      List.nil_append, List.nil_append]

/-- Without its spacing the text of a value is its text in the compact layout. -/
theorem passes_write (v : Json) (depth depth' : Nat) :
    Passes (withoutSpacing .token) (v.write layout depth) (v.write .compact depth') := by
  induction v using induction generalizing depth depth' with
  | null =>
    rw [write_null, write_null]
    exact passes_plain (by decide)
  | bool b =>
    rw [write_bool, write_bool]
    cases b <;> exact passes_plain (by decide)
  | num n =>
    rw [write_num, write_num]
    exact passes_marks fun c hc => (Number.numeral_chars n c hc).isMark
  | str s =>
    rw [write_str, write_str]
    exact passes_literal s
  | arr items ih =>
    cases items with
    | nil =>
      rw [write_arr_nil, write_arr_nil]
      exact passes_plain (by decide)
    | cons item rest =>
      intro tail
      rw [List.forall_mem_cons] at ih
      simp only [write_arr_cons, List.cons_append, List.append_assoc, compact_gap, List.nil_append]
      rw [withoutSpacing_mark (by decide), passes_spacing (hl.gap _), ih.1 _ (depth' + 1),
        passes_writeItems hl ih.2 _ (depth' + 1), passes_spacing (hl.gap depth),
        withoutSpacing_mark (by decide), List.nil_append, List.nil_append]
  | obj entries ih =>
    cases entries with
    | nil =>
      rw [write_obj_nil, write_obj_nil]
      exact passes_plain (by decide)
    | cons e rest =>
      intro tail
      obtain ⟨key, child⟩ := e
      rw [List.forall_mem_cons] at ih
      simp only [write_obj_cons, List.cons_append, List.append_assoc, compact_gap,
        compact_afterColon, List.nil_append]
      rw [withoutSpacing_mark (by decide), passes_spacing (hl.gap _), passes_literal,
        withoutSpacing_mark (by decide), passes_spacing hl.afterColon, ih.1 _ (depth' + 1),
        passes_writeEntries hl ih.2 _ (depth' + 1), passes_spacing (hl.gap depth),
        withoutSpacing_mark (by decide), List.nil_append, List.nil_append, List.nil_append]

end

/-- The two forms of a value differ in spaces and line ends outside its literals only. -/
theorem pretty_without_spacing (v : Json) (width : Nat) :
    String.ofList (withoutSpacing .token (v.pretty width).toList) = v.compact := by
  rw [pretty_eq, compact_eq, String.toList_ofList,
    (passes_write (Layout.indented_airy width) v 0 0).eq rfl]

/-- The space of a literal stays, also behind an escaped quote. -/
example : withoutSpacing .token "[\n  \"a\\\" b\"\n]".toList = "[\"a\\\" b\"]".toList := by decide

end Json

end JsonInspect
