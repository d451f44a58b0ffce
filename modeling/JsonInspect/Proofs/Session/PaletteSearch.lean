import JsonInspect.Proofs.Engine.Palette
import JsonInspect.Proofs.Session.Nesting
import JsonInspect.Proofs.Text.Trim

/-! # Searching what the palette lists

A search takes the blanks off the ends of its key. So it finds something for a key that a palette
lists exactly if the palette lists what is left of it as well (`listed_key_found`), in particular if
the key has no blanks at its ends. -/

namespace JsonInspect

open Json

variable {s : Session} {root : Json} {expression key value : String}

theorem Session.mem_keys (hroot : s.root = .ok root) :
    key ∈ s.keys ↔ key ∈ Palette.ofDocument s.options.paletteDepth root := by
  have hformat : s.format =
      .ok ⟨s.pretty root, Palette.ofDocument s.options.paletteDepth root⟩ := by
    rw [Session.format, hroot, ok_bind]
  -- Only the definition is opened: its equation would be checked by reading the text.
  delta Session.keys
  rw [hformat]

/-! ## Searching without a value -/

theorem queryByValue_blank_finds (m : Matching) (path : Path) (root : Json) :
    (queryByValue m path "" root).records ≠ [] ↔
      ∃ record ∈ root.records, ∃ field, record.resolve path = some field := by
  rw [records_queryByValue_blank, ne_eq, List.filter_eq_nil_iff]
  simp [Option.isSome_iff_exists]

theorem search_by_value (value : String) (hroot : s.root = .ok root)
    (hexpression : trim expression = "") (hkey : trim key ≠ "") :
    ∃ outcome, s.search ⟨expression, key, value⟩ = .ok outcome ∧ outcome.found =
      queryByValue s.options.matching (Path.parse (trim key)) (trim value) root := by
  have hkey := Bool.eq_false_iff.mpr (mt String.isEmpty_iff.mp hkey)
  rw [Session.search, hroot, ok_bind]
  dsimp only
  rw [if_pos (String.isEmpty_iff.mpr hexpression), Session.searchByValue, hkey]
  exact ⟨_, rfl, rfl⟩

/-- With nothing typed for the value, a search finds the records in which its key resolves. -/
theorem search_blank_value (hroot : s.root = .ok root) (hexpression : trim expression = "")
    (hvalue : trim value = "") :
    (∃ outcome, s.search ⟨expression, key, value⟩ = .ok outcome ∧ outcome.found.records ≠ []) ↔
      ∃ record ∈ root.records, ∃ field, record.resolve (Path.parse (trim key)) = some field := by
  rw [← queryByValue_blank_finds s.options.matching, ← hvalue]
  constructor
  · rintro ⟨outcome, hsearch, hne⟩
    obtain ⟨root', hroot', hmatches, -⟩ := search_eq_ok hsearch
    rw [hroot] at hroot'
    cases hroot'
    rw [SearchRequest.matches, if_pos (String.isEmpty_iff.mpr hexpression)] at hmatches
    dsimp only at hmatches
    split at hmatches
    · cases hmatches
    · rw [← Except.ok.inj hmatches] at hne
      exact hne
  · intro hne
    have hkey : trim key ≠ "" := by
      -- The empty path resolves nowhere.
      intro hkey
      rw [hvalue, queryByValue_blank_finds, hkey] at hne
      obtain ⟨record, -, field, hfield⟩ := hne
      cases hfield
    obtain ⟨outcome, hsearch, hfound⟩ := search_by_value value hroot hexpression hkey
    exact ⟨outcome, hsearch, by rwa [hfound]⟩

/-! ## Listed keys -/

theorem length_parse_trim (hkey : key ≠ "") (htrim : trim key ≠ "") :
    (Path.parse (trim key)).segments.length = (Path.parse key).segments.length := by
  rw [Path.length_segments_parse hkey, Path.length_segments_parse htrim, trim,
    String.toList_ofList, count_trimChars (by decide)]

/-- In a document with plain keys and without arrays in its records, a search finds something for a
listed key exactly if the key without the blanks at its ends is listed. -/
theorem listed_key_found (s : Session) (root : Json) (expression key value : String)
    (hroot : s.root = .ok root) (hplain : root.everywhere hasPlainKeys = true)
    (harrays : ∀ record ∈ root.records, record.everywhere isNoArray = true)
    (hkey : key ∈ s.keys) (hexpression : isBlankText expression = true)
    (hvalue : isBlankText value = true) :
    (∃ outcome, s.search ⟨expression, key, value⟩ = .ok outcome ∧ outcome.found.records ≠ []) ↔
      trim key ∈ s.keys := by
  have hwell := wellFormed_records (s.root_fits hroot).1
  have hresolve : ∀ path, (∃ record ∈ root.records, Followed path.segments record) ↔
      ∃ record ∈ root.records, ∃ field, record.resolve path = some field := fun path =>
    exists_congr fun record => and_congr_right fun hr =>
      followed_iff_resolve (hwell record hr) (harrays record hr) path
  have hempty : ∀ {text : String} {record : Json}, Followed (Path.parse text).segments record →
      text ≠ "" := by
    rintro text record hf rfl
    exact hf.ne_nil rfl
  rw [Session.mem_keys hroot, Palette.mem_ofDocument_of_plain hplain] at hkey ⊢
  rw [search_blank_value hroot (trim_of_isBlankText hexpression) (trim_of_isBlankText hvalue),
    ← hresolve]
  obtain ⟨hlen, record, hr, hf⟩ := hkey
  refine ⟨fun ⟨found, hfound, hfollowed⟩ => ⟨?_, found, hfound, hfollowed⟩, fun h => h.2⟩
  -- Blanks are no dots, so the trimmed key is no deeper than the listed one.
  rwa [length_parse_trim (hempty hf) (hempty hfollowed)]

/-- The conditions on a document, from a computation on the session that holds it. -/
theorem Session.exists_plain_root (h : (s.root.toOption.any fun root =>
      root.everywhere hasPlainKeys && root.records.all (everywhere isNoArray)) = true) :
    ∃ root, s.root = .ok root ∧ root.everywhere hasPlainKeys = true ∧
      ∀ record ∈ root.records, record.everywhere isNoArray = true := by
  cases hroot : s.root with
  | error f =>
    rw [hroot] at h
    cases h
  | ok root =>
    rw [hroot] at h
    obtain ⟨hplain, harrays⟩ := Bool.and_eq_true_iff.mp h
    exact ⟨root, rfl, hplain, List.all_eq_true.mp harrays⟩

/-- Two records, with a key that is listed both with blanks around it and without them. -/
def blankKeys : Session :=
  Session.start "[\x7b\" a \":1,\"a\":\x7b\"b c\":null\x7d\x7d,\x7b\"a\":\"\"\x7d]"
    ⟨⟨false, 2⟩, 10, 2⟩

theorem blankKeys_found :
    ∃ root, blankKeys.root = .ok root ∧ root.everywhere hasPlainKeys = true ∧
      (∀ record ∈ root.records, record.everywhere isNoArray = true) ∧
      " a " ∈ blankKeys.keys ∧ isBlankText "\t" = true ∧ isBlankText "" = true ∧
      ((∃ outcome, blankKeys.search ⟨"\t", " a ", ""⟩ = .ok outcome ∧
        outcome.found.records ≠ []) ↔ trim " a " ∈ blankKeys.keys) := by
  obtain ⟨root, hroot, hplain, harrays⟩ := blankKeys.exists_plain_root (by decide +kernel)
  have hkey : " a " ∈ blankKeys.keys := by decide +kernel
  exact ⟨root, hroot, hplain, harrays, hkey, rfl, rfl,
    listed_key_found blankKeys root "\t" " a " "" hroot hplain harrays hkey rfl rfl⟩

/-- A key that is listed with a blank only is not found. -/
theorem blankKey_not_found :
    let s := Session.start "\x7b\" a\":1\x7d" ⟨⟨false, 2⟩, 10, 2⟩
    (∃ root, s.root = .ok root ∧ root.everywhere hasPlainKeys = true ∧
      ∀ record ∈ root.records, record.everywhere isNoArray = true) ∧ " a" ∈ s.keys ∧
      ¬ ∃ outcome, s.search ⟨"", " a", ""⟩ = .ok outcome ∧ outcome.found.records ≠ [] := by
  intro s
  have hcount : (s.search ⟨"", " a", ""⟩).toOption.map (·.found.records.length) = some 0 := by
    decide +kernel
  refine ⟨s.exists_plain_root (by decide +kernel), by decide +kernel, ?_⟩
  rintro ⟨outcome, hsearch, hne⟩
  rw [hsearch] at hcount
  exact hne (List.length_eq_zero_iff.mp (Option.some.inj hcount))

end JsonInspect
