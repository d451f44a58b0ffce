import JsonInspect.Palette
import JsonInspect.Proofs.Engine.Renamed
import JsonInspect.Proofs.Text.Dotted

/-! # What the key palette lists

The palette of a document lists the locations of all keys that can be followed from one of its
records, up to some depth (`mem_ofDocument`). If every key is a part of a dotted text by itself, a
text is listed exactly if its path can be followed (`mem_ofDocument_of_plain`), which without arrays
in the records means that the path resolves (`followed_iff_resolve`). -/

namespace JsonInspect

open Json

/-- The keys can be followed from object to object. Where the value at a key is an array, the next
key is looked up in any one of its elements. -/
inductive Followed : List String → Json → Prop
  | last {key : String} {child : Json} {entries : List (String × Json)} :
    (key, child) ∈ entries → Followed [key] (.obj entries)
  | step {key : String} {child next : Json} {rest : List String}
      {entries : List (String × Json)} :
    (key, child) ∈ entries → next ∈ child.records → Followed rest next →
      Followed (key :: rest) (.obj entries)

theorem Followed.ne_nil {keys : List String} {v : Json} (h : Followed keys v) : keys ≠ [] := by
  cases h <;> exact List.cons_ne_nil _ _

theorem Followed.isArray {keys : List String} {v : Json} (h : Followed keys v) :
    v.isArray = false := by
  cases h <;> rfl

namespace Palette

/-! ## Below a value -/

variable {depth : Nat} {location text : String}

theorem mem_belowEntries {entries : List (String × Json)} :
    text ∈ belowEntries depth location entries ↔ depth ≠ 0 ∧ ∃ e ∈ entries,
      text = dotted location e.1 ∨ text ∈ below (depth - 1) (dotted location e.1) e.2 := by
  induction entries with
  | nil => simp [belowEntries]
  | cons e rest ih =>
    rw [belowEntries]
    by_cases hd : depth = 0
    · simp [hd]
    · rw [if_neg hd, List.cons_append, List.mem_cons, List.mem_append, ih]
      simp only [ne_eq, hd, not_false_eq_true, true_and, List.mem_cons, exists_eq_or_imp,
        or_assoc]

theorem mem_belowItems {items : List Json} :
    text ∈ belowItems depth location items ↔
      ∃ item ∈ items, item.isArray = false ∧ text ∈ below depth location item := by
  induction items with
  | nil => simp [belowItems]
  | cons item rest ih =>
    rw [belowItems, List.mem_append, ih]
    simp only [List.mem_cons, exists_eq_or_imp]
    cases h : item.isArray <;> simp

/-- Below a value are the locations of all keys that can be followed from it. -/
theorem mem_below {v : Json} : text ∈ below depth location v ↔
    ∃ next ∈ v.records, ∃ keys, Followed keys next ∧ keys.length ≤ depth ∧
      text = keys.foldl dotted location := by
  induction v using Json.induction generalizing depth location with
  | arr items ih =>
    rw [below, mem_belowItems]
    constructor
    · rintro ⟨item, hi, harray, ht⟩
      obtain ⟨next, hn, hkeys⟩ := (ih item hi).mp ht
      rw [records_of_isArray harray, List.mem_singleton] at hn
      subst hn
      exact ⟨next, hi, hkeys⟩
    · rintro ⟨next, hn, keys, hf, hkeys⟩
      refine ⟨next, hn, hf.isArray, (ih next hn).mpr ⟨next, ?_, keys, hf, hkeys⟩⟩
      rw [records_of_isArray hf.isArray]
      exact List.mem_singleton_self next
  | obj entries ih =>
    rw [below, mem_belowEntries]
    constructor
    · rintro ⟨hd, e, he, rfl | ht⟩
      · exact ⟨_, List.mem_singleton_self _, [e.1], .last he, Nat.pos_of_ne_zero hd, rfl⟩
      · obtain ⟨next, hn, keys, hf, hlen, rfl⟩ := (ih e he).mp ht
        refine ⟨_, List.mem_singleton_self _, e.1 :: keys, .step he hn hf, ?_, rfl⟩
        rw [List.length_cons]
        omega
    · rintro ⟨v, hv, keys, hf, hlen, rfl⟩
      rw [List.mem_singleton.mp hv] at hf
      cases hf with
      | last he => exact ⟨Nat.ne_of_gt hlen, _, he, .inl rfl⟩
      | step he hn hrest =>
        rw [List.length_cons] at hlen
        exact ⟨by omega, _, he, .inr ((ih _ he).mpr ⟨_, hn, _, hrest, by omega, rfl⟩)⟩
  | _ =>
    refine ⟨fun h => (nomatch h), ?_⟩
    rintro ⟨next, hn, keys, hf, -⟩
    rw [List.mem_singleton.mp hn] at hf
    cases hf

/-! ## The whole document -/

theorem mem_insertKey {key : String} {keys : List String} :
    text ∈ insertKey key keys ↔ text = key ∨ text ∈ keys := by
  induction keys with
  | nil => simp [insertKey]
  | cons k rest ih =>
    rw [insertKey]
    split
    · exact List.mem_cons
    · split
      · rename_i hk
        rw [hk, List.mem_cons, or_self_left]
      · rw [List.mem_cons, ih, List.mem_cons, or_left_comm]

theorem mem_foldl_insertKey {texts keys : List String} :
    text ∈ texts.foldl (fun keys key => insertKey key keys) keys ↔ text ∈ texts ∨ text ∈ keys := by
  induction texts generalizing keys with
  | nil => simp
  | cons key texts ih =>
    rw [List.foldl_cons, ih, mem_insertKey, List.mem_cons, or_left_comm, or_assoc]

/-- Adding a text keeps a list strictly ascending. -/
theorem ascending_insertKey {key : String} {keys : List String} (h : keys.Pairwise (· < ·)) :
    (insertKey key keys).Pairwise (· < ·) := by
  induction keys with
  | nil => exact List.pairwise_singleton _ key
  | cons k rest ih =>
    obtain ⟨hk, hrest⟩ := List.pairwise_cons.mp h
    rw [insertKey]
    split
    · rename_i hlt
      refine List.pairwise_cons.mpr ⟨List.forall_mem_cons.mpr ⟨hlt, ?_⟩, h⟩
      intro later hlater
      exact String.lt_trans hlt (hk later hlater)
    · rename_i hge
      split
      · exact h
      · rename_i hne
        have hgt : k < key := String.not_le.mp fun hle =>
          hne (String.le_antisymm hle (String.not_lt.mp hge))
        refine List.pairwise_cons.mpr ⟨?_, ih hrest⟩
        intro later hlater
        rcases mem_insertKey.mp hlater with rfl | hlater
        · exact hgt
        · exact hk later hlater

theorem ascending_ofDocument (depth : Nat) (root : Json) :
    (ofDocument depth root).Pairwise (· < ·) :=
  List.foldlRecOn (motive := fun keys : List String => keys.Pairwise (· < ·)) _ _ .nil
    fun _ h _ _ => ascending_insertKey h

/-- The palette of a document lists the locations of all keys that can be followed from a record. -/
theorem mem_ofDocument {root : Json} : text ∈ ofDocument depth root ↔
    ∃ record ∈ root.records, ∃ keys, Followed keys record ∧ keys.length ≤ depth ∧
      text = keys.foldl dotted "" := by
  rw [ofDocument, mem_foldl_insertKey, mem_below]
  simp

end Palette

/-! ## Plain keys -/

namespace Json

/-- Whether every key of an object is a part of a dotted text by itself. -/
def hasPlainKeys : Json → Bool
  | obj entries => (Entries.keys entries).all fun key => decide (IsPlainKey key)
  | _ => true

def isNoArray (v : Json) : Bool := !v.isArray

end Json

variable {keys : List String} {v root : Json}

theorem Followed.isPlainKey (h : Followed keys v) (hv : v.everywhere hasPlainKeys = true) :
    ∀ key ∈ keys, IsPlainKey key := by
  have hkey : ∀ {key : String} {child : Json} {entries : List (String × Json)},
      (obj entries).everywhere hasPlainKeys = true → (key, child) ∈ entries → IsPlainKey key := by
    intro key child entries hv he
    exact of_decide_eq_true
      (List.all_eq_true.mp (everywhere_self hv) key (Entries.mem_keys_of_mem he))
  induction h with
  | last he => exact List.forall_mem_singleton.mpr (hkey hv he)
  | step he hn _ ih =>
    exact List.forall_mem_cons.mpr
      ⟨hkey hv he, ih (everywhere_records ((everywhere_obj.mp hv).2 _ he) _ hn)⟩

/-- With plain keys, a text is listed exactly if its path can be followed from some record. -/
theorem Palette.mem_ofDocument_of_plain {depth : Nat} {text : String}
    (hroot : root.everywhere hasPlainKeys = true) : text ∈ Palette.ofDocument depth root ↔
      (Path.parse text).segments.length ≤ depth ∧
        ∃ record ∈ root.records, Followed (Path.parse text).segments record := by
  have hplain : ∀ record ∈ root.records, ∀ keys, Followed keys record →
      ∀ key ∈ keys, IsPlainKey key :=
    fun record hr keys hf => hf.isPlainKey (everywhere_records hroot record hr)
  have hlocation : ∀ record ∈ root.records, ∀ keys, Followed keys record →
      keys.foldl dotted "" = (⟨keys⟩ : Path).text := fun record hr keys hf =>
    foldl_dotted_empty hf.ne_nil fun key hk => (hplain record hr keys hf key hk).1
  rw [mem_ofDocument]
  constructor
  · rintro ⟨record, hr, keys, hf, hlen, rfl⟩
    rw [hlocation record hr keys hf, Path.parse_text (hplain record hr keys hf)]
    exact ⟨hlen, record, hr, hf⟩
  · rintro ⟨hlen, record, hr, hf⟩
    refine ⟨record, hr, _, hf, hlen, ?_⟩
    rw [hlocation record hr _ hf]
    exact (Path.text_parse text).symm

/-! ## Records without arrays -/

theorem walk_cons_eq_some {key : String} {rest : List String} {field : Json} :
    walk (key :: rest) v = some field ↔ ∃ entries child, v = .obj entries ∧
      entries.lookup key = some child ∧ walk rest child = some field := by
  constructor
  · intro h
    cases v with
    | obj entries =>
      rw [walk] at h
      split at h
      · rename_i child hchild
        exact ⟨entries, child, rfl, hchild, h⟩
      · cases h
    | _ => cases h
  · rintro ⟨entries, child, rfl, hchild, h⟩
    rw [walk, hchild]
    exact h

/-- Keys that lead from object to object can be followed. -/
theorem followed_of_walk {field : Json} (hne : keys ≠ []) (h : walk keys v = some field) :
    Followed keys v := by
  induction keys generalizing v with
  | nil => exact absurd rfl hne
  | cons key rest ih =>
    obtain ⟨entries, child, rfl, hlookup, hfield⟩ := walk_cons_eq_some.mp h
    have he := Entries.mem_of_lookup hlookup
    by_cases hrest : rest = []
    · subst hrest
      exact .last he
    · have hchild := ih hrest hfield
      refine .step he ?_ hchild
      rw [records_of_isArray hchild.isArray]
      exact List.mem_singleton_self child

/-- Where no value is an array, keys that can be followed lead from object to object. -/
theorem walk_of_followed (h : Followed keys v) (hw : v.wellFormed = true)
    (hv : v.everywhere isNoArray = true) : ∃ field, walk keys v = some field := by
  induction h with
  | last he =>
    have hlookup := Entries.lookup_of_mem (wellFormed_obj.mp hw).1 he
    exact ⟨_, walk_cons_eq_some.mpr ⟨_, _, rfl, hlookup, rfl⟩⟩
  | step he hn _ ih =>
    obtain ⟨hkeys, hwell⟩ := wellFormed_obj.mp hw
    have hchild := (everywhere_obj.mp hv).2 _ he
    rw [records_of_isArray (by simpa [isNoArray] using everywhere_self hchild),
      List.mem_singleton] at hn
    subst hn
    obtain ⟨field, hfield⟩ := ih (hwell _ he) hchild
    exact ⟨field, walk_cons_eq_some.mpr ⟨_, _, rfl, Entries.lookup_of_mem hkeys he, hfield⟩⟩

theorem followed_of_resolve {path : Path} {field : Json} (h : v.resolve path = some field) :
    Followed path.segments v := by
  unfold Json.resolve at h
  split at h
  · cases h
  · rename_i hne
    exact followed_of_walk (mt List.isEmpty_iff.mpr hne) h

/-- Keys that never meet an array can be followed exactly if they are a path that resolves. -/
theorem followed_iff_resolve (hw : v.wellFormed = true) (hv : v.everywhere isNoArray = true)
    (path : Path) : Followed path.segments v ↔ ∃ field, v.resolve path = some field := by
  constructor
  · intro hf
    have hne : ¬ path.isEmpty = true := mt List.isEmpty_iff.mp hf.ne_nil
    rw [Json.resolve, if_neg hne]
    exact walk_of_followed hf hw hv
  · rintro ⟨field, hfield⟩
    exact followed_of_resolve hfield

/-! ## The whole palette -/

def codePoints (text : String) : List Nat := text.toList.map Char.toNat

/-- Texts are compared by the numbers of their characters. -/
theorem codePoints_lt {a b : String} (h : a < b) :
    List.Lex (· < ·) (codePoints a) (codePoints b) := by
  have hchars : ∀ {as bs : List Char}, List.Lex (· < ·) as bs →
      List.Lex (· < ·) (as.map Char.toNat) (bs.map Char.toNat) := by
    intro as bs hlex
    induction hlex with
    | nil => exact .nil
    | cons _ ih => exact .cons ih
    | rel hlt => exact .rel (UInt32.lt_iff_toNat_lt.mp hlt)
  exact hchars h

/-- What a palette up to some depth is: a list of texts, strictly ascending by code points, with
the dotted form of each sequence of at most so many keys that can be followed from some record. So
it has every path of at most so many keys that resolves in a record. -/
structure Palette.Lists (depth : Nat) (root : Json) (texts : List String) : Prop where
  ascending : texts.Pairwise fun a b => List.Lex (· < ·) (codePoints a) (codePoints b)
  mem_iff : ∀ text, text ∈ texts ↔ ∃ record ∈ root.records, ∃ keys, Followed keys record ∧
    1 ≤ keys.length ∧ keys.length ≤ depth ∧ text = ".".intercalate keys
  resolving : ∀ record ∈ root.records, ∀ path : Path, path.segments.length ≤ depth →
    record.resolve path ≠ none → path.text ∈ texts

theorem Palette.lists_ofDocument (depth : Nat) (root : Json)
    (hplain : root.everywhere hasPlainKeys = true) :
    Palette.Lists depth root (Palette.ofDocument depth root) := by
  have hdotted : ∀ record ∈ root.records, ∀ keys, Followed keys record →
      keys.foldl dotted "" = ".".intercalate keys := by
    intro record hr keys hf
    exact foldl_dotted_empty hf.ne_nil fun key hk =>
      (hf.isPlainKey (everywhere_records hplain record hr) key hk).1
  refine ⟨(ascending_ofDocument depth root).imp codePoints_lt, ?_, ?_⟩
  · intro text
    rw [mem_ofDocument]
    constructor
    · rintro ⟨record, hr, keys, hf, hlen, rfl⟩
      exact ⟨record, hr, keys, hf, List.length_pos_of_ne_nil hf.ne_nil, hlen,
        hdotted record hr keys hf⟩
    · rintro ⟨record, hr, keys, hf, -, hlen, rfl⟩
      exact ⟨record, hr, keys, hf, hlen, (hdotted record hr keys hf).symm⟩
  · intro record hr path hlen hresolve
    rw [mem_ofDocument]
    obtain ⟨field, hfield⟩ := Option.ne_none_iff_exists'.mp hresolve
    have hf := followed_of_resolve hfield
    exact ⟨record, hr, path.segments, hf, hlen, (hdotted record hr _ hf).symm⟩

def mixedRecords : Json :=
  .arr [.obj [("items", .arr [.obj [("id", .obj [("n", .null)])], .arr [.obj [("deep", .null)]]])],
    .obj [("a", .null)]]

theorem mixedRecords_lists : mixedRecords.everywhere hasPlainKeys = true ∧
    Palette.Lists 2 mixedRecords (Palette.ofDocument 2 mixedRecords) := by
  have hplain : mixedRecords.everywhere hasPlainKeys = true := by decide +kernel
  exact ⟨hplain, Palette.lists_ofDocument 2 mixedRecords hplain⟩

example : Palette.ofDocument 2 mixedRecords = ["a", "items", "items.id"] := by decide +kernel

end JsonInspect
