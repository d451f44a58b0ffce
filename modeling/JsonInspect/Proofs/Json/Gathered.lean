import JsonInspect.Proofs.Json.Entries
import Mathlib.Data.List.Induction

/-! # Gathered values

What `gather` makes of a list of pairs: the keys stand in the order in which they first occur
(`keys_gather_ordered`), nothing is lost and nothing is added (`gather_perm`), and gathering the
pairs once more, list after list, gives the same lists (`gather_scatter`). The entries of several
maps put into one have the keys in the same order, each with its last value (`united_ofPairs`). -/

namespace JsonInspect.Entries

variable {α : Type} {key : String}

/-! ## One pair more -/

theorem gather_concat (pairs : List (String × α)) (e : String × α) :
    gather (pairs ++ [e]) = append e.1 e.2 (gather pairs) :=
  List.foldl_append

theorem keys_append (key : String) (value : α) (entries : List (String × List α)) :
    keys (append key value entries) =
      if key ∈ keys entries then keys entries else keys entries ++ [key] :=
  keys_put key _ entries

theorem append_of_notMem (value : α) {entries : List (String × List α)}
    (h : key ∉ keys entries) : append key value entries = entries ++ [(key, [value])] := by
  rw [append, lookup_eq_none_iff.mpr h, Option.getD_none, List.nil_append, put_of_not_mem _ h]

/-- A key at the end of the map gets its values there. -/
theorem append_at_end (value : α) (values : List α) {front : List (String × List α)}
    (h : key ∉ keys front) :
    append key value (front ++ [(key, values)]) = front ++ [(key, values ++ [value])] := by
  induction front with
  | nil =>
    rw [List.nil_append, append, lookup_cons_self, put, if_pos rfl]
    rfl
  | cons e rest ih =>
    obtain ⟨k, found⟩ := e
    rw [keys_cons, List.mem_cons, not_or] at h
    have hne : k ≠ key := Ne.symm h.1
    have hrest := ih h.2
    rw [append] at hrest
    rw [List.cons_append, append, lookup_cons_of_ne _ h.1, put, if_neg hne, hrest]
    rfl

/-! ## The keys -/

theorem valuesOf_eq_nil_iff {pairs : List (String × α)} :
    valuesOf key pairs = [] ↔ key ∉ keys pairs := by
  rw [List.eq_nil_iff_forall_not_mem, keys, List.mem_map]
  simp [mem_valuesOf]

theorem mem_keys_gather {pairs : List (String × α)} :
    key ∈ keys (gather pairs) ↔ key ∈ keys pairs := by
  rw [← hasKey_iff, hasKey, lookup_gather, ← not_iff_not (b := key ∈ keys pairs),
    ← valuesOf_eq_nil_iff]
  split <;> simp_all

theorem keys_concat (pairs : List (String × α)) (e : String × α) :
    keys (pairs ++ [e]) = keys pairs ++ [e.1] :=
  List.map_append

/-- Keys stand in the order in which they first occur. -/
theorem keys_gather_ordered (pairs : List (String × α)) :
    (keys (gather pairs)).Pairwise fun a b => (keys pairs).idxOf a < (keys pairs).idxOf b := by
  induction pairs using List.reverseRecOn with
  | nil => exact .nil
  | append_singleton pairs e ih =>
    have hmem : ∀ {a}, a ∈ keys (gather pairs) → a ∈ keys pairs := mem_keys_gather.mp
    have hold : (keys (gather pairs)).Pairwise fun a b =>
        (keys (pairs ++ [e])).idxOf a < (keys (pairs ++ [e])).idxOf b := by
      refine ih.imp_of_mem fun ha hb hab => ?_
      rw [keys_concat, List.idxOf_append_of_mem (hmem ha), List.idxOf_append_of_mem (hmem hb)]
      exact hab
    rw [gather_concat, keys_append]
    split
    · exact hold
    · rename_i hnew
      rw [mem_keys_gather] at hnew
      refine List.pairwise_append.mpr ⟨hold, List.pairwise_singleton _ _, fun a ha b hb => ?_⟩
      obtain rfl := List.mem_singleton.mp hb
      rw [keys_concat, List.idxOf_append_of_mem (hmem ha), List.idxOf_append_of_notMem hnew]
      exact Nat.lt_add_right _ (List.idxOf_lt_length_of_mem (hmem ha))

theorem idxOf_le {names : List String} {name : String} {i : Nat} (h : names[i]? = some name) :
    names.idxOf name ≤ i := by
  obtain ⟨hi, hname⟩ := List.getElem?_eq_some_iff.mp h
  refine Nat.le_of_not_lt fun hlt => ?_
  have hne := List.not_of_lt_findIdx hlt
  rw [hname, beq_self_eq_true] at hne
  cases hne

/-- Of two keys the first one has a pair in front of all pairs of the second one. -/
theorem keys_gather_pairwise {R : String × α → String × α → Prop} {pairs : List (String × α)}
    (h : pairs.Pairwise R) : (keys (gather pairs)).Pairwise fun a b =>
      ∃ e ∈ pairs, e.1 = a ∧ ∀ e' ∈ pairs, e'.1 = b → R e e' := by
  refine (keys_gather_ordered pairs).imp fun {a b} hab => ?_
  have hlength : (keys pairs).length = pairs.length := List.length_map Prod.fst
  have hi : (keys pairs).idxOf a < pairs.length :=
    hlength ▸ Nat.lt_of_lt_of_le hab List.idxOf_le_length
  refine ⟨_, List.getElem_mem hi, ?_, fun e' he' hb => ?_⟩
  · have hkey := List.getElem_idxOf (hlength ▸ hi : (keys pairs).idxOf a < (keys pairs).length)
    simpa only [keys, List.getElem_map] using hkey
  · obtain ⟨j, hj, rfl⟩ := List.getElem_of_mem he'
    have hle : (keys pairs).idxOf b ≤ j := idxOf_le (by simp [keys, hj, hb])
    exact List.pairwise_iff_getElem.mp h _ j hi hj (Nat.lt_of_lt_of_le hab hle)

/-! ## The values -/

theorem append_perm (key : String) (value : α) (entries : List (String × List α)) :
    ((append key value entries).flatMap Prod.snd).Perm (entries.flatMap Prod.snd ++ [value]) := by
  induction entries with
  | nil => exact .refl [value]
  | cons e rest ih =>
    obtain ⟨k, values⟩ := e
    by_cases hk : k = key
    · subst hk
      have hput : append k value ((k, values) :: rest) = (k, values ++ [value]) :: rest := by
        rw [append, lookup_cons_self, put, if_pos rfl]
        rfl
      rw [hput, List.flatMap_cons, List.flatMap_cons, List.append_assoc, List.append_assoc]
      exact List.perm_append_comm.append_left values
    · have hput : append key value ((k, values) :: rest) =
          (k, values) :: append key value rest := by
        rw [append, lookup_cons_of_ne rest (Ne.symm hk), put, if_neg hk]
        rfl
      rw [hput, List.flatMap_cons, List.flatMap_cons, List.append_assoc]
      exact ih.append_left values

/-- The gathered lists together hold every value once. -/
theorem gather_perm (pairs : List (String × α)) :
    ((gather pairs).flatMap Prod.snd).Perm (pairs.map Prod.snd) := by
  induction pairs using List.reverseRecOn with
  | nil => exact .nil
  | append_singleton pairs e ih =>
    rw [gather_concat, List.map_append]
    exact (append_perm e.1 e.2 (gather pairs)).trans (ih.append_right [e.2])

/-! ## Leaving keys out -/

theorem append_filter (p : String → Bool) (key : String) (value : α)
    (entries : List (String × List α)) :
    (append key value entries).filter (fun e => p e.1) =
      if p key then append key value (entries.filter fun e => p e.1)
      else entries.filter fun e => p e.1 := by
  rw [append, filter_put, append, lookup_filter]
  cases h : p key <;> simp

theorem gather_filter (p : String → Bool) (pairs : List (String × α)) :
    gather (pairs.filter fun e => p e.1) = (gather pairs).filter fun e => p e.1 := by
  induction pairs using List.reverseRecOn with
  | nil => rfl
  | append_singleton pairs e ih =>
    rw [List.filter_append, gather_concat, append_filter, ← ih]
    cases h : p e.1 with
    | true => rw [List.filter_cons, if_pos h, List.filter_nil, gather_concat, if_pos rfl]
    | false => simp [h]

/-- The keys with several values are what is left when the other pairs are left out. -/
theorem repeated_eq_gather (pairs : List (String × α)) :
    repeated pairs = gather (pairs.filter fun e => 1 < (valuesOf e.1 pairs).length) := by
  rw [gather_filter fun key => 1 < (valuesOf key pairs).length, repeated]
  refine List.filter_congr fun e he => ?_
  rw [(mem_gather he).1]

theorem repeated_perm (pairs : List (String × α)) :
    ((repeated pairs).flatMap Prod.snd).Perm
      ((pairs.filter fun e => 1 < (valuesOf e.1 pairs).length).map Prod.snd) := by
  rw [repeated_eq_gather]
  exact gather_perm _

/-! ## Gathering again -/

/-- The pairs of a map of lists, list after list. -/
def scatter (entries : List (String × List α)) : List (String × α) :=
  entries.flatMap fun e => e.2.map fun value => (e.1, value)

theorem foldl_append_at_end (values found : List α) {front : List (String × List α)}
    (h : key ∉ keys front) :
    (values.map fun value => (key, value)).foldl (fun seen (key, value) => append key value seen)
        (front ++ [(key, found)]) = front ++ [(key, found ++ values)] := by
  induction values generalizing found with
  | nil => rw [List.append_nil]; rfl
  | cons value rest ih =>
    rw [List.map_cons, List.foldl_cons]
    dsimp only
    rw [append_at_end value found h, ih, List.append_assoc]
    rfl

theorem foldl_append_scatter (entries : List (String × List α)) (front : List (String × List α))
    (hn : (keys (front ++ entries)).Nodup) (hne : ∀ e ∈ entries, e.2 ≠ []) :
    (scatter entries).foldl (fun seen (key, value) => append key value seen) front =
      front ++ entries := by
  induction entries generalizing front with
  | nil => exact (List.append_nil front).symm
  | cons e rest ih =>
    obtain ⟨k, values⟩ := e
    rw [List.forall_mem_cons] at hne
    obtain ⟨value, values, rfl⟩ := List.exists_cons_of_ne_nil hne.1
    have hk : k ∉ keys front := by
      rw [keys, List.map_append, List.nodup_append] at hn
      exact fun hmem => hn.2.2 k hmem k List.mem_cons_self rfl
    have hsplit : front ++ (k, value :: values) :: rest = front ++ [(k, value :: values)] ++ rest :=
      (List.append_assoc front [(k, value :: values)] rest).symm
    have hscatter : scatter ((k, value :: values) :: rest) =
        (k, value) :: (values.map fun value => (k, value)) ++ scatter rest := rfl
    rw [hscatter, List.cons_append, List.foldl_cons]
    dsimp only
    rw [append_of_notMem value hk, List.foldl_append, foldl_append_at_end values [value] hk, hsplit]
    exact ih _ (hsplit ▸ hn) hne.2

/-- A map of lists that are not empty is what its own pairs are gathered to. -/
theorem gather_scatter {entries : List (String × List α)} (hn : (keys entries).Nodup)
    (hne : ∀ e ∈ entries, e.2 ≠ []) : gather (scatter entries) = entries :=
  foldl_append_scatter entries [] hn hne

/-! ## Entries of several maps in one -/

theorem ofPairs_concat (pairs : List (String × α)) (e : String × α) :
    ofPairs (pairs ++ [e]) = put e.1 e.2 (ofPairs pairs) :=
  List.foldl_append

/-- Keys stand where they stand when the values are gathered. -/
theorem keys_ofPairs (pairs : List (String × α)) : keys (ofPairs pairs) = keys (gather pairs) := by
  induction pairs using List.reverseRecOn with
  | nil => rfl
  | append_singleton pairs e ih => rw [ofPairs_concat, gather_concat, keys_put, keys_append, ih]

/-- Of several values the last one is found. -/
theorem lookup_ofPairs (key : String) (pairs : List (String × α)) :
    (ofPairs pairs).lookup key = pairs.reverse.lookup key := by
  induction pairs using List.reverseRecOn with
  | nil => rfl
  | append_singleton pairs e ih =>
    obtain ⟨k, v⟩ := e
    rw [ofPairs_concat, List.reverse_concat]
    by_cases hk : key = k
    · subst hk
      rw [lookup_put_self, lookup_cons_self]
    · rw [lookup_put_of_ne v _ hk, lookup_cons_of_ne _ hk, ih]

theorem lookup_reverse_eq_none_iff {entries : List (String × α)} :
    entries.reverse.lookup key = none ↔ key ∉ keys entries := by
  rw [lookup_eq_none_iff, keys, List.map_reverse, List.mem_reverse, keys]

theorem keys_flatten (maps : List (List (String × α))) :
    keys maps.flatten = maps.flatMap keys := by
  rw [keys, List.map_flatten, List.flatMap_def]
  rfl

/-- The last entry with a key in several lists is the last one in the last list that has any. -/
theorem lookup_reverse_flatten {value : α} {maps : List (List (String × α))} :
    maps.flatten.reverse.lookup key = some value ↔ ∃ front entries back,
      maps = front ++ entries :: back ∧ entries.reverse.lookup key = some value ∧
        ∀ later ∈ back, key ∉ keys later := by
  have hnone : ∀ rest : List (List (String × α)), rest.flatten.reverse.lookup key = none ↔
      ∀ later ∈ rest, key ∉ keys later := by
    intro rest
    rw [lookup_reverse_eq_none_iff, keys_flatten, List.mem_flatMap]
    simp
  induction maps with
  | nil => simp
  | cons first rest ih =>
    rw [List.flatten_cons, List.reverse_append, List.lookup_append, Option.or_eq_some_iff]
    constructor
    · rintro (hrest | ⟨hrest, hfirst⟩)
      · obtain ⟨front, entries, back, rfl, hfound⟩ := ih.mp hrest
        exact ⟨first :: front, entries, back, rfl, hfound⟩
      · exact ⟨[], first, rest, rfl, hfirst, (hnone rest).mp hrest⟩
    · rintro ⟨front, entries, back, hsplit, hfound, hlater⟩
      cases front with
      | nil =>
        cases hsplit
        exact .inr ⟨(hnone rest).mpr hlater, hfound⟩
      | cons _ front =>
        cases hsplit
        exact .inl (ih.mpr ⟨front, entries, back, rfl, hfound, hlater⟩)

/-- The entries of several maps in one: each key where it first appears, with its value in the last
map that has it. -/
structure United (maps : List (List (String × α))) (all : List (String × α)) : Prop where
  keys_iff : ∀ key, key ∈ keys all ↔ ∃ entries ∈ maps, key ∈ keys entries
  ordered : (keys all).Pairwise fun a b =>
    (maps.flatMap keys).idxOf a < (maps.flatMap keys).idxOf b
  latest : ∀ key value, (key, value) ∈ all ↔ ∃ front entries back,
    maps = front ++ entries :: back ∧ entries.reverse.lookup key = some value ∧
      ∀ later ∈ back, key ∉ keys later

theorem united_ofPairs (maps : List (List (String × α))) : United maps (ofPairs maps.flatten) where
  keys_iff key := by
    rw [keys_ofPairs, mem_keys_gather, keys_flatten, List.mem_flatMap]
  ordered := by
    rw [keys_ofPairs, ← keys_flatten]
    exact keys_gather_ordered _
  latest key value := by
    rw [← lookup_reverse_flatten, ← lookup_ofPairs]
    exact ⟨lookup_of_mem (nodup_ofPairs _), mem_of_lookup⟩

end JsonInspect.Entries
