import JsonInspect.Json.Entries
import Mathlib.Data.List.Nodup

/-! # Maps of entries

What `put` and the functions built on it do to a later lookup, to the keys and to the values.
`mapValues` commutes with all of them, since none looks at the values. -/

namespace JsonInspect.Entries

variable {α β : Type} {key k : String} {value v : α} {entries : List (String × α)}

theorem keys_cons (e : String × α) (rest : List (String × α)) :
    keys (e :: rest) = e.1 :: keys rest := rfl

/-! ## Looking up -/

theorem lookup_cons_self (rest : List (String × α)) :
    ((key, value) :: rest).lookup key = some value := by
  rw [List.lookup_cons, beq_self_eq_true]

theorem lookup_cons_of_ne (rest : List (String × α)) (h : k ≠ key) :
    ((key, value) :: rest).lookup k = rest.lookup k := by
  rw [List.lookup_cons, beq_false_of_ne h]

theorem mem_of_lookup (h : entries.lookup key = some value) : (key, value) ∈ entries := by
  induction entries with
  | nil => cases h
  | cons e rest ih =>
    obtain ⟨k, v⟩ := e
    by_cases hk : key = k
    · subst hk
      rw [lookup_cons_self] at h
      cases h
      exact List.mem_cons_self
    · rw [lookup_cons_of_ne rest hk] at h
      exact List.mem_cons_of_mem _ (ih h)

theorem mem_keys_of_mem (h : (key, value) ∈ entries) : key ∈ keys entries :=
  List.mem_map_of_mem h

theorem hasKey_iff : hasKey entries key = true ↔ key ∈ keys entries := by
  induction entries with
  | nil => simp [hasKey, keys]
  | cons e rest ih =>
    obtain ⟨k, v⟩ := e
    by_cases hk : key = k
    · subst hk
      simp [hasKey, keys]
    · rw [hasKey, lookup_cons_of_ne rest hk, ← hasKey, ih]
      simp [keys, hk]

theorem lookup_eq_none_iff : entries.lookup key = none ↔ key ∉ keys entries := by
  rw [← Option.not_isSome_iff_eq_none, ← hasKey, hasKey_iff]

/-- With distinct keys every entry is found. -/
theorem lookup_of_mem (hn : (keys entries).Nodup) (h : (key, value) ∈ entries) :
    entries.lookup key = some value := by
  induction entries with
  | nil => cases h
  | cons e rest ih =>
    obtain ⟨k, v⟩ := e
    obtain ⟨hk, hrest⟩ := List.nodup_cons.mp hn
    cases h with
    | head => exact lookup_cons_self rest
    | tail _ h =>
      have hne : key ≠ k := by
        intro he
        subst he
        exact hk (mem_keys_of_mem h)
      rw [lookup_cons_of_ne rest hne]
      exact ih hrest h

theorem getElem?_inj {i j : Nat} {e e' : String × α} (hn : (keys entries).Nodup)
    (hi : entries[i]? = some e) (hj : entries[j]? = some e') (hkey : e.1 = e'.1) : i = j := by
  have hlt : i < (keys entries).length := by
    rw [keys, List.length_map]
    exact (List.getElem?_eq_some_iff.mp hi).1
  refine (List.getElem?_inj hlt hn).mp ?_
  rw [keys, List.getElem?_map, List.getElem?_map, hi, hj]
  exact congrArg some hkey

/-- Leaving entries out by their keys leaves the others where lookup finds them. -/
theorem lookup_filter (p : String → Bool) (key : String) (entries : List (String × α)) :
    (entries.filter fun e => p e.1).lookup key = if p key then entries.lookup key else none := by
  induction entries with
  | nil => simp
  | cons e rest ih =>
    obtain ⟨k, v⟩ := e
    rw [List.filter_cons]
    dsimp only
    by_cases hk : key = k
    · subst hk
      by_cases hp : p key = true
      · rw [if_pos hp, if_pos hp, lookup_cons_self, lookup_cons_self]
      · rw [if_neg hp, ih, if_neg hp, if_neg hp]
    · rw [lookup_cons_of_ne rest hk, ← ih]
      by_cases hp : p k = true
      · rw [if_pos hp, lookup_cons_of_ne _ hk]
      · rw [if_neg hp]

/-- Lists made of the values of one key, of which there is at most one. -/
theorem flatMap_of_nodup (hn : (keys entries).Nodup) (key : String) (f : α → List β) :
    (entries.flatMap fun e => if e.1 = key then f e.2 else []) =
      ((entries.lookup key).map f).getD [] := by
  induction entries with
  | nil => rfl
  | cons e rest ih =>
    obtain ⟨k, v⟩ := e
    obtain ⟨hk, hrest⟩ := List.nodup_cons.mp hn
    rw [List.flatMap_cons, ih hrest]
    by_cases hkey : k = key
    · subst hkey
      rw [if_pos rfl, lookup_eq_none_iff.mpr hk, lookup_cons_self]
      exact List.append_nil _
    · rw [if_neg hkey, lookup_cons_of_ne rest (Ne.symm hkey), List.nil_append]

/-! ## Putting -/

theorem lookup_put_self (key : String) (value : α) (entries : List (String × α)) :
    (put key value entries).lookup key = some value := by
  induction entries with
  | nil => exact lookup_cons_self []
  | cons e rest ih =>
    obtain ⟨k, v⟩ := e
    by_cases hk : k = key
    · rw [put, if_pos hk, hk]
      exact lookup_cons_self rest
    · rw [put, if_neg hk, lookup_cons_of_ne _ (Ne.symm hk)]
      exact ih

theorem lookup_put_of_ne (value : α) (entries : List (String × α)) (h : k ≠ key) :
    (put key value entries).lookup k = entries.lookup k := by
  induction entries with
  | nil => exact lookup_cons_of_ne [] h
  | cons e rest ih =>
    obtain ⟨k', v⟩ := e
    by_cases hk : k' = key
    · rw [put, if_pos hk, hk, lookup_cons_of_ne rest h, lookup_cons_of_ne rest h]
    · rw [put, if_neg hk, List.lookup_cons, List.lookup_cons, ih]

theorem mem_put {e : String × α} (h : e ∈ put key value entries) :
    e = (key, value) ∨ e ∈ entries := by
  induction entries with
  | nil => exact .inl (List.mem_singleton.mp h)
  | cons e' rest ih =>
    obtain ⟨k, v⟩ := e'
    by_cases hk : k = key
    · rw [put, if_pos hk] at h
      rcases List.mem_cons.mp h with rfl | h
      · rw [hk]
        exact .inl rfl
      · exact .inr (List.mem_cons_of_mem _ h)
    · rw [put, if_neg hk] at h
      rcases List.mem_cons.mp h with rfl | h
      · exact .inr List.mem_cons_self
      · exact (ih h).imp id (List.mem_cons_of_mem _)

/-- A key that is there keeps its place; a new one goes to the end. -/
theorem keys_put (key : String) (value : α) (entries : List (String × α)) :
    keys (put key value entries) =
      if key ∈ keys entries then keys entries else keys entries ++ [key] := by
  induction entries with
  | nil => simp [put, keys]
  | cons e rest ih =>
    obtain ⟨k, v⟩ := e
    by_cases hk : k = key
    · subst hk
      simp [put, keys]
    · have hmem : key ∈ keys ((k, v) :: rest) ↔ key ∈ keys rest := by
        rw [keys_cons, List.mem_cons]
        exact or_iff_right (Ne.symm hk)
      rw [put, if_neg hk, keys_cons, ih]
      simp only [hmem]
      split <;> rfl

theorem put_of_not_mem (value : α) (h : key ∉ keys entries) :
    put key value entries = entries ++ [(key, value)] := by
  induction entries with
  | nil => rfl
  | cons e rest ih =>
    obtain ⟨k, v⟩ := e
    rw [keys_cons, List.mem_cons, not_or] at h
    rw [put, if_neg (Ne.symm h.1), ih h.2]
    rfl

/-- Leaving entries out by their keys leaves out what is put under such a key. -/
theorem filter_put (p : String → Bool) (key : String) (value : α) (entries : List (String × α)) :
    (put key value entries).filter (fun e => p e.1) =
      if p key then put key value (entries.filter fun e => p e.1)
      else entries.filter fun e => p e.1 := by
  induction entries with
  | nil => cases h : p key <;> simp [put, h]
  | cons e rest ih =>
    obtain ⟨k, v⟩ := e
    by_cases hk : k = key
    · subst hk
      cases h : p k <;> simp [put, h]
    · rw [put, if_neg hk, List.filter_cons, ih, List.filter_cons]
      cases p key <;> cases p k <;> simp [put, hk]

theorem nodup_put (key : String) (value : α) (h : (keys entries).Nodup) :
    (keys (put key value entries)).Nodup := by
  rw [keys_put]
  split
  · exact h
  · rename_i hk
    exact List.nodup_append.mpr
      ⟨h, List.nodup_singleton _, fun a ha b hb => by
        rw [List.mem_singleton.mp hb]
        intro he
        exact hk (he ▸ ha)⟩

/-! ## Building from pairs -/

theorem foldl_put_of_nodup (pairs front : List (String × α))
    (h : (keys (front ++ pairs)).Nodup) :
    pairs.foldl (fun entries (k, v) => put k v entries) front = front ++ pairs := by
  induction pairs generalizing front with
  | nil => exact (List.append_nil front).symm
  | cons e rest ih =>
    obtain ⟨k, v⟩ := e
    have hk : k ∉ keys front := by
      intro hmem
      rw [keys, List.map_append, List.nodup_append] at h
      exact h.2.2 k hmem k List.mem_cons_self rfl
    have happ : front ++ (k, v) :: rest = front ++ [(k, v)] ++ rest :=
      (List.append_assoc front [(k, v)] rest).symm
    rw [List.foldl_cons, happ, ← ih _ (happ ▸ h), ← put_of_not_mem v hk]

/-- Distinct keys make a map as they stand. -/
theorem ofPairs_of_nodup (h : (keys entries).Nodup) : ofPairs entries = entries :=
  foldl_put_of_nodup entries [] h

/-- What holds of the empty map and is kept by `put` holds of the map of any pairs. -/
theorem ofPairs_induction {P : List (String × α) → Prop} (pairs : List (String × α))
    (nil : P []) (put : ∀ entries k v, (k, v) ∈ pairs → P entries → P (put k v entries)) :
    P (ofPairs pairs) :=
  List.foldlRecOn pairs _ nil fun entries h e he => put entries e.1 e.2 he h

theorem nodup_ofPairs (pairs : List (String × α)) : (keys (ofPairs pairs)).Nodup :=
  ofPairs_induction (P := fun entries => (keys entries).Nodup) pairs List.nodup_nil
    fun _ k v _ h => nodup_put k v h

theorem mem_of_mem_ofPairs (pairs : List (String × α)) :
    ∀ e ∈ ofPairs pairs, e ∈ pairs :=
  ofPairs_induction (P := fun entries => ∀ e ∈ entries, e ∈ pairs) pairs
    (fun _ h => nomatch h) fun entries k v hkv h e he => by
      rcases mem_put he with rfl | he
      · exact hkv
      · exact h e he

/-! ## Gathering the values of each key -/

/-- The values of each key in order, under the keys in the order of their first values. -/
def gather (pairs : List (String × α)) : List (String × List α) :=
  pairs.foldl (fun seen (key, value) => append key value seen) []

def valuesOf (key : String) (pairs : List (String × α)) : List α :=
  (pairs.filter (·.1 = key)).map Prod.snd

theorem mem_valuesOf {pairs : List (String × α)} :
    value ∈ valuesOf key pairs ↔ (key, value) ∈ pairs := by
  simp [valuesOf]

theorem length_valuesOf (key : String) (pairs : List (String × α)) :
    (valuesOf key pairs).length = (keys pairs).count key := by
  rw [valuesOf, List.length_map, ← List.countP_eq_length_filter, keys, List.count_eq_countP,
    List.countP_map]
  exact List.countP_congr fun e _ => by simp

theorem lookup_append_self (key : String) (value : α) (entries : List (String × List α)) :
    (append key value entries).lookup key = some ((entries.lookup key).getD [] ++ [value]) :=
  lookup_put_self key _ entries

theorem lookup_append_of_ne (value : α) (entries : List (String × List α)) (h : k ≠ key) :
    (append key value entries).lookup k = entries.lookup k :=
  lookup_put_of_ne _ entries h

theorem lookup_foldl_append (key : String) (pairs : List (String × α))
    (front : List (String × List α)) :
    (pairs.foldl (fun seen (key, value) => append key value seen) front).lookup key =
      if valuesOf key pairs = [] then front.lookup key
      else some ((front.lookup key).getD [] ++ valuesOf key pairs) := by
  induction pairs generalizing front with
  | nil => rfl
  | cons e rest ih =>
    obtain ⟨k, v⟩ := e
    rw [List.foldl_cons, ih]
    by_cases hk : k = key
    · subst hk
      have hcons : valuesOf k ((k, v) :: rest) = v :: valuesOf k rest := by simp [valuesOf]
      rw [lookup_append_self, hcons, if_neg (List.cons_ne_nil _ _)]
      split
      · rename_i hnil
        rw [hnil]
      · rw [Option.getD_some, List.append_assoc]
        rfl
    · have hcons : valuesOf key ((k, v) :: rest) = valuesOf key rest := by simp [valuesOf, hk]
      rw [lookup_append_of_ne v front (Ne.symm hk), hcons]

/-- A key is found with all its values. -/
theorem lookup_gather (key : String) (pairs : List (String × α)) :
    (gather pairs).lookup key =
      if valuesOf key pairs = [] then none else some (valuesOf key pairs) :=
  lookup_foldl_append key pairs []

theorem nodup_gather (pairs : List (String × α)) : (keys (gather pairs)).Nodup :=
  List.foldlRecOn (motive := fun seen => (keys seen).Nodup) pairs _ List.nodup_nil
    fun _ h e _ => nodup_put e.1 _ h

theorem mem_gather {pairs : List (String × α)} {values : List α}
    (h : (key, values) ∈ gather pairs) : values = valuesOf key pairs ∧ values ≠ [] := by
  have hfound := lookup_of_mem (nodup_gather pairs) h
  rw [lookup_gather] at hfound
  split at hfound
  · cases hfound
  · rename_i hne
    rw [← Option.some.inj hfound]
    exact ⟨rfl, hne⟩

/-! ## Changing every value -/

def mapValues (f : α → β) (entries : List (String × α)) : List (String × β) :=
  entries.map fun e => (e.1, f e.2)

@[simp] theorem mapValues_nil (f : α → β) : mapValues f [] = [] := rfl

@[simp] theorem mapValues_cons (f : α → β) (e : String × α) (rest : List (String × α)) :
    mapValues f (e :: rest) = (e.1, f e.2) :: mapValues f rest := rfl

theorem mapValues_flatMap {γ : Type} (f : α → β) (parts : γ → List (String × α)) (l : List γ) :
    mapValues f (l.flatMap parts) = l.flatMap fun c => mapValues f (parts c) :=
  List.map_flatMap

@[simp] theorem keys_mapValues (f : α → β) (entries : List (String × α)) :
    keys (mapValues f entries) = keys entries := by
  simp [keys, mapValues]

theorem lookup_mapValues (f : α → β) (key : String) (entries : List (String × α)) :
    (mapValues f entries).lookup key = (entries.lookup key).map f := by
  induction entries with
  | nil => rfl
  | cons e rest ih =>
    obtain ⟨k, v⟩ := e
    by_cases hk : key = k
    · subst hk
      rw [mapValues_cons, lookup_cons_self, lookup_cons_self]
      rfl
    · rw [mapValues_cons, lookup_cons_of_ne _ hk, lookup_cons_of_ne _ hk, ih]

theorem hasKey_mapValues (f : α → β) (key : String) (entries : List (String × α)) :
    hasKey (mapValues f entries) key = hasKey entries key := by
  rw [hasKey, hasKey, lookup_mapValues, Option.isSome_map]

theorem put_mapValues (f : α → β) (key : String) (value : α) (entries : List (String × α)) :
    put key (f value) (mapValues f entries) = mapValues f (put key value entries) := by
  induction entries with
  | nil => rfl
  | cons e rest ih =>
    obtain ⟨k, v⟩ := e
    rw [mapValues_cons, put, put]
    split
    · rfl
    · rw [ih]
      rfl

theorem renameKey_mapValues (f : α → β) (old new : String) (entries : List (String × α)) :
    renameKey old new (mapValues f entries) = mapValues f (renameKey old new entries) := by
  simp [renameKey, mapValues]

theorem ofPairs_mapValues (f : α → β) (pairs : List (String × α)) :
    ofPairs (mapValues f pairs) = mapValues f (ofPairs pairs) := by
  have h : ∀ front : List (String × α),
      (mapValues f pairs).foldl (fun entries (k, v) => put k v entries) (mapValues f front) =
        mapValues f (pairs.foldl (fun entries (k, v) => put k v entries) front) := by
    induction pairs with
    | nil =>
      intro front
      rfl
    | cons e rest ih =>
      intro front
      rw [mapValues_cons, List.foldl_cons, List.foldl_cons, ← ih, ← put_mapValues]
  exact h []

theorem append_mapValues (f : α → β) (key : String) (value : α)
    (entries : List (String × List α)) :
    append key (f value) (mapValues (List.map f) entries) =
      mapValues (List.map f) (append key value entries) := by
  have h : ((mapValues (List.map f) entries).lookup key).getD [] ++ [f value] =
      (((entries.lookup key).getD []) ++ [value]).map f := by
    rw [lookup_mapValues]
    cases entries.lookup key <;> simp
  rw [append, append, h, put_mapValues]

theorem gather_mapValues (f : α → β) (pairs : List (String × α)) :
    gather (mapValues f pairs) = mapValues (List.map f) (gather pairs) := by
  have h : ∀ front : List (String × List α),
      (mapValues f pairs).foldl (fun seen (key, value) => append key value seen)
          (mapValues (List.map f) front) =
        mapValues (List.map f)
          (pairs.foldl (fun seen (key, value) => append key value seen) front) := by
    induction pairs with
    | nil =>
      intro front
      rfl
    | cons e rest ih =>
      intro front
      rw [mapValues_cons, List.foldl_cons, List.foldl_cons, ← ih, ← append_mapValues]
  exact h []

/-! ## Keys with several values -/

/-- The keys that pairs give more than one value, each with all its values. -/
def repeated (pairs : List (String × α)) : List (String × List α) :=
  (gather pairs).filter fun e => 1 < e.2.length

theorem mem_repeated {pairs : List (String × α)} {values : List α} :
    (key, values) ∈ repeated pairs ↔ values = valuesOf key pairs ∧ 1 < values.length := by
  rw [repeated, List.mem_filter, decide_eq_true_eq]
  refine and_congr_left fun hlong => ⟨fun h => (mem_gather h).1, ?_⟩
  rintro rfl
  refine mem_of_lookup ?_
  rw [lookup_gather, if_neg (List.ne_nil_of_length_pos (Nat.zero_lt_of_lt hlong))]

theorem mem_keys_repeated {pairs : List (String × α)} :
    key ∈ keys (repeated pairs) ↔ 1 < (valuesOf key pairs).length := by
  constructor
  · intro h
    obtain ⟨⟨k, values⟩, hmem, rfl⟩ := List.mem_map.mp h
    obtain ⟨hvalues, hlong⟩ := mem_repeated.mp hmem
    rwa [← hvalues]
  · intro h
    exact mem_keys_of_mem (mem_repeated.mpr ⟨rfl, h⟩)

theorem keys_repeated_sublist (pairs : List (String × α)) :
    (keys (repeated pairs)).Sublist (keys (gather pairs)) :=
  List.filter_sublist.map Prod.fst

theorem nodup_repeated (pairs : List (String × α)) : (keys (repeated pairs)).Nodup :=
  (nodup_gather pairs).sublist (keys_repeated_sublist pairs)

theorem repeated_mapValues (f : α → β) (pairs : List (String × α)) :
    repeated (mapValues f pairs) = mapValues (List.map f) (repeated pairs) := by
  rw [repeated, gather_mapValues, repeated, mapValues, mapValues, List.filter_map]
  simp only [Function.comp_def, List.length_map]

end JsonInspect.Entries
