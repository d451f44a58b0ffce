import JsonInspect.Proofs.Engine.WellFormed
import JsonInspect.Query

/-! # Searching and grouping after a key was renamed

A renamed record holds under the new key what it held under the old one
(`resolve_renamedRecord`), so whatever looks at records through that key alone sees no
difference: searches keep the images of the records they kept, and groups gather the images of
the records they gathered. -/

namespace JsonInspect

/-- The path beside `p` that ends in `key`. -/
def Path.beside (p : Path) (key : String) : Path := ⟨p.segments.dropLast ++ [key]⟩

def Groups.sizes (g : Groups) : List (String × Nat) := Entries.mapValues List.length g.buckets

/-! ## Keys and paths -/

namespace Entries

variable {α : Type} {old new : String} {entries : List (String × α)}

theorem renameKey_cons (old new : String) (e : String × α) (rest : List (String × α)) :
    renameKey old new (e :: rest) =
      (if e.1 = old then new else e.1, e.2) :: renameKey old new rest := rfl

theorem renameKey_self (key : String) (entries : List (String × α)) :
    renameKey key key entries = entries := by
  refine (List.map_congr_left fun e _ => ?_).trans (List.map_id entries)
  dsimp only
  split
  · rename_i h
    exact Prod.ext h.symm rfl
  · rfl

theorem renameKey_of_not_hasKey (h : hasKey entries old = false) :
    renameKey old new entries = entries := by
  refine (List.map_congr_left fun e he => ?_).trans (List.map_id entries)
  have hne : e.1 ≠ old := by
    rintro rfl
    rw [hasKey_iff.mpr (mem_keys_of_mem he)] at h
    cases h
  dsimp only
  rw [if_neg hne]
  rfl

/-- What was under the old key is under the new one. -/
theorem lookup_renameKey (h : hasKey entries new = false) :
    (renameKey old new entries).lookup new = entries.lookup old := by
  induction entries with
  | nil => rfl
  | cons e rest ih =>
    obtain ⟨k, v⟩ := e
    have hne : new ≠ k := by
      rintro rfl
      rw [hasKey, lookup_cons_self] at h
      cases h
    rw [hasKey, lookup_cons_of_ne rest hne] at h
    by_cases hk : k = old
    · subst hk
      rw [lookup_cons_self, renameKey_cons, if_pos rfl, lookup_cons_self]
    · rw [lookup_cons_of_ne rest (Ne.symm hk), ← ih h, renameKey_cons, if_neg hk,
        lookup_cons_of_ne _ hne]

end Entries

namespace Json

variable {change : Json → Option Json} {keys : List String} {path : Path} {key : String}
  {v v' u u' : Json}

theorem walk_append (keys keys' : List String) (v : Json) :
    walk (keys ++ keys') v = (walk keys v).bind (walk keys') := by
  induction keys generalizing v with
  | nil => rfl
  | cons key rest ih =>
    cases v with
    | obj entries =>
      rw [List.cons_append, walk, walk]
      cases entries.lookup key with
      | none => rfl
      | some child => exact ih child
    | _ => rfl

/-- A value that can be reached and changed is replaced by the changed one. -/
theorem walk_updateAt (change : Json → Option Json) (hwalk : walk keys v = some u)
    (hchange : change u = some u') :
    ∃ v', updateAt change keys v = some v' ∧ walk keys v' = some u' := by
  induction keys generalizing v with
  | nil =>
    cases hwalk
    exact ⟨u', hchange, rfl⟩
  | cons key rest ih =>
    cases v with
    | obj entries =>
      cases hc : entries.lookup key with
      | none =>
        rw [walk, hc] at hwalk
        cases hwalk
      | some child =>
        rw [walk, hc] at hwalk
        obtain ⟨child', hupdate, hwalk'⟩ := ih hwalk
        refine ⟨obj (Entries.put key child' entries), ?_, ?_⟩
        · rw [updateAt, hc]
          exact congrArg (Option.map _) hupdate
        · rw [walk, Entries.lookup_put_self]
          exact hwalk'
    | _ => cases hwalk

theorem isArray_updateAt (hchange : ∀ u u', change u = some u' → u'.isArray = false)
    (h : updateAt change keys v = some v') : v'.isArray = false := by
  cases keys with
  | nil => exact hchange v v' h
  | cons key rest =>
    cases v with
    | obj entries =>
      rw [updateAt] at h
      split at h
      · obtain ⟨child', -, rfl⟩ := Option.map_eq_some_iff.mp h
        rfl
      · cases h
    | _ => cases h

theorem isArray_updateParent {change : List (String × Json) → List (String × Json)}
    (h : updateParent change path v = some v') : v'.isArray = false := by
  unfold updateParent at h
  split at h
  · cases h
  · refine isArray_updateAt (fun u u' hu => ?_) h
    cases u with
    | obj entries =>
      cases hu
      rfl
    | _ => cases hu

theorem isEmpty_of_last? (h : path.last? = some key) : path.isEmpty = false := by
  cases hs : path.segments with
  | nil =>
    rw [Path.last?, hs] at h
    cases h
  | cons first rest => rw [Path.isEmpty, hs, List.isEmpty_cons]

theorem last?_beside (path : Path) (key : String) : (path.beside key).last? = some key := by
  rw [Path.last?, Path.beside, List.getLast?_concat]

theorem parentOf_beside (h : path.isEmpty = false) (key : String) (v : Json) :
    v.parentOf (path.beside key) = v.parentOf path := by
  rw [parentOf, parentOf, isEmpty_of_last? (last?_beside path key), h, Path.beside,
    List.dropLast_concat]

/-- A path reaches what its last key leads to from the object that is to hold it. -/
theorem resolve_eq_parentOf (h : path.last? = some key) (v : Json) :
    v.resolve path = (v.parentOf path).bind (walk [key]) := by
  obtain ⟨keys, hkeys⟩ := List.getLast?_eq_some_iff.mp h
  rw [resolve, parentOf, isEmpty_of_last? h, if_neg Bool.false_ne_true, if_neg Bool.false_ne_true,
    hkeys, List.dropLast_concat, walk_append]
  cases hw : walk keys v with
  | none => rfl
  | some u => cases u <;> rfl

theorem parentOf_updateParent (change : List (String × Json) → List (String × Json))
    {entries : List (String × Json)} (h : v.parentOf path = some (obj entries)) :
    ∃ v', updateParent change path v = some v' ∧
      v'.parentOf path = some (obj (change entries)) := by
  unfold parentOf at h
  split at h
  · cases h
  · rename_i hpath
    obtain ⟨hwalk, -⟩ := Option.filter_eq_some_iff.mp h
    have hset : ∀ f : Json → Option Json, f (obj entries) = some (obj (change entries)) →
        ∃ v', updateAt f path.segments.dropLast v = some v' ∧
          v'.parentOf path = some (obj (change entries)) := by
      intro f hf
      obtain ⟨v', hupdate, hwalk'⟩ := walk_updateAt f hwalk hf
      refine ⟨v', hupdate, ?_⟩
      rw [parentOf, if_neg hpath, hwalk']
      rfl
    simp only [updateParent, if_neg hpath]
    exact hset _ rfl

end Json

/-! ## Renamed records -/

section

variable {path old new : Path} {oldKey newKey : String} {record v : Json} {found : Bool}
  {root : Json} {renamed : Renamed}

def Json.withKeyRenamed (old new : String) : Json → Json
  | .obj entries => .obj (Entries.renameKey old new entries)
  | v => v

/-- What renaming makes of a record. One that is refused stays as it is. -/
def renamedRecord (path : Path) (new : String) (record : Json) : Json :=
  match renameRecord path new record with
  | .ok (v, _) => v
  | .error _ => record

theorem renamedRecord_of_ok (h : renameRecord path newKey record = .ok (v, found)) :
    renamedRecord path newKey record = v := by
  rw [renamedRecord, h]

/-- A record that is not refused stays as it is, and then its entries would do so too, or it has the
entries of one object renamed. -/
theorem renameRecord_cases (hlast : path.last? = some oldKey)
    (h : renameRecord path newKey record = .ok (v, found)) :
    (v = record ∧ ∀ entries, record.parentOf path = some (.obj entries) →
        Entries.renameKey oldKey newKey entries = entries) ∨
      ∃ entries, record.parentOf path = some (.obj entries) ∧
        record.updateParent (Entries.renameKey oldKey newKey) path = some v := by
  unfold renameRecord at h
  split at h
  case h_1 old entries hold hparent =>
    rw [hlast] at hold
    cases hold
    rw [hparent]
    split at h
    · rename_i habsent
      cases h
      refine .inl ⟨rfl, fun _ he => ?_⟩
      cases he
      exact Entries.renameKey_of_not_hasKey (by simpa using habsent)
    · split at h
      · rename_i hsame
        cases h
        exact .inl ⟨rfl, fun _ _ => hsame ▸ Entries.renameKey_self oldKey _⟩
      · split at h
        · cases h
        · obtain ⟨v', hupdate, -⟩ :=
            Json.parentOf_updateParent (Entries.renameKey oldKey newKey) hparent
          rw [hupdate] at h
          cases h
          exact .inr ⟨entries, rfl, hupdate⟩
  case h_2 hnone =>
    cases h
    exact .inl ⟨rfl, fun entries he => absurd he (hnone oldKey entries hlast)⟩

/-- Renaming changes the entries of the object that holds the old key and nothing else there. -/
theorem parentOf_renameRecord (hlast : path.last? = some oldKey)
    (h : renameRecord path newKey record = .ok (v, found)) :
    v.parentOf path = (record.parentOf path).map (Json.withKeyRenamed oldKey newKey) := by
  rcases renameRecord_cases hlast h with ⟨rfl, hsame⟩ | ⟨entries, hparent, hupdate⟩
  · cases hparent : v.parentOf path with
    | none => rfl
    | some parent =>
      cases parent with
      | obj entries => rw [Option.map_some, Json.withKeyRenamed, hsame entries hparent]
      | _ => rfl
  · obtain ⟨v', hupdate', hparent'⟩ :=
      Json.parentOf_updateParent (Entries.renameKey oldKey newKey) hparent
    obtain rfl : v = v' := Option.some.inj (hupdate.symm.trans hupdate')
    rw [hparent', hparent]
    rfl

theorem isArray_renameRecord (hlast : path.last? = some oldKey) (hrecord : record.isArray = false)
    (h : renameRecord path newKey record = .ok (v, found)) : v.isArray = false := by
  rcases renameRecord_cases hlast h with ⟨rfl, -⟩ | ⟨entries, -, hupdate⟩
  · exact hrecord
  · exact Json.isArray_updateParent hupdate

/-- The new key leads where the old key led. -/
theorem resolve_renamedRecord (hlast : path.last? = some oldKey)
    (h : renameRecord path newKey record = .ok (v, found))
    (hfree : ∀ entries, record.parentOf path = some (.obj entries) →
      Entries.hasKey entries newKey = false) :
    v.resolve (path.beside newKey) = record.resolve path := by
  rw [Json.resolve_eq_parentOf (Json.last?_beside path newKey),
    Json.parentOf_beside (Json.isEmpty_of_last? hlast), parentOf_renameRecord hlast h,
    Json.resolve_eq_parentOf hlast]
  cases hparent : record.parentOf path with
  | none => rfl
  | some parent =>
    cases parent with
    | obj entries =>
      rw [Option.map_some, Option.bind_some, Option.bind_some, Json.withKeyRenamed, Json.walk,
        Json.walk, Entries.lookup_renameKey (hfree entries hparent)]
    | _ => rfl

theorem renamedRecords {items : List Json} {results : List (Json × Bool)}
    (h : items.mapM (renameRecord path newKey) = .ok results) :
    results.map Prod.fst = items.map (renamedRecord path newKey) ∧
      ∀ item ∈ items, ∃ found,
        renameRecord path newKey item = .ok (renamedRecord path newKey item, found) := by
  rw [mapM_eq_ok_iff] at h
  induction h with
  | nil => exact ⟨rfl, fun _ hitem => nomatch hitem⟩
  | @cons item result rest results' hitem _ ih =>
    obtain ⟨v, found⟩ := result
    rw [List.map_cons, List.map_cons, ih.1, List.forall_mem_cons, renamedRecord_of_ok hitem]
    exact ⟨rfl, ⟨found, hitem⟩, ih.2⟩

/-- The results are the records of the document that they are put into. -/
theorem records_withRecords {results : List (Json × Bool)} (hlast : path.last? = some oldKey)
    (h : root.records.mapM (renameRecord path newKey) = .ok results) :
    (root.withRecords (results.map Prod.fst)).isArray = root.isArray ∧
      (root.withRecords (results.map Prod.fst)).records = results.map Prod.fst := by
  cases hroot : root.isArray with
  | true =>
    cases root with
    | arr items => exact ⟨rfl, rfl⟩
    | _ => cases hroot
  | false =>
    rw [Json.records_of_isArray hroot, mapM_eq_ok_iff] at h
    obtain ⟨result, _, hresult, hnil, rfl⟩ := List.forall₂_cons_left_iff.mp h
    cases hnil
    have hvalue : result.1.isArray = false := isArray_renameRecord hlast hroot hresult
    rw [List.map_singleton, Json.withRecords_of_isArray hroot]
    exact ⟨hvalue, Json.records_of_isArray hvalue⟩

theorem last?_of_renameKey (h : renameKey old new root = .ok renamed) :
    ∃ oldKey, old.last? = some oldKey := by
  obtain ⟨oldKey, _, _, hold, -⟩ := exists_of_renameKey h
  exact ⟨oldKey, hold⟩

/-- A renamed document is made of the images of its records, none of which is refused. -/
theorem records_renameKey (hnew : new.last? = some newKey)
    (h : renameKey old new root = .ok renamed) :
    renamed.value.isArray = root.isArray ∧
      renamed.value.records = root.records.map (renamedRecord old newKey) ∧
      ∀ record ∈ root.records, ∃ found,
        renameRecord old newKey record = .ok (renamedRecord old newKey record, found) := by
  obtain ⟨oldKey, newKey', results, hold, hnew', -, -, hresults, rfl⟩ := exists_of_renameKey h
  obtain rfl : newKey = newKey' := Option.some.inj (hnew.symm.trans hnew')
  obtain ⟨hshape, hrecords⟩ := records_withRecords hold hresults
  obtain ⟨himages, hall⟩ := renamedRecords hresults
  exact ⟨hshape, hrecords.trans himages, hall⟩

end

/-! ## Searches and groups -/

theorem records_queryByPredicate (m : Matching) (p : Predicate) (root : Json) :
    (queryByPredicate m p root).records =
      root.records.filter fun record =>
        (record.resolve p.key).any (evaluate m p.operator p.operand) := by
  refine List.filter_congr fun record _ => ?_
  cases record.resolve p.key <;> rfl

theorem records_queryByValue (m : Matching) (key : Path) (value : String) (root : Json) :
    (queryByValue m key value root).records =
      root.records.filter fun record => (record.resolve key).any (valueMatches m value) := by
  refine List.filter_congr fun record _ => ?_
  cases record.resolve key <;> rfl

theorem valueMatches_blank (m : Matching) (field : Json) : valueMatches m "" field = true := rfl

/-- With nothing typed a search keeps the records that have the key. -/
theorem records_queryByValue_blank (m : Matching) (key : Path) (root : Json) :
    (queryByValue m key "" root).records =
      root.records.filter fun record => (record.resolve key).isSome := by
  rw [records_queryByValue]
  refine List.filter_congr fun record _ => ?_
  cases record.resolve key with
  | none => rfl
  | some field => exact valueMatches_blank m field

/-- The second document is made of images of the records of the first, and what `old` leads to in
a record, `new` leads to in its image. -/
structure Mirrors (image : Json → Json) (old new : Path) (root root' : Json) : Prop where
  isArray_eq : root'.isArray = root.isArray
  records_eq : root'.records = root.records.map image
  resolve_eq : ∀ record ∈ root.records, (image record).resolve new = record.resolve old

namespace Mirrors

variable {image : Json → Json} {old new : Path} {root root' : Json}

theorem filter_records (h : Mirrors image old new root root') (keeps : Option Json → Bool) :
    (root'.records.filter fun record => keeps (record.resolve new)) =
      (root.records.filter fun record => keeps (record.resolve old)).map image := by
  rw [h.records_eq, List.filter_map]
  refine congrArg (List.map image) (List.filter_congr fun record hrecord => ?_)
  rw [Function.comp_apply, h.resolve_eq record hrecord]

/-- Each group gathers the images of what it gathered. -/
theorem groupBy_buckets (h : Mirrors image old new root root') {items : List Json}
    (hroot : root = .arr items) :
    ∃ groups groups', groupBy old root = .ok groups ∧ groupBy new root' = .ok groups' ∧
      groups'.buckets = Entries.mapValues (List.map image) groups.buckets := by
  subst hroot
  obtain ⟨items', rfl⟩ : ∃ items', root' = .arr items' := by
    cases root' with
    | arr items' => exact ⟨items', rfl⟩
    | _ => cases h.isArray_eq
  obtain rfl : items' = items.map image := h.records_eq
  refine ⟨_, _, groupBy_arr old items, groupBy_arr new (items.map image), ?_⟩
  rw [← Entries.gather_mapValues, Entries.mapValues, List.map_map, List.map_map]
  refine congrArg Entries.gather (List.map_congr_left fun item hitem => ?_)
  simp only [Function.comp_apply, Groups.bucketOf, h.resolve_eq item hitem]

end Mirrors

/-- Searches and groups by `old` in one document and by `new` in the other differ by the images of
the records alone. -/
structure SeenAlike (image : Json → Json) (old new : Path) (root root' : Json) : Prop where
  predicate : ∀ (m : Matching) (op : Operator) (operand : String),
    (queryByPredicate m ⟨new, op, operand⟩ root').records =
      (queryByPredicate m ⟨old, op, operand⟩ root).records.map image
  value : ∀ (m : Matching) (value : String),
    (queryByValue m new value root').records = (queryByValue m old value root).records.map image
  groups : ∀ items, root = .arr items → ∃ groups groups',
    groupBy old root = .ok groups ∧ groupBy new root' = .ok groups' ∧
      groups'.buckets = Entries.mapValues (List.map image) groups.buckets ∧
      groups'.sizes = groups.sizes

theorem Groups.sizes_eq {image : Json → Json} {g g' : Groups}
    (h : g'.buckets = Entries.mapValues (List.map image) g.buckets) : g'.sizes = g.sizes := by
  simp [Groups.sizes, h, Entries.mapValues]

theorem Mirrors.seenAlike {image : Json → Json} {old new : Path} {root root' : Json}
    (h : Mirrors image old new root root') : SeenAlike image old new root root' where
  predicate m op operand := by
    rw [records_queryByPredicate, records_queryByPredicate]
    exact h.filter_records (Option.any (evaluate m op operand))
  value m value := by
    rw [records_queryByValue, records_queryByValue]
    exact h.filter_records (Option.any (valueMatches m value))
  groups items hroot := by
    obtain ⟨groups, groups', hold, hnew, hbuckets⟩ := h.groupBy_buckets hroot
    exact ⟨groups, groups', hold, hnew, hbuckets, Groups.sizes_eq hbuckets⟩

/-- A document whose renaming succeeds, and whose records did not hold the new key where the old
one is, is searched and grouped by the new key as it was by the old one. -/
theorem renamed_seenAlike (old new : Path) (newKey : String) (root : Json) (renamed : Renamed)
    (hnew : new.last? = some newKey) (h : renameKey old new root = .ok renamed)
    (hfree : ∀ record ∈ root.records, ∀ entries, record.parentOf old = some (.obj entries) →
      Entries.hasKey entries newKey = false) :
    renamed.value.records = root.records.map (renamedRecord old newKey) ∧
      (∀ record ∈ root.records, ∃ found,
        renameRecord old newKey record = .ok (renamedRecord old newKey record, found)) ∧
      SeenAlike (renamedRecord old newKey) old (old.beside newKey) root renamed.value := by
  obtain ⟨oldKey, hold⟩ := last?_of_renameKey h
  obtain ⟨harray, hrecords, hall⟩ := records_renameKey hnew h
  refine ⟨hrecords, hall, Mirrors.seenAlike ⟨harray, hrecords, fun record hrecord => ?_⟩⟩
  obtain ⟨found, hfound⟩ := hall record hrecord
  exact resolve_renamedRecord hold hfound (hfree record hrecord)

/-- Records with a key inside an inner object, which is missing, null or no object in some. -/
def nestedNames : Json :=
  .arr [.obj [("user", .obj [("name", .str "Ann"), ("id", .num (.int 1))])],
    .obj [("user", .obj [("id", .num (.int 2))])],
    .obj [("user", .obj [("name", .null)])], .obj [("user", .null)], .num (.int 5),
    .obj [("name", .str "Ann"), ("user", .obj [("id", .num (.int 3)), ("name", .str "ann")])]]

def nestedNicks : Json :=
  .arr [.obj [("user", .obj [("nick", .str "Ann"), ("id", .num (.int 1))])],
    .obj [("user", .obj [("id", .num (.int 2))])],
    .obj [("user", .obj [("nick", .null)])], .obj [("user", .null)], .num (.int 5),
    .obj [("name", .str "Ann"), ("user", .obj [("id", .num (.int 3)), ("nick", .str "ann")])]]

theorem nestedNames_seenAlike :
    (Path.parse "any.nick").last? = some "nick" ∧
      renameKey (Path.parse "user.name") (Path.parse "any.nick") nestedNames =
        .ok ⟨nestedNicks, 3⟩ ∧
      (∀ record ∈ nestedNames.records, ∀ entries,
        record.parentOf (Path.parse "user.name") = some (.obj entries) →
          Entries.hasKey entries "nick" = false) ∧
      nestedNicks.records =
        nestedNames.records.map (renamedRecord (Path.parse "user.name") "nick") ∧
      SeenAlike (renamedRecord (Path.parse "user.name") "nick") (Path.parse "user.name")
        ((Path.parse "user.name").beside "nick") nestedNames nestedNicks := by
  have hlast : (Path.parse "any.nick").last? = some "nick" := by decide +kernel
  have hok : renameKey (Path.parse "user.name") (Path.parse "any.nick") nestedNames =
      .ok ⟨nestedNicks, 3⟩ := by rfl
  have hfree : ∀ record ∈ nestedNames.records, ∀ entries,
      record.parentOf (Path.parse "user.name") = some (.obj entries) →
        Entries.hasKey entries "nick" = false := by
    have hpath : Path.parse "user.name" = ⟨["user", "name"]⟩ := by decide +kernel
    intro record hrecord entries hparent
    rw [hpath] at hparent
    simp only [nestedNames, Json.records, List.mem_cons, List.not_mem_nil, or_false] at hrecord
    rcases hrecord with rfl | rfl | rfl | rfl | rfl | rfl <;> cases hparent <;> rfl
  obtain ⟨hrecords, -, hseen⟩ := renamed_seenAlike (Path.parse "user.name")
    (Path.parse "any.nick") "nick" nestedNames ⟨nestedNicks, 3⟩ hlast hok hfree
  exact ⟨hlast, hok, hfree, hrecords, hseen⟩

end JsonInspect
