import JsonInspect.Proofs.Engine.Replaced
import JsonInspect.Proofs.Lists

/-! # What renaming a key gives

Renaming fails where a record has both keys, and only there. Elsewhere it writes the new key for
the old one at the position of the old one in every record that has it (`RenamedAt`), so that
renaming the key back gives the document again. -/

namespace JsonInspect

/-! ## One entry renamed -/

namespace Entries

variable {α : Type} {old new : String} {value : α} {entries front back : List (String × α)}

theorem renameKey_of_notMem (h : old ∉ keys entries) : renameKey old new entries = entries :=
  renameKey_of_not_hasKey (Bool.eq_false_iff.mpr fun hk => h (hasKey_iff.mp hk))

/-- With distinct keys a renamed entry is one entry, and stays where it was. -/
theorem renameKey_between (hn : (keys (front ++ (old, value) :: back)).Nodup) :
    renameKey old new (front ++ (old, value) :: back) = front ++ (new, value) :: back := by
  rw [keys, List.map_append, List.map_cons, List.nodup_middle, List.nodup_cons, List.mem_append,
    not_or] at hn
  calc renameKey old new (front ++ (old, value) :: back)
      = renameKey old new front ++ renameKey old new ((old, value) :: back) := List.map_append
    _ = front ++ (new, value) :: back := by
        rw [renameKey_of_notMem hn.1.1, renameKey_cons, if_pos rfl, renameKey_of_notMem hn.1.2]

/-- A key that takes a free name can take its old one back. -/
theorem renameKey_renameKey (h : hasKey entries new = false) :
    renameKey new old (renameKey old new entries) = entries := by
  have hnew : ∀ e ∈ entries, e.1 ≠ new := by
    rintro e he rfl
    rw [hasKey_iff.mpr (mem_keys_of_mem he)] at h
    cases h
  rw [renameKey, renameKey, List.map_map]
  refine (List.map_congr_left fun e he => ?_).trans (List.map_id entries)
  by_cases hk : e.1 = old
  · simp [hk, Prod.ext_iff]
  · simp [hk, hnew e he]

theorem hasKey_renameKey_new (h : hasKey entries new = false) :
    hasKey (renameKey old new entries) new = hasKey entries old := by
  rw [hasKey, hasKey, lookup_renameKey h]

theorem hasKey_renameKey_old (hne : old ≠ new) :
    hasKey (renameKey old new entries) old = false := by
  refine Bool.eq_false_iff.mpr fun h => ?_
  obtain ⟨e, he, hkey⟩ := List.mem_map.mp (hasKey_iff.mp h)
  obtain ⟨e', -, rfl⟩ := List.mem_map.mp he
  dsimp only at hkey
  split at hkey
  · exact hne hkey.symm
  · contradiction

end Entries

/-! ## One record -/

def Json.parentHolds (path : Path) (key : String) (v : Json) : Bool :=
  match v.parentOf path with
  | some (.obj entries) => Entries.hasKey entries key
  | _ => false

/-- A record in which a path's last key is renamed if it is there: the object that holds it has
the new key in its place, with the same value between the same entries, and everything else is
as it was. -/
structure RenamedAt (path : Path) (oldKey newKey : String) (record record' : Json) : Prop where
  absent : record.resolve path = none → record' = record
  found : ∀ child, record.resolve path = some child → ∃ front back,
    Json.ReplacedAt (.obj (front ++ (oldKey, child) :: back))
      (.obj (front ++ (newKey, child) :: back)) path.segments.dropLast record record'

theorem Json.everywhere_walk {p : Json → Bool} {keys : List String} {v u : Json}
    (hv : v.everywhere p = true) (h : Json.walk keys v = some u) : u.everywhere p = true := by
  induction keys generalizing v with
  | nil =>
    cases h
    exact hv
  | cons key rest ih =>
    obtain ⟨entries, child, rfl, hlookup, hrest⟩ := walk_cons_eq_some.mp h
    exact ih ((everywhere_obj.mp hv).2 _ (Entries.mem_of_lookup hlookup)) hrest

section

variable {path : Path} {key oldKey newKey : String} {record record' child : Json}
  {entries : List (String × Json)}

theorem parentHolds_of_parentOf (h : record.parentOf path = some (.obj entries)) :
    record.parentHolds path key = Entries.hasKey entries key := by
  rw [Json.parentHolds, h]

theorem parentHolds_iff : record.parentHolds path key = true ↔
    ∃ entries, record.parentOf path = some (.obj entries) ∧ Entries.hasKey entries key = true := by
  constructor
  · intro h
    unfold Json.parentHolds at h
    split at h
    · rename_i entries hparent
      exact ⟨entries, hparent, h⟩
    · cases h
  · rintro ⟨entries, hparent, h⟩
    exact (parentHolds_of_parentOf hparent).trans h

/-- A path reaches a value exactly if the object that is to hold its last key does so. -/
theorem isSome_resolve (hlast : path.last? = some key) :
    (record.resolve path).isSome = record.parentHolds path key := by
  rw [Json.resolve_eq_parentOf hlast, Json.parentHolds]
  cases record.parentOf path with
  | none => rfl
  | some parent =>
    cases parent with
    | obj entries =>
      simp only [Option.bind_some, Json.walk, Entries.hasKey]
      cases entries.lookup key <;> rfl
    | _ => rfl

theorem lookup_of_resolve (hlast : path.last? = some key)
    (hparent : record.parentOf path = some (.obj entries))
    (hresolve : record.resolve path = some child) : entries.lookup key = some child := by
  rw [Json.resolve_eq_parentOf hlast, hparent, Option.bind_some, walk_cons_eq_some] at hresolve
  obtain ⟨_, _, he, hlookup, hwalk⟩ := hresolve
  cases he
  cases hwalk
  exact hlookup

theorem renameRecord_of_parentOf (hlast : path.last? = some oldKey)
    (hparent : record.parentOf path = some (.obj entries)) :
    renameRecord path newKey record =
      if !Entries.hasKey entries oldKey then .ok (record, false)
      else if oldKey = newKey then .ok (record, true)
      else if Entries.hasKey entries newKey then .error (.renameConflict newKey)
      else .ok ((record.updateParent (Entries.renameKey oldKey newKey) path).getD record,
        true) := by
  simp only [renameRecord, hlast, hparent]

theorem renameRecord_absent (hlast : path.last? = some oldKey)
    (habsent : record.parentHolds path oldKey = false) :
    renameRecord path newKey record = .ok (record, false) := by
  cases hparent : record.parentOf path with
  | none => simp only [renameRecord, hlast, hparent]
  | some parent =>
    obtain ⟨entries, rfl⟩ := Json.exists_entries_of_parentOf hparent
    rw [renameRecord_of_parentOf hlast hparent, ← parentHolds_of_parentOf hparent, habsent]
    rfl

theorem renameRecord_conflict (hlast : path.last? = some oldKey) (hne : oldKey ≠ newKey)
    (hold : record.parentHolds path oldKey = true) (hnew : record.parentHolds path newKey = true) :
    renameRecord path newKey record = .error (.renameConflict newKey) := by
  obtain ⟨entries, hparent, hold⟩ := parentHolds_iff.mp hold
  rw [parentHolds_of_parentOf hparent] at hnew
  simp [renameRecord_of_parentOf hlast hparent, hold, hnew, hne]

/-- Where the old key is and the new one is free, the entries of one object are renamed. -/
theorem renameRecord_found (hlast : path.last? = some oldKey)
    (hparent : record.parentOf path = some (.obj entries))
    (hold : record.parentHolds path oldKey = true)
    (hfree : oldKey ≠ newKey → record.parentHolds path newKey = false) :
    ∃ record', renameRecord path newKey record = .ok (record', true) ∧
      Json.ReplacedAt (.obj entries) (.obj (Entries.renameKey oldKey newKey entries))
        path.segments.dropLast record record' := by
  have hpath := Json.isEmpty_of_last? hlast
  obtain ⟨record', hreplaced⟩ := Json.exists_replacedAt
    (.obj (Entries.renameKey oldKey newKey entries)) ((Json.parentOf_eq_some_iff hpath).mp hparent)
  refine ⟨record', ?_, hreplaced⟩
  rw [parentHolds_of_parentOf hparent] at hold hfree
  rw [renameRecord_of_parentOf hlast hparent, hold]
  by_cases hkey : oldKey = newKey
  · subst hkey
    rw [Entries.renameKey_self] at hreplaced
    simp [hreplaced.eq]
  · have hupdate : record.updateParent (Entries.renameKey oldKey newKey) path = some record' :=
      Json.updateParent_eq_some_iff.mpr ⟨hpath, entries, hreplaced⟩
    simp [hkey, hfree hkey, hupdate]

/-- A record that does not have both keys is renamed, and it is told whether the old key was
there. -/
theorem renameRecord_renamedAt (hlast : path.last? = some oldKey)
    (hdistinct : record.everywhere Json.hasDistinctKeys = true)
    (hfree : oldKey ≠ newKey → record.parentHolds path oldKey = true →
      record.parentHolds path newKey = false) :
    ∃ result, renameRecord path newKey record = .ok result ∧
      RenamedAt path oldKey newKey record result.1 ∧
      result.2 = (record.resolve path).isSome := by
  rw [isSome_resolve hlast]
  cases hold : record.parentHolds path oldKey with
  | false =>
    refine ⟨(record, false), renameRecord_absent hlast hold, ⟨fun _ => rfl, ?_⟩, rfl⟩
    intro child hresolve
    rw [← isSome_resolve hlast, hresolve] at hold
    cases hold
  | true =>
    obtain ⟨entries, hparent, -⟩ := parentHolds_iff.mp hold
    obtain ⟨record', hrename, hreplaced⟩ :=
      renameRecord_found hlast hparent hold fun hne => hfree hne hold
    refine ⟨(record', true), hrename, ⟨fun hresolve => ?_, fun child hresolve => ?_⟩, rfl⟩
    · rw [← isSome_resolve hlast, hresolve] at hold
      cases hold
    · have hnodup := of_decide_eq_true
        (Json.everywhere_self (Json.everywhere_walk hdistinct hreplaced.walk_left))
      obtain ⟨front, back, rfl, -⟩ :=
        Entries.lookup_eq_some_iff.mp (lookup_of_resolve hlast hparent hresolve)
      rw [Entries.renameKey_between hnodup] at hreplaced
      exact ⟨front, back, hreplaced⟩

end

/-! ## A document -/

section

variable {path old new : Path} {oldKey newKey : String} {root : Json} {results : List (Json × Bool)}

theorem countP_snd (results : List (Json × Bool)) :
    results.countP Prod.snd = (results.map Prod.snd).countP id := by
  rw [List.countP_map]
  rfl

/-- With a record that has both keys, renaming fails. -/
theorem renameKey_conflict (hold : old.last? = some oldKey) (hnew : new.last? = some newKey)
    (hblank : isBlankText oldKey = false) (hblank' : isBlankText newKey = false)
    (hdistinct : root.everywhere Json.hasDistinctKeys = true) (hne : oldKey ≠ newKey)
    (hboth : ∃ record ∈ root.records,
      record.parentHolds old oldKey = true ∧ record.parentHolds old newKey = true) :
    renameKey old new root = .error (.renameConflict newKey) := by
  obtain ⟨record, hr, hrecord, hrecord'⟩ := hboth
  have hrecords : root.records.mapM (renameRecord old newKey) =
      .error (.renameConflict newKey) := by
    refine mapM_eq_error
      ⟨record, hr, renameRecord_conflict hold hne hrecord hrecord'⟩ fun other ho => ?_
    by_cases hother : other.parentHolds old oldKey = true ∧ other.parentHolds old newKey = true
    · exact .inl (renameRecord_conflict hold hne hother.1 hother.2)
    · obtain ⟨result, hresult, -⟩ := renameRecord_renamedAt hold
        (Json.everywhere_records hdistinct other ho)
        fun _ h => Bool.eq_false_iff.mpr fun h' => hother ⟨h, h'⟩
      exact .inr ⟨result, hresult⟩
  rw [renameKey_of_last? hold hnew hblank hblank', hrecords]
  rfl

/-- Without a record that has both keys, every record is renamed. -/
theorem renameKey_renamedAt (hold : old.last? = some oldKey) (hnew : new.last? = some newKey)
    (hblank : isBlankText oldKey = false) (hblank' : isBlankText newKey = false)
    (hdistinct : root.everywhere Json.hasDistinctKeys = true)
    (hfree : oldKey ≠ newKey → ∀ record ∈ root.records,
      record.parentHolds old oldKey = true → record.parentHolds old newKey = false) :
    ∃ renamed, renameKey old new root = .ok renamed ∧ renamed.value.isArray = root.isArray ∧
      List.Forall₂ (RenamedAt old oldKey newKey) root.records renamed.value.records ∧
      renamed.count = root.records.countP fun record => (record.resolve old).isSome := by
  obtain ⟨results, h⟩ := exists_forall₂ fun record hr => renameRecord_renamedAt hold
    (Json.everywhere_records hdistinct record hr) fun hne => hfree hne record hr
  have hresults : root.records.mapM (renameRecord old newKey) = .ok results :=
    mapM_eq_ok_iff.mpr (h.imp fun _ _ hr => hr.1)
  obtain ⟨hshape, hrecords⟩ := records_withRecords hold hresults
  have hflags : results.map Prod.snd = root.records.map fun record =>
      (record.resolve old).isSome := by
    rw [← List.forall₂_eq_eq_eq, List.forall₂_map_left_iff, List.forall₂_map_right_iff]
    exact (h.imp fun _ _ hr => hr.2.2).flip
  refine ⟨_, by rw [renameKey_of_last? hold hnew hblank hblank', hresults]; rfl, hshape, ?_, ?_⟩
  · rw [hrecords, List.forall₂_map_right_iff]
    exact h.imp fun _ _ hr => hr.2.1
  · calc results.countP Prod.snd = (results.map Prod.snd).countP id := countP_snd results
      _ = root.records.countP fun record => (record.resolve old).isSome := by
        rw [hflags, List.countP_map]
        rfl

/-- Renaming fails, and then by a conflict, exactly if some record has both keys. Otherwise it
gives a document of the same shape in which every record that has the old key has it renamed, and
the number of those records. -/
theorem renameKey_result (old new : Path) (oldKey newKey : String) (root : Json)
    (hdistinct : root.everywhere Json.hasDistinctKeys = true)
    (hold : old.last? = some oldKey) (hnew : new.last? = some newKey)
    (hblank : isBlankText oldKey = false) (hblank' : isBlankText newKey = false) :
    (∀ failure, renameKey old new root = .error failure ↔
        failure = .renameConflict newKey ∧ oldKey ≠ newKey ∧ ∃ record ∈ root.records,
          record.parentHolds old oldKey = true ∧ record.parentHolds old newKey = true) ∧
      ((oldKey ≠ newKey → ∀ record ∈ root.records,
          record.parentHolds old oldKey = true → record.parentHolds old newKey = false) →
        ∃ renamed, renameKey old new root = .ok renamed ∧
          renamed.value.isArray = root.isArray ∧
          List.Forall₂ (RenamedAt old oldKey newKey) root.records renamed.value.records ∧
          renamed.count = root.records.countP fun record => (record.resolve old).isSome) := by
  have hok := renameKey_renamedAt hold hnew hblank hblank' hdistinct
  refine ⟨fun failure => ⟨fun hfails => ?_, ?_⟩, hok⟩
  · by_cases hconflict : oldKey ≠ newKey ∧ ∃ record ∈ root.records,
        record.parentHolds old oldKey = true ∧ record.parentHolds old newKey = true
    · rw [renameKey_conflict hold hnew hblank hblank' hdistinct hconflict.1 hconflict.2] at hfails
      cases hfails
      exact ⟨rfl, hconflict⟩
    · obtain ⟨renamed, hrenamed, -⟩ := hok fun hne record hr h =>
        Bool.eq_false_iff.mpr fun h' => hconflict ⟨hne, record, hr, h, h'⟩
      rw [hrenamed] at hfails
      cases hfails
  · rintro ⟨rfl, hne, hboth⟩
    exact renameKey_conflict hold hnew hblank hblank' hdistinct hne hboth

end

/-- One inner key is renamed where it is, and cannot take the name of another one beside it. -/
theorem nestedNames_result :
    nestedNames.everywhere Json.hasDistinctKeys = true ∧
      (Path.parse "user.name").last? = some "name" ∧ isBlankText "name" = false ∧
      ((Path.parse "nick").last? = some "nick" ∧ isBlankText "nick" = false ∧
        renameKey (Path.parse "user.name") (Path.parse "nick") nestedNames =
          .ok ⟨nestedNicks, 3⟩ ∧
        List.Forall₂ (RenamedAt (Path.parse "user.name") "name" "nick") nestedNames.records
          nestedNicks.records ∧
        3 = nestedNames.records.countP fun record =>
          (record.resolve (Path.parse "user.name")).isSome) ∧
      (Path.parse "id").last? = some "id" ∧ isBlankText "id" = false ∧
        renameKey (Path.parse "user.name") (Path.parse "id") nestedNames =
          .error (.renameConflict "id") := by
  have hdistinct : nestedNames.everywhere Json.hasDistinctKeys = true := by decide +kernel
  have hold : (Path.parse "user.name").last? = some "name" := by decide +kernel
  have hnick : (Path.parse "nick").last? = some "nick" := by decide +kernel
  have hid : (Path.parse "id").last? = some "id" := by decide +kernel
  have hok : renameKey (Path.parse "user.name") (Path.parse "nick") nestedNames =
      .ok ⟨nestedNicks, 3⟩ := by rfl
  obtain ⟨renamed, hrenamed, -, hrecords, hcount⟩ :=
    (renameKey_result (Path.parse "user.name") (Path.parse "nick") "name" "nick" nestedNames
      hdistinct hold hnick (by decide) (by decide)).2 fun _ => by decide +kernel
  obtain rfl := Except.ok.inj (hok.symm.trans hrenamed)
  have hfails := ((renameKey_result (Path.parse "user.name") (Path.parse "id") "name" "id"
    nestedNames hdistinct hold hid (by decide) (by decide)).1 _).mpr
      ⟨rfl, by decide, by decide +kernel⟩
  exact ⟨hdistinct, hold, by decide, ⟨hnick, by decide, hok, hrecords, hcount⟩, hid, by decide,
    hfails⟩

/-! ## Renaming back -/

section

variable {path old new back : Path} {oldKey newKey : String} {root record : Json}
  {result : Json × Bool} {renamed : Renamed}

theorem renameRecord_undone (hlast : path.last? = some oldKey)
    (h : renameRecord path newKey record = .ok result)
    (hfree : record.parentHolds path newKey = false) :
    renameRecord (path.beside newKey) oldKey result.1 = .ok (record, result.2) := by
  have hbeside := Json.last?_beside path newKey
  have hpath := Json.isEmpty_of_last? hlast
  cases hold : record.parentHolds path oldKey with
  | false =>
    rw [renameRecord_absent hlast hold] at h
    cases h
    refine renameRecord_absent hbeside ?_
    rwa [Json.parentHolds, Json.parentOf_beside hpath]
  | true =>
    obtain ⟨entries, hparent, hkey⟩ := parentHolds_iff.mp hold
    obtain ⟨record', hrename, hreplaced⟩ := renameRecord_found hlast hparent hold fun _ => hfree
    obtain rfl : (record', true) = result := Except.ok.inj (hrename.symm.trans h)
    rw [parentHolds_of_parentOf hparent] at hfree
    have hparent' : record'.parentOf (path.beside newKey) =
        some (.obj (Entries.renameKey oldKey newKey entries)) :=
      (Json.parentOf_beside hpath newKey record').trans
        ((Json.parentOf_eq_some_iff hpath).mpr hreplaced.walk_right)
    have hnew : record'.parentHolds (path.beside newKey) newKey = true := by
      rw [parentHolds_of_parentOf hparent', Entries.hasKey_renameKey_new hfree, hkey]
    have hgone : newKey ≠ oldKey → record'.parentHolds (path.beside newKey) oldKey = false := by
      intro hne
      rw [parentHolds_of_parentOf hparent', Entries.hasKey_renameKey_old hne.symm]
    obtain ⟨record'', hback, hreplaced'⟩ := renameRecord_found hbeside hparent' hnew hgone
    rw [Entries.renameKey_renameKey hfree, Path.beside, List.dropLast_concat] at hreplaced'
    rw [hback, hreplaced'.unique hreplaced.symm]

theorem mapM_undone {α β ε : Type} {f : β → Except ε (α × Bool)} {as : List α}
    {bs : List (β × Bool)} (h : List.Forall₂ (fun a b => f b.1 = .ok (a, b.2)) as bs) :
    (bs.map Prod.fst).mapM f = .ok (as.zip (bs.map Prod.snd)) := by
  rw [mapM_eq_ok_iff, List.forall₂_map_left_iff]
  induction h with
  | nil => exact .nil
  | cons hb _ ih => exact .cons hb ih

/-- A renaming that succeeds, of records of which none has the new key beside the old one, is
undone by renaming the new key to the old one. -/
theorem renameKey_undone (old new back : Path) (oldKey newKey : String) (root : Json)
    (renamed : Renamed) (hold : old.last? = some oldKey) (hnew : new.last? = some newKey)
    (hback : back.last? = some oldKey) (h : renameKey old new root = .ok renamed)
    (hfree : ∀ record ∈ root.records, record.parentHolds old newKey = false) :
    renameKey (old.beside newKey) back renamed.value = .ok ⟨root, renamed.count⟩ := by
  obtain ⟨oldKey', newKey', results, hold', hnew', hblank, hblank', hresults, rfl⟩ :=
    exists_of_renameKey h
  obtain rfl : oldKey = oldKey' := Option.some.inj (hold.symm.trans hold')
  obtain rfl : newKey = newKey' := Option.some.inj (hnew.symm.trans hnew')
  obtain ⟨hshape, hrecords⟩ := records_withRecords hold hresults
  have hforall := mapM_eq_ok_iff.mp hresults
  have hlength := hforall.length_eq
  have hundone := mapM_undone (f := renameRecord (old.beside newKey) oldKey)
    (forall₂_imp_of_mem hforall fun record hr result hresult =>
      renameRecord_undone hold hresult (hfree record hr))
  have hvalues : (root.records.zip (results.map Prod.snd)).map Prod.fst = root.records :=
    List.map_fst_zip (by simp [hlength])
  have hflags : (root.records.zip (results.map Prod.snd)).map Prod.snd = results.map Prod.snd :=
    List.map_snd_zip (by simp [hlength])
  have hcount : (root.records.zip (results.map Prod.snd)).countP Prod.snd =
      results.countP Prod.snd := by
    rw [countP_snd, hflags, ← countP_snd]
  rw [renameKey_of_last? (Json.last?_beside old newKey) hback hblank' hblank, hrecords, hundone]
  simp only [Except.map, hvalues, hcount, Json.withRecords_records hshape]

end

theorem nestedNames_undone :
    (Path.parse "user.name").last? = some "name" ∧ (Path.parse "nick").last? = some "nick" ∧
      renameKey (Path.parse "user.name") (Path.parse "nick") nestedNames =
        .ok ⟨nestedNicks, 3⟩ ∧
      (∀ record ∈ nestedNames.records,
        record.parentHolds (Path.parse "user.name") "nick" = false) ∧
      renameKey ((Path.parse "user.name").beside "nick") (Path.parse "user.name") nestedNicks =
        .ok ⟨nestedNames, 3⟩ := by
  have hold : (Path.parse "user.name").last? = some "name" := by decide +kernel
  have hnick : (Path.parse "nick").last? = some "nick" := by decide +kernel
  have hok : renameKey (Path.parse "user.name") (Path.parse "nick") nestedNames =
      .ok ⟨nestedNicks, 3⟩ := by rfl
  have hfree : ∀ record ∈ nestedNames.records,
      record.parentHolds (Path.parse "user.name") "nick" = false := by decide +kernel
  exact ⟨hold, hnick, hok, hfree, renameKey_undone (Path.parse "user.name") (Path.parse "nick")
    (Path.parse "user.name") "name" "nick" nestedNames ⟨nestedNicks, 3⟩ hold hnick hold hok hfree⟩

end JsonInspect
