import JsonInspect.Proofs.Engine.WellFormed

/-! # The calls that change a document

Each of the four calls reads the text, applies one transformation to the value and shows the
result (`call_eq`). What a transformation makes of a value depends on the value only up to
rereading (`engine_reread`). -/

namespace JsonInspect

open Json

/-! ## Transformations that find no place -/

theorem renameRecord_idle {path : Path} {new : String} {v v' : Json}
    (h : renameRecord path new v = .ok (v', false)) : v' = v := by
  unfold renameRecord at h
  split at h
  · split at h
    · cases h
      rfl
    · split at h
      · cases h
      · split at h <;> cases h
  · cases h
    rfl

theorem renameRecords_idle {path : Path} {new : String} {records : List Json}
    {results : List (Json × Bool)} (h : records.mapM (renameRecord path new) = .ok results)
    (hnone : ∀ result ∈ results, result.2 = false) : results.map Prod.fst = records := by
  rw [mapM_eq_ok_iff] at h
  induction h with
  | nil => rfl
  | @cons record result rest results' hrecord _ ih =>
    obtain ⟨v', found⟩ := result
    rw [List.forall_mem_cons] at hnone
    obtain rfl : found = false := hnone.1
    rw [List.map_cons, ih hnone.2, renameRecord_idle hrecord]

theorem renameKey_idle {old new : Path} {v : Json} {r : Renamed} (h : renameKey old new v = .ok r)
    (hc : r.count = 0) : r.value = v := by
  obtain ⟨_, _, results, -, -, -, -, hresults, rfl⟩ := exists_of_renameKey h
  have hnone : ∀ result ∈ results, result.2 = false := by
    simpa using List.countP_eq_zero.mp hc
  exact (congrArg v.withRecords (renameRecords_idle hresults hnone)).trans (withRecords_records rfl)

theorem assignAll_idle {path : Path} {w v : Json} (hc : (Session.assignAll path w v).2 = 0) :
    (Session.assignAll path w v).1 = v := by
  rw [assignAll_eq] at hc ⊢
  have hsame : (v.records.map fun record => (record.assign path w).getD record) = v.records := by
    refine (List.map_congr_left fun record hr => ?_).trans (List.map_id v.records)
    rw [Option.not_isSome_iff_eq_none.mp (List.countP_eq_zero.mp hc record hr)]
    rfl
  exact (congrArg v.withRecords hsame).trans (withRecords_records rfl)

/-! ## Calls -/

/-- A call that may change the document. -/
inductive Edit where
  | group (key : String)
  | rename (old new : String)
  | set (key text : String)
  | aggregate (options : AggregateOptions)

namespace Edit

def call : Edit → Session → Except Failure (Session × Status)
  | group key, s => s.group key
  | rename old new, s => s.rename old new
  | set key text, s => s.set key text
  | aggregate options, s => s.aggregate options

/-- What the transformation makes of a value, with the number of groups, of renamed or set
places, or of repeated keys. -/
def engine : Edit → Json → Except Failure (Json × Nat)
  | group key, v => do
    let groups ← groupBy (Path.parse key) v
    .ok (groups.toJson, groups.count)
  | rename old new, v => do
    let renamed ← renameKey (Path.parse old) (Path.parse new) v
    .ok (renamed.value, renamed.count)
  | set key text, v => .ok (Session.assignAll (Path.parse key) (Session.typedValue text) v)
  | aggregate options, v => do
    let result ← JsonInspect.aggregate options v
    .ok (result, (Aggregate.duplicates v).length)

def idle : Edit → Nat → Bool
  | rename _ _, count => count == 0
  | set _ _, count => count == 0
  | _, _ => false

def report : Edit → Nat → Status
  | group key, count =>
    .info ("Grouped by " ++ key ++ " into " ++ toString count ++ " groups")
  | rename old new, count =>
    if count = 0 then .warning ("Key '" ++ old ++ "' not found")
    else .info ("Renamed '" ++ old ++ "' to '" ++ new ++ "' in " ++ toString count ++ " places")
  | set key _, count =>
    if count = 0 then .warning ("No object to hold " ++ key)
    else .info ("Set " ++ key ++ " in " ++ toString count ++ " places")
  | aggregate options, count =>
    if count = 0 then .info "No duplicate keys found"
    else .info ("Aggregated " ++ toString count ++ " duplicate keys (" ++ options.mode.name ++ ")")

def trimmed : Edit → Edit
  | group key => group (trim key)
  | rename old new => rename (trim old) (trim new)
  | set key text => set (trim key) text
  | aggregate options => aggregate options

def lacksKey : Edit → Bool
  | group key => (trim key).isEmpty
  | set key _ => (trim key).isEmpty
  | _ => false

/-- Every call is one transformation of the value that the text reads as. -/
theorem call_eq (e : Edit) (s : Session) :
    e.call s =
      if e.lacksKey then .error .missingKey
      else s.root >>= fun root => e.trimmed.engine root >>= fun (value, count) =>
        .ok (if e.idle count then s else s.showing value, e.trimmed.report count) := by
  cases e with
  | group key =>
    by_cases hk : (trim key).isEmpty = true
    · simp only [call, Session.group, lacksKey, hk, if_true]
    · simp only [call, Session.group, lacksKey, hk, trimmed, engine, idle, report]
      cases s.root with
      | error f => simp only [error_bind, Bool.false_eq_true, if_false]
      | ok root =>
        simp only [ok_bind, Bool.false_eq_true, if_false]
        cases groupBy (Path.parse (trim key)) root <;> simp only [ok_bind, error_bind]
  | rename old new =>
    simp only [call, Session.rename, lacksKey, trimmed, engine, idle, report,
      Bool.false_eq_true, if_false]
    cases s.root with
    | error f => simp only [error_bind]
    | ok root =>
      simp only [ok_bind]
      cases renameKey (Path.parse (trim old)) (Path.parse (trim new)) root with
      | error f => simp only [error_bind]
      | ok renamed =>
        simp only [ok_bind]
        by_cases hc : renamed.count = 0
        · simp only [hc, if_true, beq_self_eq_true]
        · simp only [hc, if_false, beq_eq_false_iff_ne.mpr hc, Bool.false_eq_true]
  | set key text =>
    by_cases hk : (trim key).isEmpty = true
    · simp only [call, Session.set, lacksKey, hk, if_true]
    · simp only [call, Session.set, lacksKey, hk, trimmed, engine, idle, report]
      cases s.root with
      | error f => simp only [error_bind, Bool.false_eq_true, if_false]
      | ok root =>
        simp only [ok_bind, Bool.false_eq_true, if_false]
        generalize Session.assignAll _ _ root = result
        by_cases hc : result.2 = 0
        · simp only [hc, if_true, beq_self_eq_true]
        · simp only [hc, if_false, beq_eq_false_iff_ne.mpr hc, Bool.false_eq_true]
  | aggregate options =>
    simp only [call, Session.aggregate, lacksKey, trimmed, engine, idle, report,
      Bool.false_eq_true, if_false]
    cases s.root with
    | error f => simp only [error_bind]
    | ok root =>
      simp only [ok_bind]
      cases JsonInspect.aggregate options root <;> simp only [ok_bind, error_bind]

/-! ## What a transformation gives -/

def rereadResult (result : Except Failure (Json × Nat)) : Except Failure (Json × Nat) :=
  result.map fun (v, count) => (v.reread, count)

/-- Two values that read back as the same are transformed into two such values. -/
theorem engine_reread (e : Edit) (v : Json) :
    rereadResult (e.engine v.reread) = rereadResult (e.engine v) := by
  cases e with
  | group key =>
    simp only [engine, groupBy_reread]
    cases groupBy (Path.parse key) v with
    | error f => rfl
    | ok groups =>
      simp [Except.map, rereadResult, Groups.toJson_reread, Groups.count_reread]
  | rename old new =>
    simp only [engine, renameKey_reread]
    cases renameKey (Path.parse old) (Path.parse new) v with
    | error f => rfl
    | ok renamed => simp [Except.map, rereadResult, Renamed.reread]
  | set key text =>
    have h := assignAll_reread (Path.parse key) (Session.typedValue text) v.reread
    have h' := assignAll_reread (Path.parse key) (Session.typedValue text) v
    rw [reread_reread, h', Prod.mk.injEq] at h
    simp only [engine, rereadResult, Except.map, ← h.1, ← h.2]
  | aggregate options =>
    have hcount : (Aggregate.duplicates v.reread).length = (Aggregate.duplicates v).length := by
      rw [Aggregate.duplicates_reread, Entries.mapValues, List.length_map]
    simp only [engine, aggregate_reread, hcount]
    cases JsonInspect.aggregate options v with
    | error f => rfl
    | ok result => simp [Except.map, rereadResult]

theorem engine_wellFormed {e : Edit} {v u : Json} {count : Nat} (hv : v.wellFormed = true)
    (h : e.engine v = .ok (u, count)) : u.wellFormed = true := by
  cases e with
  | group key =>
    obtain ⟨groups, hg, h⟩ := bind_eq_ok.mp h
    cases h
    exact wellFormed_groups hv hg
  | rename old new =>
    obtain ⟨renamed, hr, h⟩ := bind_eq_ok.mp h
    cases h
    exact wellFormed_renameKey hv hr
  | set key text =>
    have hset : (Session.assignAll (Path.parse key) _ v).1.wellFormed = true :=
      wellFormed_assignAll hv (wellFormed_typedValue text)
    rwa [Except.ok.inj h] at hset
  | aggregate options =>
    obtain ⟨result, hr, h⟩ := bind_eq_ok.mp h
    cases h
    exact wellFormed_aggregate hv hr

/-- A transformation that found no place gives the value back. -/
theorem engine_idle {e : Edit} {v u : Json} {count : Nat} (h : e.engine v = .ok (u, count))
    (hi : e.idle count = true) : u = v := by
  cases e with
  | group key => cases hi
  | rename old new =>
    obtain ⟨renamed, hr, h⟩ := bind_eq_ok.mp h
    cases h
    exact renameKey_idle hr (beq_iff_eq.mp hi)
  | set key text =>
    have hset : (Session.assignAll (Path.parse key) (Session.typedValue text) v).2 = 0 → _ :=
      assignAll_idle
    rw [Except.ok.inj h] at hset
    exact hset (beq_iff_eq.mp hi)
  | aggregate options => cases hi

end Edit

end JsonInspect
