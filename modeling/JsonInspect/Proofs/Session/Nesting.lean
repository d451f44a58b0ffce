import JsonInspect.Proofs.Engine.Depth
import JsonInspect.Proofs.Json.RoundTrip
import JsonInspect.Proofs.Session.Edits

/-! # Which results a session can read again

A search, and a call that changes the document, write the value that they computed without a
look at its depth. The text reads as that value if no more than 127 containers are nested in it
and does not read otherwise. A session with a text that does not read refuses every such call
(`TextCall.write_refused`). -/

namespace JsonInspect

open Json

/-! ## Searching -/

/-- The records that a request asks for, with blanks around its parts taken off. -/
def SearchRequest.matches (request : SearchRequest) (m : Matching) (root : Json) :
    Except Failure Matches :=
  if (trim request.expression).isEmpty then
    if (trim request.key).isEmpty then .error .missingKey
    else .ok (queryByValue m (Path.parse (trim request.key)) (trim request.value) root)
  else (Predicate.parse (trim request.expression)).map fun p => queryByPredicate m p root

theorem queryByValue_sublist (m : Matching) (key : Path) (value : String) (root : Json) :
    (queryByValue m key value root).records.Sublist root.records := List.filter_sublist

theorem queryByPredicate_sublist (m : Matching) (p : Predicate) (root : Json) :
    (queryByPredicate m p root).records.Sublist root.records := List.filter_sublist

/-- A search shows the records that its request asks for. -/
theorem search_eq_ok {s : Session} {request : SearchRequest} {outcome : SearchOutcome}
    (h : s.search request = .ok outcome) :
    ∃ root, s.root = .ok root ∧
      request.matches s.options.matching root = .ok outcome.found ∧
      outcome.output = s.pretty (.arr outcome.found.records) := by
  rw [Session.search] at h
  obtain ⟨root, hroot, h⟩ := bind_eq_ok.mp h
  unfold SearchRequest.matches
  dsimp only at h
  split at h
  · rename_i hexpr
    obtain ⟨⟨found, status⟩, hfound, h⟩ := bind_eq_ok.mp h
    cases h
    refine ⟨root, hroot, ?_, rfl⟩
    rw [if_pos hexpr]
    unfold Session.searchByValue at hfound
    split at hfound
    · cases hfound
    · rename_i hkey
      cases hfound
      rw [if_neg hkey]
  · rename_i hexpr
    obtain ⟨⟨found, status⟩, hfound, h⟩ := bind_eq_ok.mp h
    cases h
    refine ⟨root, hroot, ?_, rfl⟩
    rw [if_neg hexpr]
    obtain ⟨p, hp, hfound⟩ := bind_eq_ok.mp hfound
    cases hfound
    rw [hp]
    rfl

theorem matches_sublist {request : SearchRequest} {m : Matching} {root : Json} {found : Matches}
    (h : request.matches m root = .ok found) : found.records.Sublist root.records := by
  unfold SearchRequest.matches at h
  split at h
  · split at h
    · cases h
    · cases h
      exact queryByValue_sublist _ _ _ _
  · cases hp : Predicate.parse (trim request.expression) with
    | error f =>
      rw [hp] at h
      cases h
    | ok p =>
      rw [hp] at h
      cases h
      exact queryByPredicate_sublist _ _ _

/-! ## Calls that write a text -/

/-- A call that writes a JSON text: the records found, or the changed document. -/
inductive TextCall where
  | search (request : SearchRequest)
  | edit (e : Edit)

namespace TextCall

/-- The status of a call and the text that it writes. -/
def write : TextCall → Session → Except Failure (Status × String)
  | search request, s => do
    let outcome ← s.search request
    .ok (outcome.status, outcome.output)
  | edit e, s => do
    let (s', status) ← e.call s
    .ok (status, s'.text)

/-- The value that the searches and transformations compute for a call. -/
def result (m : Matching) : TextCall → Json → Except Failure Json
  | search request, root => do
    let found ← request.matches m root
    .ok (.arr found.records)
  | edit e, root => do
    let (value, _) ← e.trimmed.engine root
    .ok value

theorem wellFormed_result {m : Matching} {c : TextCall} {root u : Json}
    (hr : root.wellFormed = true) (h : c.result m root = .ok u) : u.wellFormed = true := by
  cases c with
  | search request =>
    obtain ⟨found, hfound, h⟩ := bind_eq_ok.mp h
    cases h
    exact wellFormed_arr.mpr fun record hrecord =>
      wellFormed_records hr record ((matches_sublist hfound).subset hrecord)
  | edit e =>
    obtain ⟨⟨value, count⟩, hengine, h⟩ := bind_eq_ok.mp h
    cases h
    exact Edit.engine_wellFormed hr hengine

/-- How many containers a call can add around or inside a document. -/
def growth : TextCall → Nat
  | search _ => 1
  | edit (.group _) => 1
  | edit (.rename _ _) => 0
  | edit (.set _ text) => (Session.typedValue text).depth
  | edit (.aggregate _) => 3

theorem depth_result_le {m : Matching} {c : TextCall} {root u : Json}
    (h : c.result m root = .ok u) : u.depth ≤ root.depth + c.growth := by
  cases c with
  | search request =>
    obtain ⟨found, hfound, h⟩ := bind_eq_ok.mp h
    cases h
    refine depth_arr_le.mpr fun record hrecord => ?_
    have hmem := (matches_sublist hfound).subset hrecord
    cases root with
    | arr items => exact Nat.le_of_lt (depth_lt_of_mem_items hmem)
    | _ => rw [List.mem_singleton.mp hmem]
  | edit e =>
    obtain ⟨⟨value, count⟩, hengine, h⟩ := bind_eq_ok.mp h
    cases h
    cases e with
    | group key =>
      obtain ⟨groups, hg, h⟩ := bind_eq_ok.mp hengine
      cases h
      exact depth_groupBy_le hg
    | rename old new =>
      obtain ⟨renamed, hr, h⟩ := bind_eq_ok.mp hengine
      cases h
      exact depth_renameKey_le hr
    | set key text =>
      have hset := depth_assignAll_le (Path.parse (trim key)) (Session.typedValue text) root
      rw [Except.ok.inj hengine] at hset
      exact hset
    | aggregate options =>
      obtain ⟨result, hr, h⟩ := bind_eq_ok.mp hengine
      cases h
      exact depth_aggregate_le hr

end TextCall

theorem Edit.idle_trimmed (e : Edit) (count : Nat) : e.trimmed.idle count = e.idle count := by
  cases e <;> rfl

/-- What is reported as done was not idle. -/
theorem Edit.not_idle_of_info {e : Edit} {count : Nat} (h : (e.report count).severity = .info) :
    e.idle count = false := by
  cases e with
  | group key => rfl
  | aggregate options => rfl
  | rename old new =>
    rw [report] at h
    split at h
    · cases h
    · rename_i hc
      exact beq_eq_false_iff_ne.mpr hc
  | set key text =>
    rw [report] at h
    split at h
    · cases h
    · rename_i hc
      exact beq_eq_false_iff_ne.mpr hc

/-- A call that reports success writes the indented text of its result. -/
theorem TextCall.write_info {s : Session} {c : TextCall} {status : Status} {text : String}
    (h : c.write s = .ok (status, text)) (hi : status.severity = .info) :
    ∃ root u, s.root = .ok root ∧ c.result s.options.matching root = .ok u ∧
      text = u.pretty s.options.indent := by
  cases c with
  | search request =>
    obtain ⟨outcome, hsearch, h⟩ := bind_eq_ok.mp h
    cases h
    obtain ⟨root, hroot, hfound, houtput⟩ := search_eq_ok hsearch
    refine ⟨root, .arr outcome.found.records, hroot, ?_, houtput⟩
    rw [result, hfound, ok_bind]
  | edit e =>
    obtain ⟨⟨s', status'⟩, hcall, h⟩ := bind_eq_ok.mp h
    obtain ⟨rfl, rfl⟩ := Prod.mk.inj (Except.ok.inj h)
    rw [Edit.call_eq] at hcall
    split at hcall
    · cases hcall
    · obtain ⟨root, hroot, hcall⟩ := bind_eq_ok.mp hcall
      obtain ⟨⟨u, count⟩, hengine, hcall⟩ := bind_eq_ok.mp hcall
      obtain ⟨rfl, rfl⟩ := Prod.mk.inj (Except.ok.inj hcall)
      have hidle := Edit.not_idle_of_info hi
      rw [Edit.idle_trimmed] at hidle
      refine ⟨root, u, hroot, ?_, ?_⟩
      · rw [result, hengine, ok_bind]
      · rw [hidle]
        rfl

theorem Session.root_fits {s : Session} {root : Json} (h : s.root = .ok root) :
    Fits greatestDepth root :=
  parse_fits (mapError_eq_ok.mp h)

/-- A call that reports success writes the text of its result, which reads back as a value equal
to the result if at most 127 containers are nested in it, and does not read otherwise. So a
document is safe from a call that can add no more containers than there is room for. -/
theorem info_text_reads_back (s : Session) (c : TextCall) (status : Status) (text : String)
    (h : c.write s = .ok (status, text)) (hi : status.severity = .info) :
    ∃ root u, s.root = .ok root ∧ c.result s.options.matching root = .ok u ∧
      u.depth ≤ root.depth + c.growth ∧
      if u.depth ≤ 127 then ∃ w, parse text = .ok w ∧ w.same u = true
      else ∀ w, parse text ≠ .ok w := by
  obtain ⟨root, u, hroot, hresult, rfl⟩ := c.write_info h hi
  have hu := TextCall.wellFormed_result (s.root_fits hroot).1 hresult
  refine ⟨root, u, hroot, hresult, TextCall.depth_result_le hresult, ?_⟩
  split
  · rename_i hd
    exact ⟨u.reread, parse_pretty s.options.indent hu hd, same_reread hu⟩
  · rename_i hd
    intro w hw
    exact hd ((parse_pretty_iff s.options.indent hu).mp hw).1

/-- A session whose text does not read refuses every such call. -/
theorem TextCall.write_refused {s : Session} (h : ∀ root, s.root ≠ .ok root) (c : TextCall) :
    ∃ f, c.write s = .error f := by
  cases hc : c.write s with
  | error f => exact ⟨f, rfl⟩
  | ok written =>
    cases c with
    | search request =>
      obtain ⟨outcome, hsearch, -⟩ := bind_eq_ok.mp hc
      obtain ⟨root, hroot, -⟩ := search_eq_ok hsearch
      exact absurd hroot (h root)
    | edit e =>
      obtain ⟨⟨s', status⟩, hcall, -⟩ := bind_eq_ok.mp hc
      rw [Edit.call_eq] at hcall
      split at hcall
      · cases hcall
      · obtain ⟨root, hroot, -⟩ := bind_eq_ok.mp hcall
        exact absurd hroot (h root)

/-! ## At the limit -/

/-- Arrays in each other, one more than the number says. -/
def nested : Nat → Json
  | 0 => .arr []
  | n + 1 => .arr [nested n]

theorem depth_nested (n : Nat) : (nested n).depth = n + 1 := by
  induction n with
  | zero => rfl
  | succ n ih => rw [nested, depth, itemsDepth, itemsDepth, ih, Nat.max_zero]

theorem wellFormed_nested (n : Nat) : (nested n).wellFormed = true := by
  induction n with
  | zero => rfl
  | succ n ih => exact wellFormed_arr.mpr (List.forall_mem_singleton.mpr ih)

theorem reread_nested (n : Nat) : (nested n).reread = nested n := by
  induction n with
  | zero => rfl
  | succ n ih => rw [nested, reread_arr, List.map_singleton, ih]

def nestedSession (n : Nat) : Session :=
  Session.start (nested (n + 1)).compact ⟨⟨false, 2⟩, 10, 2⟩

theorem nestedSession_root {n : Nat} (hn : n + 2 ≤ 127) :
    (nestedSession n).root = .ok (nested (n + 1)) := by
  have hread := parse_compact (wellFormed_nested (n + 1)) (by rw [depth_nested]; exact hn)
  rw [reread_nested] at hread
  exact mapError_eq_ok.mpr hread

/-- What grouping makes of arrays in each other: one bucket, one container more. -/
def groupedNested (n : Nat) : Json := .obj [("__undefined__", .arr [nested n])]

theorem depth_groupedNested (n : Nat) : (groupedNested n).depth = n + 3 := by
  simp [groupedNested, depth, entriesDepth, itemsDepth, depth_nested]

theorem write_group_nested {n : Nat} (hn : n + 2 ≤ 127) :
    (TextCall.edit (.group "k")).write (nestedSession n) =
      .ok (.info "Grouped by k into 1 groups", (groupedNested n).pretty 2) := by
  have hkey : trim "k" = "k" := by decide +kernel
  have hengine : (Edit.group "k").engine (nested (n + 1)) = .ok (groupedNested n, 1) := by
    have hbucket : Groups.bucketOf (Path.parse "k") (nested n) = "__undefined__" := by
      cases n <;> rfl
    rw [Edit.engine, nested, groupBy_arr, List.map_singleton, hbucket]
    rfl
  rw [TextCall.write, Edit.call_eq, Edit.lacksKey, Edit.trimmed, hkey, nestedSession_root hn]
  simp only [ok_bind, hengine]
  rfl

/-- With 126 arrays in each other the result of grouping is read again. -/
theorem group_reads_back_below_limit :
    (TextCall.edit (.group "k")).write (nestedSession 124) =
        .ok (.info "Grouped by k into 1 groups", (groupedNested 124).pretty 2) ∧
      (Status.info "Grouped by k into 1 groups").severity = .info ∧
      ∃ root u, (nestedSession 124).root = .ok root ∧
        (TextCall.edit (.group "k")).result ⟨false, 2⟩ root = .ok u ∧
        u.depth ≤ root.depth + (TextCall.edit (.group "k")).growth ∧
        if u.depth ≤ 127 then ∃ w, parse ((groupedNested 124).pretty 2) = .ok w ∧ w.same u = true
        else ∀ w, parse ((groupedNested 124).pretty 2) ≠ .ok w :=
  have h := write_group_nested (n := 124) (by decide)
  ⟨h, rfl, info_text_reads_back _ _ _ _ h rfl⟩

/-- Grouping 127 arrays in each other succeeds and leaves a text that is refused. -/
theorem group_locks_out :
    (∃ root, (nestedSession 125).root = .ok root) ∧
      ∃ status text, (TextCall.edit (.group "k")).write (nestedSession 125) = .ok (status, text) ∧
        status.severity = .info ∧ ∀ w, parse text ≠ .ok w := by
  refine ⟨⟨_, nestedSession_root (by decide)⟩, _, _, write_group_nested (by decide), rfl, ?_⟩
  intro w hw
  have hwell : (groupedNested 125).wellFormed = true := by
    rw [groupedNested, wellFormed_obj]
    exact ⟨List.nodup_singleton _, List.forall_mem_singleton.mpr (wellFormed_nested 126)⟩
  have hdepth := ((parse_pretty_iff 2 hwell).mp hw).1
  rw [depth_groupedNested] at hdepth
  exact absurd hdepth (by decide)

end JsonInspect
