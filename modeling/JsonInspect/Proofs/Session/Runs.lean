import JsonInspect.Proofs.Session.Nesting
import JsonInspect.Proofs.Session.Pipeline

/-! # Runs of a session

A session is changed in place, and what an operation has assigned before it is refused stays
assigned. Every edit assigns the text after the last step that can be refused (`on_edit`), so a
step of a run that is refused, or only warns, leaves the text as it was, and the text that the
session was started with is there for a reset after any run (`run_lawful`). -/

namespace JsonInspect

/-- Steps on a session in place. What was assigned before a failure stays assigned. -/
abbrev InPlace := EStateM Failure Session

namespace InPlace

variable {α β : Type}

def on (steps : InPlace α) (s : Session) : Except Failure α × Session :=
  match steps.run s with
  | .ok a s' => (.ok a, s')
  | .error f s' => (.error f, s')

def reading (look : Session → Except Failure α) : InPlace α := fun s =>
  match look s with
  | .ok a => .ok a s
  | .error f => .error f s

def showing (v : Json) : InPlace Unit := modify (·.showing v)

theorem on_bind (steps : InPlace α) (next : α → InPlace β) (s : Session) :
    (steps >>= next).on s =
      match steps.on s with
      | (.ok a, s') => (next a).on s'
      | (.error f, s') => (.error f, s') := by
  cases h : steps s <;> simp only [on, bind, EStateM.bind, EStateM.run, h]

theorem on_reading (look : Session → Except Failure α) (s : Session) :
    (reading look).on s = (look s, s) := by
  cases h : look s <;> simp only [on, reading, EStateM.run, h]

theorem on_pure (a : α) (s : Session) : (pure a : InPlace α).on s = (.ok a, s) := rfl

theorem on_throw (f : Failure) (s : Session) : (throw f : InPlace α).on s = (.error f, s) := rfl

theorem on_showing (v : Json) (s : Session) : (showing v).on s = (.ok (), s.showing v) := rfl

/-- Looking and replying leaves the session as it is. -/
theorem on_reply (look : Session → Except Failure α) (reply : α → β) (s : Session) :
    (do return reply (← reading look) : InPlace β).on s = ((look s).map reply, s) := by
  rw [on_bind, on_reading]
  cases look s <;> rfl

def edit : Edit → InPlace Status
  | .group key => do
    if (trim key).isEmpty then throw .missingKey
    let root ← reading Session.root
    let groups ← reading fun _ => groupBy (Path.parse (trim key)) root
    showing groups.toJson
    return (Edit.group (trim key)).report groups.count
  | .rename old new => do
    let root ← reading Session.root
    let renamed ← reading fun _ =>
      renameKey (Path.parse (trim old)) (Path.parse (trim new)) root
    if renamed.count = 0 then return (Edit.rename (trim old) (trim new)).report 0
    showing renamed.value
    return (Edit.rename (trim old) (trim new)).report renamed.count
  | .set key text => do
    if (trim key).isEmpty then throw .missingKey
    let root ← reading Session.root
    let (value, count) := Session.assignAll (Path.parse (trim key)) (Session.typedValue text) root
    if count = 0 then return (Edit.set (trim key) text).report 0
    showing value
    return (Edit.set (trim key) text).report count
  | .aggregate options => do
    let root ← reading Session.root
    let count := (Aggregate.duplicates root).length
    let value ← reading fun _ => JsonInspect.aggregate options root
    showing value
    return (Edit.aggregate options).report count

/-- An edit assigns the text after its last step that may fail, so it goes as the call does. -/
theorem on_edit (e : Edit) (s : Session) : (edit e).on s = e.onSession s := by
  rw [Edit.onSession, Edit.call_eq]
  cases e with
  | group key =>
    by_cases hk : (trim key).isEmpty = true
    · simp only [edit, Edit.lacksKey, hk, if_true, on_bind, on_throw]
    · simp only [edit, Edit.lacksKey, Edit.trimmed, Edit.engine, Edit.idle, hk,
        Bool.false_eq_true, if_false, on_bind, on_reading, on_showing, on_pure]
      cases s.root with
      | error f => rfl
      | ok root =>
        simp only [ok_bind]
        cases groupBy (Path.parse (trim key)) root <;> rfl
  | rename old new =>
    simp only [edit, Edit.lacksKey, Edit.trimmed, Edit.engine, Edit.idle, on_bind, on_reading,
      Bool.false_eq_true, if_false]
    cases s.root with
    | error f => rfl
    | ok root =>
      simp only [ok_bind]
      cases renameKey (Path.parse (trim old)) (Path.parse (trim new)) root with
      | error f => rfl
      | ok renamed =>
        by_cases hc : renamed.count = 0
        · simp only [ok_bind, hc, if_true, beq_self_eq_true, on_pure]
        · simp only [ok_bind, hc, if_false, beq_eq_false_iff_ne.mpr hc, Bool.false_eq_true,
            on_bind, on_showing, on_pure]
  | set key text =>
    by_cases hk : (trim key).isEmpty = true
    · simp only [edit, Edit.lacksKey, hk, if_true, on_bind, on_throw]
    · simp only [edit, Edit.lacksKey, Edit.trimmed, Edit.engine, Edit.idle, hk,
        Bool.false_eq_true, if_false, on_bind, on_reading]
      cases s.root with
      | error f => rfl
      | ok root =>
        simp only [ok_bind]
        generalize Session.assignAll _ _ root = result
        by_cases hc : result.2 = 0
        · simp only [hc, if_true, beq_self_eq_true, on_pure]
        · simp only [hc, if_false, beq_eq_false_iff_ne.mpr hc, Bool.false_eq_true, on_bind,
            on_showing, on_pure]
  | aggregate options =>
    simp only [edit, Edit.lacksKey, Edit.trimmed, Edit.engine, Edit.idle, on_bind, on_reading,
      on_showing, on_pure, Bool.false_eq_true, if_false]
    cases s.root with
    | error f => rfl
    | ok root =>
      simp only [ok_bind]
      cases JsonInspect.aggregate options root <;> rfl

end InPlace

/-! ## What an edit does to a session -/

/-- What was not idle is reported as done. -/
theorem Edit.info_of_not_idle {e : Edit} {count : Nat} (h : e.idle count = false) :
    (e.report count).severity = .info := by
  cases e with
  | group key => rfl
  | rename old new => rw [report, if_neg (beq_eq_false_iff_ne.mp h), Status.info]
  | set key text => rw [report, if_neg (beq_eq_false_iff_ne.mp h), Status.info]
  | aggregate options =>
    rw [report]
    split <;> rfl

/-- An edit leaves the session as it is, or shows a value in it and reports that this is done. -/
theorem Edit.onSession_cases (e : Edit) (s : Session) :
    (e.onSession s).2 = s ∨
      ∃ status v, status.severity = .info ∧ e.onSession s = (.ok status, s.showing v) := by
  rw [onSession, call_eq]
  cases e.lacksKey with
  | true => exact .inl rfl
  | false =>
    simp only [Bool.false_eq_true, if_false]
    cases s.root with
    | error f => exact .inl rfl
    | ok root =>
      simp only [ok_bind]
      cases e.trimmed.engine root with
      | error f => exact .inl rfl
      | ok result =>
        obtain ⟨v, count⟩ := result
        simp only [ok_bind]
        cases hidle : e.idle count with
        | true => exact .inl rfl
        | false =>
          rw [← e.idle_trimmed] at hidle
          exact .inr ⟨_, v, info_of_not_idle hidle, rfl⟩

/-! ## Operations -/

inductive Operation where
  | setText (text : String)
  | setOptions (options : SessionOptions)
  | format
  | keys
  | search (request : SearchRequest)
  | clearSearch
  | renderHtml
  | edit (e : Edit)
  | reset

inductive Reply where
  | done
  | formatted (formatted : Formatted)
  | keys (keys : List String)
  | found (outcome : SearchOutcome)
  | text (text : String)
  | status (status : Status)

def Reply.status? : Reply → Option Status
  | found outcome => some outcome.status
  | status s => some s
  | _ => none

namespace Operation

def perform : Operation → InPlace Reply
  | setText text => do
    modify (·.setText text)
    return .done
  | setOptions options => do
    modify (·.setOptions options)
    return .done
  | format => do return .formatted (← InPlace.reading Session.format)
  | keys => do return .keys (← get).keys
  | search request => do return .found (← InPlace.reading (·.search request))
  | clearSearch => do return .text (← InPlace.reading Session.clearSearch)
  | renderHtml => do return .text (← InPlace.reading Session.renderHtml)
  | edit e => do return .status (← InPlace.edit e)
  | reset => do
    let (s, status) := (← get).reset
    set s
    return .status status

def looks : Operation → Bool
  | format | keys | search _ | clearSearch | renderHtml => true
  | setText _ | setOptions _ | edit _ | reset => false

end Operation

/-- One operation of a run with the session before and after it. -/
structure Turn where
  before : Session
  operation : Operation
  answer : Except Failure Reply
  after : Session

namespace Turn

def of (s : Session) (o : Operation) : Turn :=
  ⟨s, o, (o.perform.on s).1, (o.perform.on s).2⟩

/-- Whether the operation was refused or has a status other than that of success. -/
def declined (t : Turn) : Bool :=
  match t.answer with
  | .ok reply => reply.status?.any (·.severity != .info)
  | .error _ => true

/-- What holds of every operation on a session that was started with the text `initial`. -/
structure Lawful (initial : String) (t : Turn) : Prop where
  declined : t.declined = true → t.after = t.before
  looks : t.operation.looks = true → t.after = t.before
  options : (∀ options, t.operation ≠ .setOptions options) → t.after.options = t.before.options
  reset : t.operation = .reset → t.after.text = initial
  edited : ∀ e, t.operation = .edit e →
    t.answer = (e.onSession t.before).1.map .status ∧ t.after = (e.onSession t.before).2

end Turn

def run : List Operation → Session → List Turn
  | [], _ => []
  | o :: rest, s => Turn.of s o :: run rest (Turn.of s o).after

namespace Turn

theorem of_looks {o : Operation} (h : o.looks = true) (s : Session) : (of s o).after = s := by
  cases o with
  | format => rw [of, Operation.perform, InPlace.on_reply]
  | keys => rfl
  | search request => rw [of, Operation.perform, InPlace.on_reply]
  | clearSearch => rw [of, Operation.perform, InPlace.on_reply]
  | renderHtml => rw [of, Operation.perform, InPlace.on_reply]
  | setText text => cases h
  | setOptions options => cases h
  | edit e => cases h
  | reset => cases h

/-- An edit in a run answers and changes the session as the call does. -/
theorem of_edit (e : Edit) (s : Session) :
    of s (.edit e) = ⟨s, .edit e, (e.onSession s).1.map .status, (e.onSession s).2⟩ := by
  rw [of, Operation.perform, InPlace.on_bind, InPlace.on_edit]
  rcases e.onSession s with ⟨f | status, s'⟩ <;> rfl

/-- An operation leaves the session as it is, or it is not declined and replaces the text or, as a
change of options, the options. -/
theorem of_cases (s : Session) (o : Operation) :
    (of s o).after = s ∨
      (of s o).declined = false ∧
        ((∃ text, (of s o).after = s.setText text) ∨
          ∃ options, o = .setOptions options ∧ (of s o).after = s.setOptions options) := by
  cases o with
  | setText text => exact .inr ⟨rfl, .inl ⟨text, rfl⟩⟩
  | setOptions options => exact .inr ⟨rfl, .inr ⟨options, rfl, rfl⟩⟩
  | reset => exact .inr ⟨rfl, .inl ⟨s.initial, rfl⟩⟩
  | edit e =>
    rw [of_edit]
    rcases e.onSession_cases s with h | ⟨status, v, hinfo, h⟩
    · exact .inl h
    · rw [h]
      refine .inr ⟨?_, .inl ⟨s.pretty v, rfl⟩⟩
      change (status.severity != .info) = false
      rw [hinfo]
      rfl
  | _ => exact .inl (of_looks rfl s)

theorem initial_of (s : Session) (o : Operation) : (of s o).after.initial = s.initial := by
  rcases of_cases s o with h | ⟨-, ⟨text, h⟩ | ⟨options, -, h⟩⟩ <;> rw [h] <;> rfl

theorem options_of {s : Session} {o : Operation} (hopt : ∀ options, o ≠ .setOptions options) :
    (of s o).after.options = s.options := by
  rcases of_cases s o with h | ⟨-, ⟨text, h⟩ | ⟨options, ho, -⟩⟩
  · rw [h]
  · rw [h]
    rfl
  · exact absurd ho (hopt options)

theorem after_of_declined {s : Session} {o : Operation} (hdecl : (of s o).declined = true) :
    (of s o).after = s := by
  rcases of_cases s o with h | ⟨hnot, -⟩
  · exact h
  · rw [hdecl] at hnot
    cases hnot

theorem lawful_of (s : Session) (o : Operation) : (of s o).Lawful s.initial where
  declined := after_of_declined
  looks h := of_looks h s
  options := options_of
  reset h := by
    obtain rfl : o = .reset := h
    rfl
  edited e h := by
    obtain rfl : o = .edit e := h
    rw [of_edit]
    exact ⟨rfl, rfl⟩

end Turn

theorem lawful_of_mem_run {operations : List Operation} {s : Session} :
    ∀ t ∈ run operations s, t.Lawful s.initial := by
  induction operations generalizing s with
  | nil => exact fun _ ht => nomatch ht
  | cons o rest ih =>
    rw [run, List.forall_mem_cons]
    refine ⟨Turn.lawful_of s o, fun t ht => ?_⟩
    rw [← Turn.initial_of s o]
    exact ih t ht

/-- In every run of a session, what is refused or only warned about changes nothing, looking changes
nothing, only a change of options changes them, a reset brings back the first text, and an edit
does what the call does. -/
theorem run_lawful (text : String) (options : SessionOptions) (operations : List Operation) :
    ∀ t ∈ run operations (Session.start text options), t.Lawful text :=
  lawful_of_mem_run

def bothKeys : Session :=
  ⟨"\x7b\"a\": 1, \"b\": 2\x7d", "[1]", ⟨⟨false, 0⟩, 10, 2⟩⟩

/-- A run with a rename that is refused, one that finds nothing, and an edit that is undone. -/
def mixedRun : List Operation :=
  [.setText bothKeys.text, .edit (.rename "a" "b"), .edit (.rename "x" "y"),
    .edit (.set "c" "3"), .keys, .reset]

def refusedTurn : Turn :=
  ⟨bothKeys, .edit (.rename "a" "b"), .error (.renameConflict "b"), bothKeys⟩

theorem refusedTurn_lawful :
    refusedTurn ∈ run mixedRun (Session.start "[1]" ⟨⟨false, 0⟩, 10, 2⟩) ∧
      refusedTurn.Lawful "[1]" := by
  have hrefused : ((Edit.rename "a" "b").onSession bothKeys).1 = .error (.renameConflict "b") := by
    decide +kernel
  have hturn : Turn.of bothKeys (.edit (.rename "a" "b")) = refusedTurn := by
    rw [Turn.of_edit, hrefused]
    rcases (Edit.rename "a" "b").onSession_cases bothKeys with h | ⟨status, v, -, h⟩
    · rw [h]
      rfl
    · rw [h] at hrefused
      cases hrefused
  have hmem : refusedTurn ∈ run mixedRun (Session.start "[1]" ⟨⟨false, 0⟩, 10, 2⟩) := by
    rw [← hturn]
    exact List.mem_cons_of_mem _ List.mem_cons_self
  exact ⟨hmem, run_lawful "[1]" ⟨⟨false, 0⟩, 10, 2⟩ mixedRun refusedTurn hmem⟩

end JsonInspect
