import JsonInspect.Proofs.Json.RoundTrip
import JsonInspect.Proofs.Session.Edits

/-! # Editing the text is editing the value

A session reads its text anew at every call, and reading may change how a number is held. The
calls give the answers that the transformations give on a value carried along in memory, and the
text is that value's text after every one of them (`trace_shows`). -/

namespace JsonInspect

open Json

/-- The answers to edits and the states after them. -/
def trace {σ : Type} (step : Edit → σ → Except Failure Status × σ) :
    List Edit → σ → List (Except Failure Status × σ)
  | [], _ => []
  | e :: rest, s => step e s :: trace step rest (step e s).2

namespace Edit

/-- An edit of a session. A refused one changes nothing. -/
def onSession (e : Edit) (s : Session) : Except Failure Status × Session :=
  match e.call s with
  | .ok (s', status) => (.ok status, s')
  | .error f => (.error f, s)

/-- An edit of a value in memory. A refused one changes nothing. -/
def onValue (e : Edit) (v : Json) : Except Failure Status × Json :=
  match e.engine v with
  | .ok (u, count) => (.ok (e.report count), u)
  | .error f => (.error f, v)

/-- The keys have no blanks around them, and the ones that have to be there are there. -/
def Tidy : Edit → Prop
  | group key => trim key = key ∧ key ≠ ""
  | rename old new => trim old = old ∧ trim new = new
  | set key _ => trim key = key ∧ key ≠ ""
  | aggregate _ => True

instance : DecidablePred Tidy
  | group _ => inferInstanceAs (Decidable (_ ∧ _))
  | rename _ _ => inferInstanceAs (Decidable (_ ∧ _))
  | set _ _ => inferInstanceAs (Decidable (_ ∧ _))
  | aggregate _ => .isTrue trivial

theorem Tidy.trimmed_eq {e : Edit} (h : e.Tidy) : e.trimmed = e := by
  cases e with
  | group key => rw [trimmed, h.1]
  | rename old new => rw [trimmed, h.1, h.2]
  | set key text => rw [trimmed, h.1]
  | aggregate options => rfl

theorem Tidy.lacksKey_eq {e : Edit} (h : e.Tidy) : e.lacksKey = false := by
  cases e with
  | group key => simp [lacksKey, h.1, h.2]
  | rename old new => rfl
  | set key text => simp [lacksKey, h.1, h.2]
  | aggregate options => rfl

end Edit

/-- The values that edits start from are no deeper than what can be read. -/
def Readable : List Edit → Json → Prop
  | [], _ => True
  | e :: rest, v => v.depth ≤ 127 ∧ Readable rest (e.onValue v).2

instance Readable.decidable : (edits : List Edit) → (v : Json) → Decidable (Readable edits v)
  | [], _ => .isTrue trivial
  | e :: rest, v =>
    have := Readable.decidable rest (e.onValue v).2
    inferInstanceAs (Decidable (_ ∧ _))

structure Session.Shows (s : Session) (options : SessionOptions) (v : Json) : Prop where
  options_eq : s.options = options
  text_eq : s.text = v.pretty options.indent
  wellFormed : v.wellFormed = true

section

variable {options : SessionOptions} {s : Session} {v : Json} {e : Edit}

theorem Session.Shows.root_eq (h : s.Shows options v) (hd : v.depth ≤ 127) :
    s.root = .ok v.reread := by
  rw [Session.root, h.text_eq, parse_pretty options.indent h.wellFormed hd]
  rfl

/-- An edit gives the same answer on the text as in memory, and the text shows its result. -/
theorem onSession_step (h : s.Shows options v) (ht : e.Tidy) (hd : v.depth ≤ 127) :
    (e.onSession s).1 = (e.onValue v).1 ∧ (e.onSession s).2.Shows options (e.onValue v).2 := by
  have hsame := e.engine_reread v
  unfold Edit.onSession Edit.onValue
  rw [Edit.call_eq, ht.lacksKey_eq, ht.trimmed_eq, h.root_eq hd]
  simp only [Bool.false_eq_true, if_false, ok_bind]
  cases hv : e.engine v with
  | error f =>
    cases hr : e.engine v.reread with
    | error f' =>
      rw [hv, hr] at hsame
      cases hsame
      exact ⟨rfl, h⟩
    | ok result =>
      rw [hv, hr] at hsame
      cases hsame
  | ok result =>
    obtain ⟨u, count⟩ := result
    cases hr : e.engine v.reread with
    | error f =>
      rw [hv, hr] at hsame
      cases hsame
    | ok result' =>
      obtain ⟨u', count'⟩ := result'
      rw [hv, hr] at hsame
      obtain ⟨hu, rfl⟩ := Prod.mk.inj (Except.ok.inj hsame)
      refine ⟨rfl, ?_⟩
      dsimp only [ok_bind]
      split
      · -- The text was left as it is, and in memory nothing changed either.
        rename_i hidle
        rw [Edit.engine_idle hv hidle]
        exact h
      · refine ⟨h.options_eq, ?_, Edit.engine_wellFormed h.wellFormed hv⟩
        show u'.pretty s.options.indent = _
        rw [h.options_eq, ← pretty_reread u', hu, pretty_reread]

/-- Edits of the text go as the edits of the value that the text shows at first. -/
theorem trace_shows {edits : List Edit} (h : s.Shows options v) (ht : ∀ e ∈ edits, e.Tidy)
    (hd : Readable edits v) :
    (trace Edit.onSession edits s).map (fun (answer, s) => (answer, s.text)) =
      (trace Edit.onValue edits v).map (fun (answer, u) => (answer, u.pretty options.indent)) := by
  induction edits generalizing s v with
  | nil => rfl
  | cons e rest ih =>
    rw [List.forall_mem_cons] at ht
    obtain ⟨hanswer, hshows⟩ := onSession_step h ht.1 hd.1
    rw [trace, trace, List.map_cons, List.map_cons, ih hshows ht.2 hd.2]
    exact congrArg (· :: _) (Prod.ext hanswer hshows.text_eq)

end

/-- A session on the text of a value gives the answers of the transformations in memory, and its
text is the text of the value in memory after every edit. -/
theorem trace_session (options : SessionOptions) (edits : List Edit) (v : Json)
    (hw : v.wellFormed = true) (ht : ∀ e ∈ edits, e.Tidy) (hd : Readable edits v) :
    (trace Edit.onSession edits (Session.start (v.pretty options.indent) options)).map
        (fun (answer, s) => (answer, s.text)) =
      (trace Edit.onValue edits v).map
        (fun (answer, u) => (answer, u.pretty options.indent)) :=
  trace_shows ⟨rfl, rfl, hw⟩ ht hd

/-- Records with whole binary64 numbers, the zero with a minus sign among them. -/
def wholeRecords : Json :=
  .arr [.obj [("id", .num (.double (.ofBits 0x4008000000000000))),
      ("tags", .arr [.num (.double (.zero true)), .str "x"])],
    .obj [("id", .num (.int 3))], .null]

def mixedEdits : List Edit :=
  [.set "id" "4.0", .rename "id" "tags", .rename "missing" "key", .rename "id" "key",
    .group "key", .group "key", .aggregate ⟨.collect, true⟩, .set "a.b" "1"]

theorem mixedEdits_trace :
    wholeRecords.wellFormed = true ∧ (∀ e ∈ mixedEdits, e.Tidy) ∧
      Readable mixedEdits wholeRecords ∧
      (trace Edit.onSession mixedEdits
          (Session.start (wholeRecords.pretty 2) ⟨⟨false, 0⟩, 10, 2⟩)).map
          (fun (answer, s) => (answer, s.text)) =
        (trace Edit.onValue mixedEdits wholeRecords).map
          (fun (answer, u) => (answer, u.pretty 2)) := by
  have hw : wholeRecords.wellFormed = true := by decide
  have ht : ∀ e ∈ mixedEdits, e.Tidy := by decide +kernel
  have hd : Readable mixedEdits wholeRecords := by decide +kernel
  exact ⟨hw, ht, hd, trace_session ⟨⟨false, 0⟩, 10, 2⟩ mixedEdits wholeRecords hw ht hd⟩

end JsonInspect
