import JsonInspect.Files.Save
import JsonInspect.Files.Volume
import JsonInspect.Proofs.Json.Locality
import JsonInspect.Proofs.Text.Trim
import JsonInspect.Session

/-! # What may be saved as JSON

Saving reads the text as it is, a session without the blanks at its ends. So a text that a session
reads is saved exactly if these blanks are gaps (`saveOutput_as_parsed`). What a session writes has
no blanks there and is saved if it can be read at all (`saveOutput_pretty`). -/

namespace JsonInspect

open Json

/-- Whether the blanks at both ends of a text may stand between tokens. -/
def Json.gapsAtEnds (text : String) : Bool :=
  (text.toList.takeWhile isBlank).all isGap && (text.toList.rtakeWhile isBlank).all isGap

namespace Json

/-- A text is read as it is exactly if it is read when it is trimmed and only gaps are trimmed. -/
theorem read_eq_ok_iff {text : String} {v : Json} :
    read text = .ok v ↔ parse text = .ok v ∧ gapsAtEnds text = true := by
  rw [read, mapError_eq_ok, parse_eq_ok]
  conv_lhs => rw [← trimChars_between text.toList]
  rw [document_between_blanks _ (fun _ hc => List.mem_takeWhile_imp hc)
    fun _ hc => List.mem_rtakeWhile_imp hc]
  refine and_congr_right fun hread => ?_
  have hne : trimChars text.toList ≠ [] := fun hnil => by
    rw [hnil] at hread
    cases hread
  rw [gapsAtEnds, rtakeWhile_dropWhile hne, Bool.and_eq_true, List.all_eq_true, List.all_eq_true]
  rfl

end Json

/-! ## Saving -/

section

variable {m : Type → Type} [Monad m] (disk : Disk m) (backup : Bool)

theorem saveOutput_of_read {path text : String} {v : Json} (h : Json.read text = .ok v) :
    saveOutput disk backup path text = saveText disk backup path text := by
  rw [saveOutput, saveOutputWith, h, saveText]

theorem saveOutput_of_error {path text : String} {error : ReadError}
    (h : Json.read text = .error error) :
    saveOutput disk backup path text = pure (.error (.invalidOutput error)) := by
  rw [saveOutput, saveOutputWith, h]

/-- The indented text of a value that a session can hold is saved. -/
theorem saveOutput_pretty {v : Json} (path : String) (width : Nat) (hw : v.wellFormed = true)
    (hd : v.depth ≤ greatestDepth) :
    saveOutput disk backup path (v.pretty width) = saveText disk backup path (v.pretty width) := by
  refine saveOutput_of_read disk backup (v := v.reread) ?_
  have hparse := parse_pretty width hw hd
  rw [Json.pretty_eq] at hparse ⊢
  rwa [parse, trim, String.toList_ofList, trimChars_write _ hw] at hparse

/-- A text that can be read once it is trimmed is saved if nothing but gaps is trimmed. With other
blanks at its ends it is refused, as is any text that cannot be read. -/
theorem saveOutput_as_parsed (path text : String) :
    (∀ v, Json.read text = .ok v ↔ Json.parse text = .ok v ∧ gapsAtEnds text = true) ∧
    if (Json.parse text).isOk ∧ gapsAtEnds text then
      saveOutput disk backup path text = saveText disk backup path text
    else
      ∃ error, Json.read text = .error error ∧
        saveOutput disk backup path text = pure (.error (.invalidOutput error)) := by
  refine ⟨fun v => read_eq_ok_iff, ?_⟩
  cases hread : Json.read text with
  | ok v =>
    have h := read_eq_ok_iff.mp hread
    have hok : (Json.parse text).isOk = true := by rw [h.1]; rfl
    rw [if_pos ⟨hok, h.2⟩]
    exact saveOutput_of_read disk backup hread
  | error e =>
    rw [if_neg]
    · exact ⟨e, rfl, saveOutput_of_error disk backup hread⟩
    · rintro ⟨hok, hgaps⟩
      cases hparse : Json.parse text with
      | error e =>
        rw [hparse] at hok
        cases hok
      | ok v =>
        rw [read_eq_ok_iff.mpr ⟨hparse, hgaps⟩] at hread
        cases hread

end

/-- A no-break space in front of a document keeps a session from nothing: it reads the text and
leaves it as it is if there is nothing to rename. Saving refuses it. -/
theorem noBreakSpace_refused :
    let s := Session.start "\u00a0\x7b\x7d" ⟨⟨false, 2⟩, 10, 2⟩
    s.root = .ok (.obj []) ∧ s.rename "a" "b" = .ok (s, .warning "Key 'a' not found") ∧
      (saveOutput Volume.disk false "out.json" s.text).run Volume.empty =
        (.error (.invalidOutput ⟨.noValue, ⟨1, 1⟩⟩), Volume.empty) :=
  ⟨rfl, rfl, rfl⟩

end JsonInspect
