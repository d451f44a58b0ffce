import JsonInspect.Proofs.Files.Paths
import JsonInspect.Proofs.Files.Replacing

/-! # What a save leaves alone

A save is for its target and, if one is wished for, for its backup. It leaves all other places as
they were, and the target as well if it fails, exactly as long as no file lies at the path that it
takes for its temporary file (`save_spares_iff`). A file of that name is overwritten or removed,
even if it is the target itself. -/

namespace JsonInspect

open Volume

/-- The place of the backup that a save is to make. -/
def Volume.IsBackup (v : Volume) (backup : Bool) (path : String) (place : List String) : Prop :=
  backup = true ∧ ∃ neighbour, FilePath.withSuffix? path ".bak" = some neighbour ∧
    v.locate neighbour = .ok place

/-- A save that ended with `r` and made `w` of the volume `v` left a place alone: it did so if the
place is neither that of the target nor that of the backup, and if it failed and the place is that
of the target. -/
structure Spared (v w : Volume) (backup : Bool) (path : String) (r : Except FileFault Unit)
    (place : List String) : Prop where
  other : v.locate path ≠ .ok place → ¬ v.IsBackup backup path place →
    w.entry? place = v.entry? place
  target : r ≠ .ok () → v.locate path = .ok place → w.entry? place = v.entry? place

variable {v u w : Volume} {backup : Bool} {path : String} {place : List String}
  {bytes : List UInt8} {r : Except FileFault Unit}

/-! ## The backup -/

theorem BackedUp.sameFolders (h : BackedUp v path u) : SameFolders v u := by
  cases h with
  | not => exact .refl v
  | copied _ _ htarget left => exact .put (writable_eq_ok_iff.mp htarget).2.1 left

theorem BackedUp.entry?_of_not_backup (h : BackedUp v path u)
    (hplace : ¬ v.IsBackup true path place) : u.entry? place = v.entry? place := by
  cases h with
  | not => rfl
  | @copied _ goal _ _ _ hneighbour htarget left =>
    refine entry?_put_of_ne v ?_ _
    rintro rfl
    exact hplace ⟨rfl, _, hneighbour, (writable_eq_ok_iff.mp htarget).1⟩

/-- A backup does not touch the file that it is made of. -/
theorem BackedUp.entry?_of_target (h : BackedUp v path u) (hplace : v.locate path = .ok place) :
    u.entry? place = v.entry? place := by
  cases h with
  | not => rfl
  | @copied source goal _ _ hsource hneighbour htarget left =>
    have hne := backup_ne hsource hneighbour (writable_eq_ok_iff.mp htarget).1
    obtain rfl := Except.ok.inj ((find_file_iff.mp hsource).1.symm.trans hplace)
    exact entry?_put_of_ne v hne.symm _

/-! ## The target -/

theorem Replaced.entry?_eq (h : Replaced u path bytes r w)
    (htarget : r = .ok () → u.locate path ≠ .ok place)
    (hfree : ∀ bytes, u.find (temporaryPath path) ≠ .ok (place, .file bytes)) :
    w.entry? place = u.entry? place := by
  cases h with
  | @done goal hgoal =>
    have hne : place ≠ goal := by
      rintro rfl
      exact htarget rfl (writable_eq_ok_iff.mp (movable_eq_ok_iff.mp hgoal).1).1
    rw [entry?_put_of_ne _ hne, entry?_without hfree]
  | failed fault => exact entry?_without hfree

/-- A place at which no file lies in the way of the temporary one is left alone. -/
theorem Saved.spared (h : Saved v backup path bytes r w)
    (hfree : ∀ bytes, v.find (temporaryPath path) ≠ .ok (place, .file bytes)) :
    Spared v w backup path r place := by
  have hafter {u : Volume} (hfolders : SameFolders v u) (hsame : u.entry? place = v.entry? place)
      (hreplaced : Replaced u path bytes r w) (htarget : r = .ok () → v.locate path ≠ .ok place) :
      w.entry? place = v.entry? place := by
    rw [hreplaced.entry?_eq (fun hr => mt hfolders.locate_iff.mpr (htarget hr)) ?_, hsame]
    intro bytes hfind
    obtain ⟨hlocate, hentry, hslash⟩ := find_file_iff.mp hfind
    rw [hsame] at hentry
    exact hfree bytes (find_file_iff.mpr ⟨hfolders.locate_iff.mpr hlocate, hentry, hslash⟩)
  cases h with
  | stopped fault asked kept =>
    refine ⟨fun _ hbackup => kept.entry?_of_not_backup ?_, fun _ => kept.entry?_of_target⟩
    rwa [asked] at hbackup
  | passed asked kept replaced =>
    refine ⟨fun hother hbackup => ?_, fun hfailed htarget => ?_⟩
    · rw [asked] at hbackup
      exact hafter kept.sameFolders (kept.entry?_of_not_backup hbackup) replaced fun _ => hother
    · exact hafter kept.sameFolders (kept.entry?_of_target htarget) replaced
        fun hr => absurd hr hfailed
  | direct replaced =>
    exact ⟨fun hother _ => hafter (.refl v) rfl replaced fun _ => hother,
      fun hfailed _ => hafter (.refl v) rfl replaced fun hr => absurd hr hfailed⟩

/-! ## The temporary file -/

theorem replaceFile_ne_ok {compress : Bool} {mishap : Mishap} {rest : List (Option Mishap)}
    {t : Flaky}
    (h : (replaceFile Flaky.disk path compress bytes).run ⟨v, some mishap :: rest⟩ = (r, t)) :
    r ≠ .ok () := by
  rintro rfl
  obtain ⟨u, hfirst, -⟩ := cleaned_up h
  rcases run_andThen_eq.mp hfirst with ⟨_, -, herror⟩ | ⟨_, _, hwrite, -⟩
  · cases herror
  · rw [writeTemporary] at hwrite
    rcases run_andThen_eq.mp hwrite with ⟨_, -, herror⟩ | ⟨_, _, hcreate, -⟩
    · cases herror
    · cases congrArg Prod.fst hcreate

/-- If not even the temporary file can be made, a save fails, and still removes what lies at the
temporary path. -/
theorem fails_without_temporary {pack : List UInt8 → List UInt8} {text : String} {mishap : Mishap}
    {rest : List (Option Mishap)} {t : Flaky}
    (h : (saveTextWith pack Flaky.disk false path text).run ⟨v, some mishap :: rest⟩ = (r, t)) :
    r ≠ .ok () ∧ t.volume = v.without (temporaryPath path) := by
  rw [saveTextWith_eq, run_bind_eq] at h
  obtain ⟨needed, u, hneeded, hsave⟩ := h
  cases hneeded
  have hfailed := replaceFile_ne_ok hsave
  have hreplaced := replaceFile_replaced hsave
  generalize t.volume = w at hreplaced ⊢
  cases hreplaced with
  | done => exact absurd rfl hfailed
  | failed fault => exact ⟨hfailed, rfl⟩

theorem spared_of_free (pack : List UInt8 → List UInt8) (backup : Bool) (text : String)
    (mishaps : List (Option Mishap))
    (hfree : ∀ bytes, v.find (temporaryPath path) ≠ .ok (place, .file bytes)) :
    let save := (saveTextWith pack Flaky.disk backup path text).run ⟨v, mishaps⟩
    Spared v save.2.volume backup path save.1 place := by
  intro save
  have hsaved := saveTextWith_saved (show _ = (save.1, save.2) from rfl)
  exact hsaved.spared hfree

/-- On the disk of a volume a save has no mishaps, and the temporary path has to be free as well. -/
theorem spared_on_volume (pack : List UInt8 → List UInt8) (backup : Bool) (text : String)
    (hfree : ∀ bytes, v.find (temporaryPath path) ≠ .ok (place, .file bytes)) :
    let save := (saveTextWith pack Volume.disk backup path text).run v
    Spared v save.2 backup path save.1 place := by
  intro save
  have hsaved := saved_on_volume (show _ = (save.1, save.2) from rfl)
  exact hsaved.spared hfree

/-- Every save leaves all places alone but that of the temporary path. All of them are left alone by
every save, whatever goes wrong, exactly if no file lies at the temporary path. -/
theorem save_spares_iff (pack : List UInt8 → List UInt8) (v : Volume) (path : String) :
    (∀ backup text mishaps place, v.locate (temporaryPath path) ≠ .ok place →
      let save := (saveTextWith pack Flaky.disk backup path text).run ⟨v, mishaps⟩
      Spared v save.2.volume backup path save.1 place) ∧
    ((∀ backup text mishaps place,
      let save := (saveTextWith pack Flaky.disk backup path text).run ⟨v, mishaps⟩
      Spared v save.2.volume backup path save.1 place) ↔
      ∀ place bytes, v.find (temporaryPath path) ≠ .ok (place, .file bytes)) := by
  refine ⟨fun backup text mishaps place hplace => ?_, fun hspared place bytes hfind => ?_,
    fun hfree backup text mishaps place => spared_of_free pack backup text mishaps (hfree place)⟩
  · exact spared_of_free pack backup text mishaps fun bytes hfind =>
      hplace (find_file_iff.mp hfind).1
  · -- The save cannot make the file that is there already, and cleans it up all the same.
    obtain ⟨hother, htarget⟩ := hspared false "" [some ⟨.busy, none⟩] place
    obtain ⟨save, hsave⟩ : ∃ save, (saveTextWith pack Flaky.disk false path "").run
        ⟨v, [some ⟨.busy, none⟩]⟩ = save := ⟨_, rfl⟩
    rw [hsave] at hother htarget
    obtain ⟨hfailed, hgone⟩ := fails_without_temporary hsave
    obtain ⟨-, hentry, -⟩ := find_file_iff.mp hfind
    have hmissing : entry? (v.without (temporaryPath path)) place ≠ v.entry? place := by
      rw [without_of_find hfind, entry?_erase_self v (ne_nil_of_entry?_ne (by rw [hentry]; simp)),
        hentry]
      exact (Option.some_ne_none _).symm
    rw [hgone] at hother htarget
    by_cases hplace : v.locate path = .ok place
    · exact hmissing (htarget hfailed hplace)
    · exact hmissing (hother hplace fun hbackup => Bool.false_ne_true hbackup.1)

/-- Without any mishap a save to `data.json` takes away a file `data.tmp`, and a disk that fills up
takes away what was in `data.tmp` from a save to `data.tmp` itself. -/
theorem neighbour_not_spared :
    let v : Volume := ⟨[(["data.tmp"], .file [0x31])]⟩
    let full : Mishap := ⟨.other "No space left on device (os error 28)", some 1⟩
    let beside := (saveText Flaky.disk false "data.json" "[]").run ⟨v, []⟩
    let within := (saveText Flaky.disk false "data.tmp" "[]").run ⟨v, [none, some full]⟩
    beside.1 = .ok () ∧ ¬ Spared v beside.2.volume false "data.json" beside.1 ["data.tmp"] ∧
      within.1 = .error (.temporaryWrite full.fault) ∧
      ¬ Spared v within.2.volume false "data.tmp" within.1 ["data.tmp"] := by
  intro v full beside within
  have hbefore : v.entry? ["data.tmp"] = some (.file [0x31]) := rfl
  have hbeside : entry? beside.2.volume ["data.tmp"] = none := rfl
  have hwithin : entry? within.2.volume ["data.tmp"] = none := rfl
  have htarget : v.locate "data.json" = .ok ["data.json"] := rfl
  refine ⟨rfl, fun hspared => ?_, rfl, fun hspared => ?_⟩
  · have hother : v.locate "data.json" ≠ .ok ["data.tmp"] := by
      rw [htarget]
      exact fun hsame => absurd (Except.ok.inj hsame) (by decide)
    have hsame := hspared.other hother fun hbackup => Bool.false_ne_true hbackup.1
    rw [hbefore, hbeside] at hsame
    cases hsame
  · have hsame := hspared.target (error_ne_ok _ _) rfl
    rw [hbefore, hwithin] at hsame
    cases hsame

end JsonInspect
