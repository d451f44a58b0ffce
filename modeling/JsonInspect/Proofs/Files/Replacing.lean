import JsonInspect.Proofs.Files.Mishaps

/-! # What a save makes of a volume

A file that is written by way of a temporary one is there in full, or nothing has changed but that
no file lies at the temporary path any more (`replaceFile_replaced`). A backup comes first, and may
be left behind in part (`saveTextWith_saved`). So it is on a disk that fails as well as on one that
does not (`saved_on_volume`). -/

namespace JsonInspect

open Volume

/-! ## Outcomes -/

/-- A volume without the file that a path leads to, if it leads to one. -/
def Volume.without (v : Volume) (path : String) : Volume :=
  match v.remove path with
  | .ok w => w
  | .error _ => v

/-- What writing a new file may make of a volume. -/
inductive Written (v : Volume) (path : String) (bytes : List UInt8) :
    Except FileFault Unit → Volume → Prop where
  | whole {place : List String} (h : v.writable path = .ok place) :
    Written v path bytes (.ok ()) (v.put place (.file bytes))
  | nothing (fault : FileFault) : Written v path bytes (.error fault) v
  | part {place : List String} (fault : FileFault) (h : v.writable path = .ok place)
    (left : List UInt8) : Written v path bytes (.error fault) (v.put place (.file left))

/-- What writing a file by way of a temporary one may make of a volume. -/
inductive Replaced (v : Volume) (path : String) (bytes : List UInt8) :
    Except FileFault Unit → Volume → Prop where
  | done {goal : List String} (target : v.movable path = .ok goal) :
    Replaced v path bytes (.ok ()) ((v.without (temporaryPath path)).put goal (.file bytes))
  | failed (fault : FileFault) :
    Replaced v path bytes (.error fault) (v.without (temporaryPath path))

/-- What keeping a backup of a file may make of a volume. -/
inductive BackedUp (v : Volume) (path : String) : Volume → Prop where
  | not : BackedUp v path v
  | copied {place goal : List String} {bytes : List UInt8} {backup : String}
    (source : v.find path = .ok (place, .file bytes))
    (neighbour : FilePath.withSuffix? path ".bak" = some backup)
    (target : v.writable backup = .ok goal) (left : List UInt8) :
    BackedUp v path (v.put goal (.file left))

/-- What a save may make of a volume: it ends with the backup, or goes on to the target. -/
inductive Saved (v : Volume) (backup : Bool) (path : String) (bytes : List UInt8) :
    Except FileFault Unit → Volume → Prop where
  | stopped {u : Volume} (fault : FileFault) (asked : backup = true) (kept : BackedUp v path u) :
    Saved v backup path bytes (.error fault) u
  | passed {u w : Volume} {r : Except FileFault Unit} (asked : backup = true)
    (kept : BackedUp v path u) (replaced : Replaced u path bytes r w) :
    Saved v backup path bytes r w
  | direct {w : Volume} {r : Except FileFault Unit} (replaced : Replaced v path bytes r w) :
    Saved v backup path bytes r w

theorem Volume.without_of_find {v : Volume} {path : String} {place : List String}
    {bytes : List UInt8} (h : v.find path = .ok (place, .file bytes)) :
    v.without path = v.erase place := by
  rw [without, remove_eq_ok_iff.mpr ⟨place, bytes, h, rfl⟩]

theorem Volume.without_eq_self {v : Volume} {path : String}
    (h : ∀ place bytes, v.find path ≠ .ok (place, .file bytes)) : v.without path = v := by
  rw [without]
  split
  · next w hremove =>
    obtain ⟨place, bytes, hfind, -⟩ := remove_eq_ok_iff.mp hremove
    exact absurd hfind (h place bytes)
  · rfl

/-- At a place that can be written there is nothing but perhaps a file. -/
theorem Volume.without_of_writable {v : Volume} {path : String} {place : List String}
    (h : v.writable path = .ok place) : v.without path = v.erase place := by
  obtain ⟨hlocate, hfile, hslash⟩ := writable_eq_ok_iff.mp h
  cases hentry : v.entry? place with
  | none =>
    rw [erase_eq_self hentry]
    refine without_eq_self fun place' bytes hfind => ?_
    obtain ⟨hlocate', hentry', -⟩ := find_file_iff.mp hfind
    rw [← Except.ok.inj (hlocate.symm.trans hlocate'), hentry] at hentry'
    cases hentry'
  | some e =>
    cases e with
    | folder => exact absurd hentry hfile
    | file bytes => exact without_of_find (find_file_iff.mpr ⟨hlocate, hentry, hslash⟩)

theorem Volume.SameFolders.without (v : Volume) (path : String) :
    SameFolders v (v.without path) := by
  rw [Volume.without]
  split
  · next w hremove =>
    obtain ⟨place, bytes, hfind, rfl⟩ := remove_eq_ok_iff.mp hremove
    refine .erase fun hfolder => ?_
    rw [(find_file_iff.mp hfind).2.1] at hfolder
    cases hfolder
  · exact .refl v

/-- Only the file that the path leads to is missing. -/
theorem Volume.entry?_without {v : Volume} {path : String} {place : List String}
    (h : ∀ bytes, v.find path ≠ .ok (place, .file bytes)) :
    entry? (v.without path) place = v.entry? place := by
  rw [Volume.without]
  split
  · next w hremove =>
    obtain ⟨gone, bytes, hfind, rfl⟩ := remove_eq_ok_iff.mp hremove
    refine entry?_erase_of_ne v ?_
    rintro rfl
    exact h bytes hfind
  · rfl

theorem Volume.without_of_not_hasPath {v : Volume} {path : String} (h : v.hasPath path = false) :
    v.without path = v := by
  refine without_eq_self fun place bytes hfind => ?_
  rw [hasPath, hfind] at h
  cases h

theorem Flaky.remove_volume {s t : Flaky} {path : String} {r : Except DiskFault Unit}
    (h : (Flaky.disk.remove path).run s = (r, t)) : t.volume = s.volume.without path := by
  change perform (·.remove path) s = (r, t) at h
  rw [Volume.without]
  cases r with
  | ok _ => rw [perform_eq_ok h]
  | error fault =>
    rw [perform_eq_error h]
    split
    · next w hremove =>
      rw [perform, hremove] at h
      cases h
    · rfl

/-! ## Runs -/

section

variable {v : Volume} {s t : Flaky} {path : String} {bytes : List UInt8}
  {r : Except FileFault Unit}

theorem writeTemporary_written {compress : Bool}
    (h : (writeTemporary Flaky.disk path compress bytes).run s = (r, t)) :
    Written s.volume path bytes r t.volume := by
  rw [writeTemporary, run_andThen_eq] at h
  rcases h with ⟨fault, hcreate, rfl⟩ | ⟨_, u, hcreate, h⟩
  · rcases Flaky.attempt_eq_error hcreate with hsame | ⟨_, hpart⟩
    · rw [hsame]
      exact .nothing _
    · obtain ⟨place, hplace, hput⟩ := write_eq_ok_iff.mp hpart
      rw [hput]
      exact .part _ hplace []
  · obtain ⟨place, hplace, hput⟩ := write_eq_ok_iff.mp (Flaky.attempt_eq_ok hcreate)
    rw [run_andThen_eq] at h
    rcases h with ⟨fault, hwrite, rfl⟩ | ⟨_, u', hwrite, h⟩
    · rcases Flaky.attempt_eq_error hwrite with hsame | ⟨count, hpart⟩
      · rw [hsame, hput]
        exact .part _ hplace []
      · rw [hput, write_put hplace] at hpart
        rw [← Except.ok.inj hpart]
        exact .part _ hplace _
    · have hwhole := Flaky.attempt_eq_ok hwrite
      rw [hput, write_put hplace] at hwhole
      cases h
      rw [← Except.ok.inj hwhole]
      exact .whole hplace

theorem Written.exists_place {w : Volume} (h : Written v path bytes (.ok ()) w) :
    ∃ place, v.writable path = .ok place ∧ w = v.put place (.file bytes) := by
  cases h with
  | whole hplace => exact ⟨_, hplace, rfl⟩

theorem Written.without_eq {w : Volume} (h : Written v path bytes r w) :
    w.without path = v.without path := by
  have herased {place : List String} (hplace : v.writable path = .ok place) (left : List UInt8) :
      (v.put place (.file left)).without path = v.without path := by
    have hfolders := SameFolders.put (writable_eq_ok_iff.mp hplace).2.1 left
    rw [without_of_writable (hfolders.writable_iff.mp hplace), erase_put,
      without_of_writable hplace]
  cases h with
  | whole hplace => exact herased hplace _
  | nothing => rfl
  | part _ hplace left => exact herased hplace left

/-- Up to the clean-up the file is at the target in full, or only a temporary one is there. -/
theorem moved_or_written {temporary : String} {compress : Bool}
    (h : (andThen (writeTemporary Flaky.disk temporary compress bytes) id fun _ =>
      andThen (Flaky.disk.rename temporary path) .temporaryRename fun _ => pure (.ok ())).run s =
        (r, t)) :
    (∃ place goal, s.volume.writable temporary = .ok place ∧ s.volume.movable path = .ok goal ∧
      r = .ok () ∧ t.volume = (s.volume.erase place).put goal (.file bytes)) ∨
    ∃ fault, r = .error fault ∧ Written s.volume temporary bytes (.error fault) t.volume := by
  rw [run_andThen_eq] at h
  rcases h with ⟨fault, hwrite, rfl⟩ | ⟨_, u, hwrite, h⟩
  · exact .inr ⟨fault, rfl, writeTemporary_written hwrite⟩
  obtain ⟨place, hplace, hput⟩ := (writeTemporary_written hwrite).exists_place
  rw [run_andThen_eq] at h
  rcases h with ⟨fault, hrename, rfl⟩ | ⟨_, u', hrename, h⟩
  · have hsame : t.volume = u.volume := by
      rcases Flaky.attempt_eq_error hrename with hsame | ⟨_, hpart⟩
      · exact hsame
      · exact (Except.ok.inj hpart).symm
    rw [hsame, hput]
    exact .inr ⟨_, rfl, .part _ hplace bytes⟩
  · have hmoved := Flaky.attempt_eq_ok hrename
    rw [hput, rename_put_eq_ok_iff hplace] at hmoved
    obtain ⟨goal, hgoal, hmoved⟩ := hmoved
    cases h
    exact .inl ⟨place, goal, hplace, hgoal, rfl, hmoved⟩

/-- The clean-up does not change how a save ends, and comes after every failure. -/
theorem cleaned_up {compress : Bool}
    (h : (replaceFile Flaky.disk path compress bytes).run s = (r, t)) :
    ∃ u, (andThen (writeTemporary Flaky.disk (temporaryPath path) compress bytes) id fun _ =>
        andThen (Flaky.disk.rename (temporaryPath path) path) .temporaryRename fun _ =>
          pure (.ok ())).run s = (r, u) ∧
      (r = .ok () → t.volume = u.volume) ∧
      (r ≠ .ok () → t.volume = u.volume.without (temporaryPath path)) := by
  rw [replaceFile, run_bind_eq] at h
  obtain ⟨result, u, hfirst, hrest⟩ := h
  cases result with
  | ok _ =>
    cases hrest
    exact ⟨t, hfirst, fun _ => rfl, fun hfailed => absurd rfl hfailed⟩
  | error fault =>
    dsimp only at hrest
    rw [run_bind_eq] at hrest
    obtain ⟨there, u', hthere, hclean⟩ := hrest
    have hlook := Flaky.hasPath_eq hthere
    rw [hlook.1, ← hlook.2] at hclean
    cases hhas : u.volume.hasPath (temporaryPath path) with
    | false =>
      rw [hhas] at hclean
      cases hclean
      exact ⟨t, hfirst, fun _ => rfl, fun _ => (without_of_not_hasPath hhas).symm⟩
    | true =>
      rw [hhas, if_pos rfl, run_bind_eq] at hclean
      obtain ⟨_, u', hremove, hend⟩ := hclean
      cases hend
      exact ⟨u, hfirst, fun hok => absurd hok (error_ne_ok _ _),
        fun _ => Flaky.remove_volume hremove⟩

theorem replaceFile_replaced {compress : Bool}
    (h : (replaceFile Flaky.disk path compress bytes).run s = (r, t)) :
    Replaced s.volume path bytes r t.volume := by
  obtain ⟨u, hfirst, hdone, hfailed⟩ := cleaned_up h
  rcases moved_or_written hfirst with
    ⟨place, goal, hplace, hgoal, rfl, hmoved⟩ | ⟨fault, rfl, hwritten⟩
  · rw [hdone rfl, hmoved, ← without_of_writable hplace]
    exact .done hgoal
  · rw [hfailed (error_ne_ok _ _), hwritten.without_eq]
    exact .failed fault

theorem keepBackup_backedUp (h : (keepBackup Flaky.disk path).run s = (r, t)) :
    BackedUp s.volume path t.volume := by
  rw [keepBackup] at h
  split at h
  · cases h
    exact .not
  · next backup hbackup =>
    rw [run_andThen_eq] at h
    rcases h with ⟨fault, hcopy, rfl⟩ | ⟨_, u, hcopy, h⟩
    · rcases Flaky.attempt_eq_error hcopy with hsame | ⟨count, hpart⟩
      · rw [hsame]
        exact .not
      · obtain ⟨content, hread, hwrite⟩ := bind_eq_ok.mp hpart
        obtain ⟨place, hfind⟩ := read_eq_ok_iff.mp (mapError_eq_ok.mp hread)
        obtain ⟨goal, hgoal, hput⟩ := write_eq_ok_iff.mp hwrite
        rw [hput]
        exact .copied hfind hbackup hgoal _
    · obtain ⟨place, content, hfind, hwrite⟩ := copy_eq_ok_iff.mp (Flaky.attempt_eq_ok hcopy)
      obtain ⟨goal, hgoal, hput⟩ := write_eq_ok_iff.mp hwrite
      cases h
      rw [hput]
      exact .copied hfind hbackup hgoal _

theorem saveTextWith_saved {pack : List UInt8 → List UInt8} {backup : Bool} {text : String}
    (h : (saveTextWith pack Flaky.disk backup path text).run s = (r, t)) :
    Saved s.volume backup path (fileBytes pack (asksCompression path) text) r t.volume := by
  rw [saveTextWith_eq, run_bind_eq] at h
  obtain ⟨needed, u, hneeded, hsave⟩ := h
  cases backup with
  | false =>
    cases hneeded
    exact .direct (replaceFile_replaced hsave)
  | true =>
    obtain ⟨rfl, rfl⟩ := Flaky.hasPath_eq hneeded
    cases hhas : s.volume.hasPath path with
    | false =>
      rw [hhas] at hsave
      exact .direct (replaceFile_replaced hsave)
    | true =>
      rw [hhas] at hsave
      rcases run_andThen_eq.mp hsave with ⟨fault, hkeep, rfl⟩ | ⟨_, u, hkeep, hrest⟩
      · exact .stopped _ rfl (keepBackup_backedUp hkeep)
      · exact .passed rfl (keepBackup_backedUp hkeep) (replaceFile_replaced hrest)

/-- The disk of a volume has no mishaps, so a save to it ends in one of the same ways. -/
theorem saved_on_volume {pack : List UInt8 → List UInt8} {backup : Bool} {text : String}
    {v w : Volume} (h : (saveTextWith pack Volume.disk backup path text).run v = (r, w)) :
    Saved v backup path (fileBytes pack (asksCompression path) text) r w := by
  have hcalm := Flaky.calm_saveTextWith pack backup path text v
  rw [h] at hcalm
  exact saveTextWith_saved hcalm

end

end JsonInspect
