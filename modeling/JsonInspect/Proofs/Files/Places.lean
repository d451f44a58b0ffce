import JsonInspect.Files.Volume
import JsonInspect.Proofs.Except
import Mathlib.Tactic.SplitIfs

/-! # Places on a volume

A path leads to a place by folders alone, so files may come and go without a change to where paths
lead (`SameFolders.locate_iff`). What an operation does is said by the places that it needs and by
what is there afterwards (`write_eq_ok_iff`, `rename_eq_ok_iff`, `remove_eq_ok_iff`). -/

namespace JsonInspect.Volume

variable {v w : Volume} {place goal : List String} {path source target name : String}
  {bytes : List UInt8} {e : Entry}

/-! ## Entries -/

theorem entry?_of_ne_nil (h : place ≠ []) : v.entry? place = v.entries.lookup place :=
  if_neg (mt List.isEmpty_iff.mp h)

theorem ne_nil_of_entry?_ne (h : v.entry? place ≠ some .folder) : place ≠ [] := by
  rintro rfl
  exact h rfl

theorem entry?_erase_of_ne (v : Volume) (h : goal ≠ place) :
    entry? (v.erase place) goal = v.entry? goal := by
  by_cases hgoal : goal = []
  · rw [hgoal]
    rfl
  rw [entry?_of_ne_nil hgoal, entry?_of_ne_nil hgoal, erase]
  induction v.entries with
  | nil => rfl
  | cons entry entries ih =>
    obtain ⟨p, e⟩ := entry
    rw [List.filter_cons]
    dsimp only
    by_cases hp : p = place
    · have hlookup : List.lookup goal ((p, e) :: entries) = entries.lookup goal := by
        rw [List.lookup_cons, beq_false_of_ne (hp ▸ h)]
      rw [hlookup, if_neg (by simp [hp]), ih]
    · rw [if_pos (by simp [hp]), List.lookup_cons, List.lookup_cons, ih]

theorem entry?_erase_self (v : Volume) (h : place ≠ []) : entry? (v.erase place) place = none := by
  rw [entry?_of_ne_nil h, erase, List.lookup_eq_none_iff]
  intro entry hentry
  have hne := bne_iff_ne.mp (List.mem_filter.mp hentry).2
  exact bne_iff_ne.mpr hne.symm

theorem entry?_put_self (v : Volume) (h : place ≠ []) (e : Entry) :
    entry? (v.put place e) place = some e := by
  rw [entry?_of_ne_nil h, put, List.lookup_cons, beq_self_eq_true]

theorem entry?_put_of_ne (v : Volume) (h : goal ≠ place) (e : Entry) :
    entry? (v.put place e) goal = v.entry? goal := by
  by_cases hgoal : goal = []
  · rw [hgoal]
    rfl
  rw [← entry?_erase_of_ne v h, entry?_of_ne_nil hgoal, entry?_of_ne_nil hgoal, put,
    List.lookup_cons, beq_false_of_ne h]

theorem erase_put (v : Volume) (place : List String) (e : Entry) :
    (v.put place e).erase place = v.erase place := by
  rw [erase, put, List.filter_cons, if_neg (by simp), erase, List.filter_filter]
  simp only [Bool.and_self]

theorem put_put (v : Volume) (place : List String) (e e' : Entry) :
    (v.put place e).put place e' = v.put place e' := by
  rw [put, erase_put, put]

/-- Where nothing is, nothing is erased. -/
theorem erase_eq_self (h : v.entry? place = none) : v.erase place = v := by
  have hne : place ≠ [] := by
    refine ne_nil_of_entry?_ne (v := v) ?_
    rw [h]
    exact (Option.some_ne_none _).symm
  rw [entry?_of_ne_nil hne, List.lookup_eq_none_iff] at h
  rw [erase, List.filter_eq_self.mpr fun entry hentry => bne_iff_ne.mpr
    (Ne.symm (bne_iff_ne.mp (h entry hentry)))]

/-! ## Folders -/

/-- Two volumes with the same folders, whatever their files. -/
def SameFolders (v w : Volume) : Prop :=
  ∀ place, v.entry? place = some .folder ↔ w.entry? place = some .folder

namespace SameFolders

theorem refl (v : Volume) : SameFolders v v := fun _ => Iff.rfl

theorem symm (h : SameFolders v w) : SameFolders w v := fun place => (h place).symm

theorem put (h : v.entry? place ≠ some .folder) (bytes : List UInt8) :
    SameFolders v (v.put place (.file bytes)) := by
  intro goal
  by_cases hgoal : goal = place
  · subst hgoal
    rw [entry?_put_self v (ne_nil_of_entry?_ne h)]
    exact ⟨fun hfolder => absurd hfolder h, fun hfile => Entry.noConfusion (Option.some.inj hfile)⟩
  · rw [entry?_put_of_ne v hgoal]

theorem erase (h : v.entry? place ≠ some .folder) : SameFolders v (v.erase place) := by
  intro goal
  by_cases hgoal : goal = place
  · subst hgoal
    rw [entry?_erase_self v (ne_nil_of_entry?_ne h)]
    exact ⟨fun hfolder => absurd hfolder h, fun hnone => nomatch hnone⟩
  · rw [entry?_erase_of_ne v hgoal]

theorem step_eq_ok (h : SameFolders v w) {next : List String}
    (hstep : v.step place name = .ok next) : w.step place name = .ok next := by
  cases hentry : v.entry? place with
  | none => rw [step, hentry] at hstep; cases hstep
  | some e =>
    cases e with
    | file bytes => rw [step, hentry] at hstep; cases hstep
    | folder =>
      rw [step, hentry] at hstep
      rw [step, (h place).mp hentry]
      exact hstep

theorem walk_eq_ok (h : SameFolders v w) {names : List String}
    (hwalk : names.foldlM v.step place = .ok goal) : names.foldlM w.step place = .ok goal := by
  induction names generalizing place with
  | nil => exact hwalk
  | cons name names ih =>
    rw [List.foldlM_cons, bind_eq_ok] at hwalk ⊢
    obtain ⟨next, hstep, hrest⟩ := hwalk
    exact ⟨next, h.step_eq_ok hstep, ih hrest⟩

theorem locate_eq_ok (h : SameFolders v w) (hlocate : v.locate path = .ok place) :
    w.locate path = .ok place := by
  rw [locate, bind_eq_ok] at hlocate ⊢
  obtain ⟨route, hroute, hwalk⟩ := hlocate
  refine ⟨route, hroute, ?_⟩
  split_ifs at hwalk ⊢ with hempty
  exact h.walk_eq_ok hwalk

/-- Paths lead to the same places as long as the folders are the same. -/
theorem locate_iff (h : SameFolders v w) : v.locate path = .ok place ↔ w.locate path = .ok place :=
  ⟨h.locate_eq_ok, h.symm.locate_eq_ok⟩

end SameFolders

/-! ## Operations -/

theorem find_file_iff : v.find path = .ok (place, .file bytes) ↔
    v.locate path = .ok place ∧ v.entry? place = some (.file bytes) ∧
      (Route.of path).endsInSlash = false := by
  rw [find, bind_eq_ok]
  constructor
  · rintro ⟨place', hlocate, hfind⟩
    cases hentry : v.entry? place' with
    | none => rw [hentry] at hfind; cases hfind
    | some e =>
      rw [hentry] at hfind
      cases e with
      | folder => cases hfind
      | file bytes' =>
        dsimp only at hfind
        split_ifs at hfind with hslash
        cases hfind
        exact ⟨hlocate, hentry, eq_false_of_ne_true hslash⟩
  · rintro ⟨hlocate, hentry, hslash⟩
    refine ⟨place, hlocate, ?_⟩
    rw [hentry]
    exact if_neg (by rw [hslash]; exact Bool.false_ne_true)

theorem writable_eq_ok_iff : v.writable path = .ok place ↔
    v.locate path = .ok place ∧ v.entry? place ≠ some .folder ∧
      (Route.of path).endsInSlash = false := by
  rw [writable, bind_eq_ok]
  constructor
  · rintro ⟨place', hlocate, hwritable⟩
    split at hwritable
    · cases hwritable
    · next hfile =>
      split_ifs at hwritable with hslash
      obtain rfl := Except.ok.inj hwritable
      exact ⟨hlocate, hfile, eq_false_of_ne_true hslash⟩
  · rintro ⟨hlocate, hfile, hslash⟩
    refine ⟨place, hlocate, ?_⟩
    split
    · next hfolder => exact absurd hfolder hfile
    · exact if_neg (by rw [hslash]; exact Bool.false_ne_true)

theorem movable_eq_ok_iff : v.movable path = .ok place ↔
    v.writable path = .ok place ∧ (Route.of path).names.getLast? ≠ some "." ∧
      (Route.of path).names.getLast? ≠ some ".." ∧ (Route.of path).names ≠ [] := by
  rw [writable_eq_ok_iff, movable, bind_eq_ok]
  constructor
  · rintro ⟨place', hlocate, hmovable⟩
    split_ifs at hmovable with hnames hslash
    rw [not_or, not_or] at hnames
    split at hmovable
    · cases hmovable
    · next hfile =>
      obtain rfl := Except.ok.inj hmovable
      exact ⟨⟨hlocate, hfile, eq_false_of_ne_true hslash⟩, hnames⟩
  · rintro ⟨⟨hlocate, hfile, hslash⟩, hnames⟩
    refine ⟨place, hlocate, ?_⟩
    rw [if_neg (by rwa [not_or, not_or]), if_neg (by rw [hslash]; exact Bool.false_ne_true)]
    split
    · next hfolder => exact absurd hfolder hfile
    · rfl

theorem write_eq_ok_iff : v.write path bytes = .ok w ↔
    ∃ place, v.writable path = .ok place ∧ w = v.put place (.file bytes) := by
  rw [write, bind_eq_ok]
  exact exists_congr fun place => and_congr_right fun _ =>
    ⟨fun h => (Except.ok.inj h).symm, fun h => congrArg Except.ok h.symm⟩

theorem rename_eq_ok_iff : v.rename source target = .ok w ↔
    ∃ place bytes goal, v.find source = .ok (place, .file bytes) ∧ v.movable target = .ok goal ∧
      w = (v.erase place).put goal (.file bytes) := by
  rw [rename, bind_eq_ok]
  constructor
  · rintro ⟨⟨place, e⟩, hfind, h⟩
    cases e with
    | folder => cases h
    | file bytes =>
      obtain ⟨goal, hgoal, h⟩ := bind_eq_ok.mp h
      exact ⟨place, bytes, goal, hfind, hgoal, (Except.ok.inj h).symm⟩
  · rintro ⟨place, bytes, goal, hfind, hgoal, rfl⟩
    exact ⟨_, hfind, bind_eq_ok.mpr ⟨goal, hgoal, rfl⟩⟩

theorem copy_eq_ok_iff : v.copy source target = .ok w ↔
    ∃ place bytes, v.find source = .ok (place, .file bytes) ∧ v.write target bytes = .ok w := by
  rw [copy, bind_eq_ok]
  constructor
  · rintro ⟨⟨place, e⟩, hfind, h⟩
    cases e with
    | folder => cases h
    | file bytes => exact ⟨place, bytes, hfind, h⟩
  · rintro ⟨place, bytes, hfind, h⟩
    exact ⟨_, hfind, h⟩

theorem remove_eq_ok_iff : v.remove path = .ok w ↔
    ∃ place bytes, v.find path = .ok (place, .file bytes) ∧ w = v.erase place := by
  rw [remove, bind_eq_ok]
  constructor
  · rintro ⟨⟨place, e⟩, hfind, h⟩
    cases e with
    | folder => cases h
    | file bytes => exact ⟨place, bytes, hfind, (Except.ok.inj h).symm⟩
  · rintro ⟨place, bytes, hfind, rfl⟩
    exact ⟨_, hfind, rfl⟩

theorem read_eq_ok_iff :
    v.read path = .ok bytes ↔ ∃ place, v.find path = .ok (place, .file bytes) := by
  rw [read]
  constructor
  · intro h
    split at h
    · cases h
    · cases h
    · next place bytes' hfind => exact ⟨place, by rw [hfind, Except.ok.inj h]⟩
  · rintro ⟨place, hfind⟩
    rw [hfind]

/-- A file is found where it was put. -/
theorem find_put (h : v.writable path = .ok place) (bytes : List UInt8) :
    (v.put place (.file bytes)).find path = .ok (place, .file bytes) := by
  obtain ⟨hlocate, hfile, hslash⟩ := writable_eq_ok_iff.mp h
  exact find_file_iff.mpr ⟨(SameFolders.put hfile bytes).locate_iff.mp hlocate,
    entry?_put_self v (ne_nil_of_entry?_ne hfile) _, hslash⟩

theorem SameFolders.writable_iff (h : SameFolders v w) :
    v.writable path = .ok place ↔ w.writable path = .ok place := by
  rw [writable_eq_ok_iff, writable_eq_ok_iff, h.locate_iff, Ne, h place]

theorem SameFolders.movable_iff (h : SameFolders v w) :
    v.movable path = .ok place ↔ w.movable path = .ok place := by
  rw [movable_eq_ok_iff, movable_eq_ok_iff, h.writable_iff]

/-- A file that was written can be written again. -/
theorem write_put (h : v.writable path = .ok place) (old bytes : List UInt8) :
    (v.put place (.file old)).write path bytes = .ok (v.put place (.file bytes)) := by
  have hfolders := SameFolders.put (writable_eq_ok_iff.mp h).2.1 old
  exact write_eq_ok_iff.mpr ⟨place, hfolders.writable_iff.mp h, (put_put v place _ _).symm⟩

/-- A file that was written is moved, and nothing is left in its place. -/
theorem rename_put_eq_ok_iff (h : v.writable source = .ok place) :
    (v.put place (.file bytes)).rename source target = .ok w ↔
      ∃ goal, v.movable target = .ok goal ∧ w = (v.erase place).put goal (.file bytes) := by
  have hfolders := SameFolders.put (writable_eq_ok_iff.mp h).2.1 bytes
  rw [rename_eq_ok_iff, find_put h]
  constructor
  · rintro ⟨place', bytes', goal, hfind, hgoal, rfl⟩
    cases hfind
    exact ⟨goal, hfolders.movable_iff.mpr hgoal, by rw [erase_put]⟩
  · rintro ⟨goal, hgoal, rfl⟩
    exact ⟨place, bytes, goal, rfl, hfolders.movable_iff.mp hgoal, by rw [erase_put]⟩

/-! ## Runs -/

theorem run_change_ok (f : Volume → Except DiskFault Volume) (h : f v = .ok w) :
    (change f).run v = pure (.ok (), w) := by
  rw [change, StateT.run_bind, StateT.run_get, pure_bind]
  dsimp only
  rw [h]
  rfl

theorem run_change_error (f : Volume → Except DiskFault Volume) {fault : DiskFault}
    (h : f v = .error fault) : (change f).run v = pure (.error fault, v) := by
  rw [change, StateT.run_bind, StateT.run_get, pure_bind]
  dsimp only
  rw [h]
  rfl

end JsonInspect.Volume
