import JsonInspect.Files.Save
import JsonInspect.Proofs.Files.Places

/-! # Mishaps

A disk on which creating, writing, copying and renaming may fail on their own, whatever the volume
holds. A file may be left behind then with a part of its content; a file that is renamed is at one
place or the other. Where nothing goes wrong the disk is that of the volume (`Calm`). -/

namespace JsonInspect

/-- Something that goes wrong with an operation: the fault that is met, and what is left behind by
then, nothing at all or a file with so many of its bytes. -/
structure Mishap where
  fault : DiskFault
  written : Option Nat

/-- What a mishap leaves of a volume, of which `part` makes a file with some bytes. -/
def Mishap.leave (mishap : Mishap) (part : Nat → Volume → Except DiskFault Volume) (v : Volume) :
    Volume :=
  match mishap.written with
  | none => v
  | some count =>
    match part count v with
    | .ok w => w
    | .error _ => v

theorem Mishap.leave_eq (mishap : Mishap) (part : Nat → Volume → Except DiskFault Volume)
    (v : Volume) : mishap.leave part v = v ∨ ∃ count, part count v = .ok (mishap.leave part v) := by
  rw [Mishap.leave]
  split
  · exact .inl rfl
  · next count _ =>
    split
    · next w hw => exact .inr ⟨count, hw⟩
    · exact .inl rfl

/-- A volume, and for each operation to come whether something goes wrong with it. Nothing does
once the list is used up. -/
structure Flaky where
  volume : Volume
  mishaps : List (Option Mishap)

namespace Flaky

/-- An operation with which nothing goes wrong but what the volume itself forbids. -/
def perform (f : Volume → Except DiskFault Volume) (s : Flaky) : Except DiskFault Unit × Flaky :=
  match f s.volume with
  | .ok v => (.ok (), ⟨v, s.mishaps⟩)
  | .error fault => (.error fault, s)

/-- An operation that uses up what is next on the list. -/
def attempt (whole : Volume → Except DiskFault Volume)
    (part : Nat → Volume → Except DiskFault Volume) (s : Flaky) : Except DiskFault Unit × Flaky :=
  match s.mishaps with
  | [] => perform whole s
  | none :: rest => perform whole ⟨s.volume, rest⟩
  | some mishap :: rest => (.error mishap.fault, ⟨mishap.leave part s.volume, rest⟩)

def disk : Disk (StateM Flaky) where
  hasPath path := do pure ((← get).volume.hasPath path)
  read path := do pure ((← get).volume.read path)
  create path := modifyGet (attempt (·.write path []) fun _ v => v.write path [])
  write path bytes :=
    modifyGet (attempt (·.write path bytes) fun count v => v.write path (bytes.take count))
  copy source target :=
    modifyGet (attempt (·.copy source target) fun count v => do
      let bytes ← (v.read source).mapError ReadFault.disk
      v.write target (bytes.take count))
  rename source target := modifyGet (attempt (·.rename source target) fun _ v => .ok v)
  remove path := modifyGet (perform (·.remove path))
  makeFolders path := modifyGet (perform (·.makeFolders path))

/-! ## One operation -/

variable {f whole : Volume → Except DiskFault Volume}
  {part : Nat → Volume → Except DiskFault Volume} {s t : Flaky} {fault : DiskFault}

theorem perform_eq_ok (h : perform f s = (.ok (), t)) : f s.volume = .ok t.volume := by
  rw [perform] at h
  split at h
  · next v hv =>
    obtain ⟨-, rfl⟩ := Prod.mk.inj h
    exact hv
  · cases h

theorem perform_eq_error (h : perform f s = (.error fault, t)) : t = s := by
  rw [perform] at h
  split at h
  · cases h
  · exact (Prod.mk.inj h).2.symm

/-- A success is that of the whole operation. -/
theorem attempt_eq_ok (h : attempt whole part s = (.ok (), t)) :
    whole s.volume = .ok t.volume := by
  rw [attempt] at h
  split at h
  · exact perform_eq_ok h
  · next rest _ =>
    have hok : whole (Flaky.mk s.volume rest).volume = .ok t.volume := perform_eq_ok h
    exact hok
  · cases h

/-- A failure leaves the volume as it was, or a part of the operation done. -/
theorem attempt_eq_error (h : attempt whole part s = (.error fault, t)) :
    t.volume = s.volume ∨ ∃ count, part count s.volume = .ok t.volume := by
  rw [attempt] at h
  split at h
  · exact .inl (by rw [perform_eq_error h])
  · exact .inl (by rw [perform_eq_error h])
  · next mishap rest _ =>
    obtain ⟨-, rfl⟩ := Prod.mk.inj h
    exact Mishap.leave_eq mishap part s.volume

theorem hasPath_eq {path : String} {there : Bool}
    (h : (disk.hasPath path).run s = (there, t)) : there = s.volume.hasPath path ∧ s = t := by
  have hrun : (s.volume.hasPath path, s) = (there, t) := h
  obtain ⟨rfl, rfl⟩ := Prod.mk.inj hrun
  exact ⟨rfl, rfl⟩

end Flaky

/-! ## Operations one after the other -/

theorem saveTextWith_eq {m : Type → Type} [Monad m] (pack : List UInt8 → List UInt8)
    (disk : Disk m) (backup : Bool) (path text : String) :
    saveTextWith pack disk backup path text =
      (if backup then disk.hasPath path else pure false) >>= fun needed =>
        let compress := asksCompression path
        let save := replaceFile disk path compress (fileBytes pack compress text)
        if needed then andThen (keepBackup disk path) id fun _ => save else save := by
  cases backup <;> rfl

section

variable {σ α β ε : Type} {s t : σ}

theorem run_bind_eq {x : StateM σ α} {f : α → StateM σ β} {b : β} :
    (x >>= f).run s = (b, t) ↔ ∃ a u, x.run s = (a, u) ∧ (f a).run u = (b, t) := by
  constructor
  · intro h
    exact ⟨(x.run s).1, (x.run s).2, rfl, h⟩
  · rintro ⟨a, u, hx, hf⟩
    rw [StateT.run_bind, hx]
    exact hf

theorem run_andThen_eq {first : StateM σ (Except ε α)} {what : ε → FileFault}
    {next : α → StateM σ (Except FileFault β)} {r : Except FileFault β} :
    (andThen first what next).run s = (r, t) ↔
      (∃ fault, first.run s = (.error fault, t) ∧ r = .error (what fault)) ∨
      ∃ a u, first.run s = (.ok a, u) ∧ (next a).run u = (r, t) := by
  rw [andThen, run_bind_eq]
  constructor
  · rintro ⟨x, u, hfirst, hrest⟩
    cases x with
    | error fault =>
      cases hrest
      exact .inl ⟨fault, hfirst, rfl⟩
    | ok a => exact .inr ⟨a, u, hfirst, hrest⟩
  · rintro (⟨fault, hfirst, rfl⟩ | ⟨a, u, hfirst, hnext⟩)
    · exact ⟨.error fault, t, hfirst, rfl⟩
    · exact ⟨.ok a, u, hfirst, hnext⟩

end

/-! ## Without mishaps -/

namespace Flaky

/-- An action on a disk with mishaps that does what one on the volume does while none comes. -/
def Calm {α : Type} (x : StateM Flaky α) (y : StateM Volume α) : Prop :=
  ∀ v, x.run ⟨v, []⟩ = ((y.run v).1, ⟨(y.run v).2, []⟩)

variable {α β ε : Type}

theorem calm_pure (a : α) : Calm (pure a) (pure a) := fun _ => rfl

theorem Calm.bind {x : StateM Flaky α} {y : StateM Volume α} {f : α → StateM Flaky β}
    {g : α → StateM Volume β} (hx : Calm x y) (hf : ∀ a, Calm (f a) (g a)) :
    Calm (x >>= f) (y >>= g) := fun v =>
  run_bind_eq.mpr ⟨_, _, hx v, hf _ _⟩

theorem Calm.andThen {x : StateM Flaky (Except ε α)} {y : StateM Volume (Except ε α)}
    {f : α → StateM Flaky (Except FileFault β)} {g : α → StateM Volume (Except FileFault β)}
    (hx : Calm x y) (what : ε → FileFault) (hf : ∀ a, Calm (f a) (g a)) :
    Calm (andThen x what f) (andThen y what g) := by
  refine hx.bind fun result => ?_
  cases result with
  | error fault => exact calm_pure _
  | ok a => exact hf a

theorem calm_hasPath (path : String) : Calm (disk.hasPath path) (Volume.disk.hasPath path) :=
  fun _ => rfl

theorem calm_perform (f : Volume → Except DiskFault Volume) :
    Calm (modifyGet (perform f)) (Volume.change f) := by
  intro v
  change perform f ⟨v, []⟩ = _
  rw [perform]
  cases hf : f v with
  | ok w => rw [Volume.run_change_ok f hf]; rfl
  | error fault => rw [Volume.run_change_error f hf]; rfl

theorem calm_attempt (whole : Volume → Except DiskFault Volume)
    (part : Nat → Volume → Except DiskFault Volume) :
    Calm (modifyGet (attempt whole part)) (Volume.change whole) := calm_perform whole

theorem calm_writeTemporary (path : String) (compress : Bool) (bytes : List UInt8) :
    Calm (writeTemporary disk path compress bytes)
      (writeTemporary Volume.disk path compress bytes) :=
  (calm_attempt _ _).andThen _ fun _ => (calm_attempt _ _).andThen _ fun _ => calm_pure _

theorem calm_keepBackup (path : String) :
    Calm (keepBackup disk path) (keepBackup Volume.disk path) := by
  rw [keepBackup, keepBackup]
  split
  · exact calm_pure _
  · exact (calm_attempt _ _).andThen _ fun _ => calm_pure _

theorem calm_replaceFile (path : String) (compress : Bool) (bytes : List UInt8) :
    Calm (replaceFile disk path compress bytes) (replaceFile Volume.disk path compress bytes) := by
  refine Calm.bind ((calm_writeTemporary _ _ _).andThen _ fun _ =>
    (calm_attempt _ _).andThen _ fun _ => calm_pure _) fun result => ?_
  cases result with
  | ok _ => exact calm_pure _
  | error fault =>
    refine (calm_hasPath _).bind fun there => ?_
    cases there with
    | false => exact calm_pure _
    | true => exact (calm_perform _).bind fun _ => calm_pure _

/-- Where nothing goes wrong, saving is what it is on the volume. -/
theorem calm_saveTextWith (pack : List UInt8 → List UInt8) (backup : Bool) (path text : String) :
    Calm (saveTextWith pack disk backup path text)
      (saveTextWith pack Volume.disk backup path text) := by
  have hneeded : Calm (if backup then disk.hasPath path else pure false)
      (if backup then Volume.disk.hasPath path else pure false) := by
    cases backup with
    | false => exact calm_pure _
    | true => exact calm_hasPath path
  rw [saveTextWith_eq, saveTextWith_eq]
  refine hneeded.bind fun needed => ?_
  cases needed with
  | false => exact calm_replaceFile _ _ _
  | true => exact (calm_keepBackup path).andThen _ fun _ => calm_replaceFile _ _ _

end Flaky

end JsonInspect
