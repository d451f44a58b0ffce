import JsonInspect.Files.SettingsFile
import JsonInspect.Proofs.Files.Places
import JsonInspect.Proofs.Toml.Lines

/-! # Settings outlive a run

The text of settings has one line for each of them, so all of them are read back from it
(`ofText_toText?`), and settings that are saved at a path that takes a file are the ones that are
loaded from there (`saved_settings_load_back`). -/

namespace JsonInspect

namespace Settings

/-! ## Texts -/

/-- The settings with their keys, as they are written. -/
def entries (s : Settings) : List (String × Toml.Value) :=
  [("fuzzy", .boolean s.fuzzy), ("fuzzy_threshold", .integer s.fuzzyThreshold),
    ("max_depth", .integer s.maxDepth), ("indent_size", .integer s.indentSize),
    ("create_backup", .boolean s.createBackup), ("log_level", .string s.logLevel),
    ("aggregate_mode", .string s.aggregateMode.name),
    ("remove_from_original", .boolean s.removeFromOriginal)]

theorem size?_natCast (n : Nat) : size? (.integer n) = some n := by
  rw [size?, if_pos (Int.natCast_nonneg n), Int.toNat_natCast]

theorem mode?_name (mode : AggregateMode) : mode? (.string mode.name) = some mode := by
  cases mode <;> rfl

/-- Each setting is found under its key. -/
theorem ofEntries?_entries (s : Settings) : ofEntries? s.entries = some s := by
  simp [ofEntries?, setting?, entries, List.lookup_cons, boolean?, size?_natCast, text?, mode?_name]

theorem ofText_toText? {s : Settings} {text : String} (h : s.toText? = some text) :
    ofText text = s := by
  rw [toText?] at h
  split at h
  · next hfit =>
    simp only [sizesFit, Bool.and_eq_true, decide_eq_true_eq] at hfit
    obtain ⟨⟨hthreshold, hdepth⟩, hindent⟩ := hfit
    obtain rfl := Option.some.inj h
    have hlines : Toml.Lines s.entries
        (line "fuzzy" (booleanChars s.fuzzy) ++
          (line "fuzzy_threshold" (sizeChars s.fuzzyThreshold) ++
            (line "max_depth" (sizeChars s.maxDepth) ++
              (line "indent_size" (sizeChars s.indentSize) ++
                (line "create_backup" (booleanChars s.createBackup) ++
                  (line "log_level" (Toml.Quoted.write s.logLevel) ++
                    (line "aggregate_mode" (Toml.Quoted.write s.aggregateMode.name) ++
                      (line "remove_from_original" (booleanChars s.removeFromOriginal) ++
                        [])))))))) :=
      .cons (by decide) (Toml.writes_boolean _) <|
      .cons (by decide) (Toml.writes_size hthreshold) <|
      .cons (by decide) (Toml.writes_size hdepth) <|
      .cons (by decide) (Toml.writes_size hindent) <|
      .cons (by decide) (Toml.writes_boolean _) <|
      .cons (by decide) (Toml.writes_string _) <|
      .cons (by decide) (Toml.writes_string _) <|
      .cons (by decide) (Toml.writes_boolean _) .nil
    have hkeys : (Entries.keys s.entries).Nodup := by
      simp [Entries.keys, entries]
    have hread := Toml.document?_lines hlines hkeys
    simp only [List.append_nil, ← List.append_assoc] at hread
    rw [ofText, hread, Option.bind_some, ofEntries?_entries]
    rfl
  · cases h

theorem toText?_isSome {s : Settings} (h : s.sizesFit = true) : ∃ text, s.toText? = some text :=
  ⟨_, if_pos h⟩

theorem ofFile_encode (text : String) : ofFile (.ok (Utf8.encode text)) = ofText text := by
  simp only [ofFile, Utf8.decode_encode]

theorem run_load (v : Volume) (path : String) :
    (load Volume.disk path).run v = pure (ofFile (v.read path), v) := rfl

end Settings

/-! ## Files -/

/-- Whether a path takes a file once the folders above it are made. -/
def Volume.Admits (v : Volume) (path : String) : Prop :=
  ∃ w place, v.makeFolders (FilePath.folder path) = .ok w ∧ w.writable path = .ok place

theorem Settings.run_save {s : Settings} {v u created written : Volume} {path text : String}
    (hfolders : v.makeFolders (FilePath.folder path) = .ok u) (htext : s.toText? = some text)
    (hcreate : u.write path [] = .ok created)
    (hwrite : created.write path (Utf8.encode text) = .ok written) :
    (Settings.save Volume.disk path s).run v = (.ok (), written) := by
  have hmake : (Volume.disk.makeFolders (FilePath.folder path)).run v = pure (.ok (), u) :=
    Volume.run_change_ok (·.makeFolders (FilePath.folder path)) hfolders
  have hmade : (Volume.disk.create path).run u = pure (.ok (), created) :=
    Volume.run_change_ok (·.write path []) hcreate
  have hput : (Volume.disk.write path (Utf8.encode text)).run created = pure (.ok (), written) :=
    Volume.run_change_ok (·.write path (Utf8.encode text)) hwrite
  rw [Settings.save, StateT.run_bind, hmake, pure_bind]
  dsimp only
  rw [htext]
  dsimp only
  rw [StateT.run_bind, hmade, pure_bind]
  dsimp only
  rw [StateT.run_bind, hput, pure_bind]
  rfl

/-- Settings that the format can hold are saved wherever a file can be, and loaded again. -/
theorem saved_settings_load_back {s : Settings} (hfit : s.sizesFit = true) {v : Volume}
    {path : String} (hpath : v.Admits path) :
    ∃ w, (Settings.save Volume.disk path s).run v = (.ok (), w) ∧
      (Settings.load Volume.disk path).run w = (s, w) := by
  obtain ⟨u, place, hfolders, hwritable⟩ := hpath
  obtain ⟨text, htext⟩ := Settings.toText?_isSome hfit
  have hcreate : u.write path [] = .ok (u.put place (.file [])) :=
    Volume.write_eq_ok_iff.mpr ⟨place, hwritable, rfl⟩
  have hwrite := Volume.write_put hwritable [] (Utf8.encode text)
  have hread := Volume.read_eq_ok_iff.mpr ⟨place, Volume.find_put hwritable (Utf8.encode text)⟩
  have hsettings : Settings.ofFile (.ok (Utf8.encode text)) = s := by
    rw [Settings.ofFile_encode, Settings.ofText_toText? htext]
  refine ⟨_, Settings.run_save hfolders htext hcreate hwrite, ?_⟩
  rw [Settings.run_load, hread, hsettings]
  rfl

/-- Quotes of both kinds, a backslash, line ends and control characters in one level name, next to
the greatest size, below a folder that is not there yet. -/
theorem oddSettings_load_back :
    let s : Settings :=
      ⟨true, 0, Settings.greatestSize, 4, true, "\"a\"\\'''\n\r\x00\x7f\t#", .merge, false⟩
    s.sizesFit = true ∧ Volume.empty.Admits "nested/config.toml" ∧
      ∃ w, (Settings.save Volume.disk "nested/config.toml" s).run Volume.empty = (.ok (), w) ∧
        (Settings.load Volume.disk "nested/config.toml").run w = (s, w) := by
  have hfolder : FilePath.folder "nested/config.toml" = "nested" := rfl
  have hpath : Volume.empty.Admits "nested/config.toml" :=
    ⟨⟨[(["nested"], .folder)]⟩, ["nested", "config.toml"], by rw [hfolder]; rfl, rfl⟩
  exact ⟨by decide, hpath, saved_settings_load_back (by decide) hpath⟩

end JsonInspect
