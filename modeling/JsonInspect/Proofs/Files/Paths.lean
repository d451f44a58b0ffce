import JsonInspect.Files.Save
import JsonInspect.Proofs.Files.Places
import JsonInspect.Proofs.Text.Dotted
import Mathlib.Data.List.TakeWhile

/-! # The last name of a path

A disk goes along the names between slashes, and a path is taken apart from its end. Both come
upon the same last name (`Named.getLast?_names`, `Named.split?_eq`), unless slashes or a lone dot
stand behind it. -/

namespace JsonInspect

open Volume (Route)

/-- A path as the name after its last slash and what stands before that name. -/
structure Named (path : String) (folder name : List Char) : Prop where
  parts : path.toList = folder ++ name
  noSlash : '/' ∉ name
  folderEnd : folder = [] ∨ ∃ front, folder = front ++ ['/']

variable {path : String} {folder name : List Char}

theorem eq_of_dropWhile_ne {c d : Char} {cs rest : List Char}
    (h : cs.dropWhile (· != c) = d :: rest) : d = c := by
  have hhead := List.head?_dropWhile_not (· != c) cs
  rw [h] at hhead
  exact bne_eq_false_iff_eq.mp hhead

theorem exists_named (path : String) : ∃ folder name, Named path folder name := by
  let turned := path.toList.reverse
  refine ⟨(turned.dropWhile (· != '/')).reverse, (turned.takeWhile (· != '/')).reverse, ?_, ?_, ?_⟩
  · rw [← List.reverse_append, List.takeWhile_append_dropWhile, List.reverse_reverse]
  · intro hmem
    have hslash := List.mem_takeWhile_imp (List.mem_reverse.mp hmem)
    exact bne_iff_ne.mp hslash rfl
  · cases hrest : turned.dropWhile (· != '/') with
    | nil => exact .inl rfl
    | cons c rest =>
      obtain rfl := eq_of_dropWhile_ne hrest
      exact .inr ⟨rest.reverse, List.reverse_cons⟩

namespace Named

theorem exists_splitAtChar (h : Named path folder name) :
    ∃ front, splitAtChar '/' path.toList = front ++ [name] := by
  rcases h.folderEnd with hnil | ⟨front, hfront⟩
  · exact ⟨[], by rw [h.parts, hnil, List.nil_append, splitAtChar_of_notMem h.noSlash]; rfl⟩
  · refine ⟨splitAtChar '/' front, ?_⟩
    rw [h.parts, hfront, List.append_assoc, List.singleton_append, splitAtChar_append_sep,
      splitAtChar_of_notMem h.noSlash]

theorem exists_names (h : Named path folder name) (hne : name ≠ []) :
    ∃ front, (Route.of path).names = front ++ [String.ofList name] := by
  obtain ⟨front, hsplit⟩ := h.exists_splitAtChar
  have hfull : (!(String.ofList name).isEmpty) = true := by
    rw [Bool.not_eq_true', ← Bool.not_eq_true, String.isEmpty_iff]
    intro hempty
    exact hne (by rw [← String.toList_ofList (l := name), hempty]; rfl)
  refine ⟨(front.map String.ofList).filter (!·.isEmpty), ?_⟩
  rw [Route.of, hsplit, List.map_append, List.filter_append, List.map_singleton]
  dsimp only
  rw [List.filter_cons, if_pos hfull, List.filter_nil]

theorem getLast?_names (h : Named path folder name) (hne : name ≠ []) :
    (Route.of path).names.getLast? = some (String.ofList name) := by
  obtain ⟨front, hnames⟩ := h.exists_names hne
  rw [hnames, List.getLast?_append, List.getLast?_singleton, Option.some_or]

/-- Without a name at its end a path is empty or ends in a slash. -/
theorem name_ne_nil (h : Named path folder name) (hne : path ≠ "")
    (hslash : (Route.of path).endsInSlash = false) : name ≠ [] := by
  rintro rfl
  obtain ⟨front, hsplit⟩ := h.exists_splitAtChar
  have hfull : path.isEmpty = false := by
    rwa [← Bool.not_eq_true, String.isEmpty_iff]
  simp [Route.of, hsplit, hfull] at hslash

theorem append (h : Named path folder name) {added : List Char} (hadded : '/' ∉ added) :
    Named (String.ofList (folder ++ name ++ added)) folder (name ++ added) where
  parts := by rw [String.toList_ofList, List.append_assoc]
  noSlash := by
    rw [List.mem_append, not_or]
    exact ⟨h.noSlash, hadded⟩
  folderEnd := h.folderEnd

/-- Nothing is taken off a path that ends in a name. -/
theorem withoutTail_eq (h : Named path folder name) (hne : name ≠ []) (hdot : name ≠ ['.']) :
    FilePath.withoutTail path.toList.reverse = path.toList.reverse := by
  have hslash : '/' ∉ name.reverse := mt List.mem_reverse.mp h.noSlash
  rw [h.parts, List.reverse_append]
  cases hback : name.reverse with
  | nil => exact absurd (List.reverse_eq_nil_iff.mp hback) hne
  | cons c back =>
    rw [hback, List.mem_cons, not_or] at hslash
    rw [List.cons_append, FilePath.withoutTail.eq_def]
    split
    · next heq => exact absurd (List.cons.inj heq).1.symm hslash.1
    · next rest heq =>
      obtain ⟨rfl, hrest⟩ := List.cons.inj heq
      -- Right before the dot there is another character of the name, unless the dot is alone.
      cases back with
      | nil => exact absurd (List.reverse_eq_cons_iff.mp hback) hdot
      | cons d back =>
        obtain ⟨rfl, -⟩ := List.cons.inj hrest
        exact absurd List.mem_cons_self hslash.2
    · rfl

theorem split?_eq (h : Named path folder name) (hne : name ≠ []) (hdot : name ≠ ['.']) :
    FilePath.split? path = if name = ['.', '.'] then none else some (folder, name) := by
  have hname : ∀ c ∈ name.reverse, (c != '/') = true := fun c hc =>
    bne_iff_ne.mpr fun heq => h.noSlash (heq ▸ List.mem_reverse.mp hc)
  have hfolder : folder.reverse.takeWhile (· != '/') = [] ∧
      folder.reverse.dropWhile (· != '/') = folder.reverse := by
    rcases h.folderEnd with rfl | ⟨front, rfl⟩
    · exact ⟨rfl, rfl⟩
    · rw [List.reverse_append]
      exact ⟨rfl, rfl⟩
  rw [FilePath.split?, h.withoutTail_eq hne hdot, h.parts, List.reverse_append,
    List.takeWhile_append_of_pos hname, List.dropWhile_append_of_pos hname, hfolder.1, hfolder.2,
    List.append_nil, List.reverse_reverse, List.reverse_reverse]
  simp only [hne, hdot, false_or]

end Named

/-! ## Extensions -/

theorem eq_of_splitName? {stem extension : List Char}
    (h : FilePath.splitName? name = some (stem, extension)) : name = stem ++ '.' :: extension := by
  rw [FilePath.splitName?] at h
  split at h
  · cases h
  · next c back hback =>
    obtain rfl := eq_of_dropWhile_ne hback
    split_ifs at h
    cases h
    rw [← List.singleton_append, ← List.append_assoc, ← List.reverse_cons, ← List.reverse_append,
      ← hback, List.takeWhile_append_dropWhile, List.reverse_reverse]

/-- The extension that a reader looks at is the end of the path that a writer looks at. -/
theorem Named.asksCompression (h : Named path folder name) (hne : name ≠ []) (hdot : name ≠ ['.'])
    (hext : FilePath.extension? path = some "gz") : asksCompression path = true := by
  rw [FilePath.extension?, h.split?_eq hne hdot] at hext
  split_ifs at hext
  · cases hext
  rw [Option.bind_eq_bind, Option.bind_some] at hext
  obtain ⟨⟨stem, extension⟩, hsplit, hgz⟩ := Option.bind_eq_some_iff.mp hext
  have hextension : extension = ['g', 'z'] := by
    rw [← String.toList_ofList (l := extension), Option.some.inj hgz]
    rfl
  rw [JsonInspect.asksCompression, h.parts, eq_of_splitName? hsplit, hextension,
    ← List.append_assoc, List.reverse_append]
  exact List.isPrefixOf_iff_prefix.mpr (List.prefix_append _ _)

/-! ## Places -/

namespace Volume

variable {v : Volume} {place goal : List String}

theorem of_locate (h : v.locate path = .ok place) :
    path ≠ "" ∧ (Route.of path).names.foldlM v.step [] = .ok place := by
  rw [locate, bind_eq_ok] at h
  obtain ⟨route, hroute, hwalk⟩ := h
  rw [routeOf] at hroute
  split_ifs at hroute
  obtain rfl := Except.ok.inj hroute
  split_ifs at hwalk with hempty
  exact ⟨fun heq => hempty (by rw [heq]; rfl), hwalk⟩

theorem of_step {next : List String} {name : String} (h : v.step place name = .ok next) :
    v.entry? place = some .folder ∧
      next = if name = "." then place else if name = ".." then place.dropLast
        else place ++ [name] := by
  rw [step] at h
  split at h
  · cases h
  · cases h
  · next hfolder =>
    refine ⟨hfolder, ?_⟩
    split_ifs at h ⊢ <;> exact (Except.ok.inj h).symm

theorem exists_last_step {last : String} (h : v.locate path = .ok place)
    (hlast : (Route.of path).names.getLast? = some last) : ∃ q, v.step q last = .ok place := by
  obtain ⟨front, hnames⟩ := List.getLast?_eq_some_iff.mp hlast
  have hwalk := (of_locate h).2
  rw [hnames, List.foldlM_append, bind_eq_ok] at hwalk
  obtain ⟨q, -, hstep⟩ := hwalk
  rw [List.foldlM_cons, bind_eq_ok] at hstep
  obtain ⟨next, hstep, hend⟩ := hstep
  obtain rfl := Except.ok.inj hend
  exact ⟨q, hstep⟩

/-- A walk whose last name is no dots ends at a place of that name. -/
theorem getLast?_of_locate {last : String} (h : v.locate path = .ok place)
    (hlast : (Route.of path).names.getLast? = some last) (hdot : last ≠ ".") (hdots : last ≠ "..") :
    place.getLast? = some last := by
  obtain ⟨q, hstep⟩ := exists_last_step h hlast
  rw [(of_step hstep).2, if_neg hdot, if_neg hdots, List.getLast?_concat]

/-- A path to a file ends in a name, which is no lone dot. -/
theorem named_of_find {bytes : List UInt8} (h : v.find path = .ok (place, .file bytes))
    (hname : Named path folder name) : name ≠ [] ∧ name ≠ ['.'] := by
  obtain ⟨hlocate, hfile, hslash⟩ := find_file_iff.mp h
  have hne := hname.name_ne_nil (of_locate hlocate).1 hslash
  refine ⟨hne, ?_⟩
  rintro rfl
  obtain ⟨q, hstep⟩ := exists_last_step hlocate (hname.getLast?_names hne)
  obtain ⟨hfolder, hplace⟩ := of_step hstep
  rw [if_pos rfl] at hplace
  rw [hplace, hfolder] at hfile
  cases hfile

theorem named_of_movable (h : v.movable path = .ok goal) (hname : Named path folder name) :
    name ≠ [] ∧ name ≠ ['.'] := by
  obtain ⟨hwritable, hdot, -, -⟩ := movable_eq_ok_iff.mp h
  obtain ⟨hlocate, -, hslash⟩ := writable_eq_ok_iff.mp hwritable
  have hne := hname.name_ne_nil (of_locate hlocate).1 hslash
  refine ⟨hne, ?_⟩
  rintro rfl
  exact hdot (hname.getLast?_names hne)

/-- If files can be moved to a path that a reader takes for a compressed file, its writer does so
as well. -/
theorem asksCompression_of_movable (h : v.movable path = .ok goal)
    (hext : FilePath.extension? path = some "gz") : asksCompression path = true := by
  obtain ⟨folder, name, hname⟩ := exists_named path
  obtain ⟨hne, hdot⟩ := named_of_movable h hname
  exact hname.asksCompression hne hdot hext

/-- The backup of a file is another file. -/
theorem backup_ne {bytes : List UInt8} {neighbour : String}
    (h : v.find path = .ok (place, .file bytes))
    (hsuffix : FilePath.withSuffix? path ".bak" = some neighbour)
    (hlocate : v.locate neighbour = .ok goal) : goal ≠ place := by
  obtain ⟨folder, name, hname⟩ := exists_named path
  obtain ⟨hne, hdot⟩ := named_of_find h hname
  rw [FilePath.withSuffix?, hname.split?_eq hne hdot] at hsuffix
  split_ifs at hsuffix with hdots
  · cases hsuffix
  obtain rfl := Option.some.inj hsuffix
  have hlonger := hname.append (show '/' ∉ ".bak".toList by decide)
  have hplace := getLast?_of_locate (find_file_iff.mp h).1 (hname.getLast?_names hne)
    (fun hsame => hdot (String.ofList_injective hsame))
    (fun hsame => hdots (String.ofList_injective hsame))
  have hlength (short : List Char) (hshort : short.length < 4) :
      String.ofList (name ++ ".bak".toList) ≠ String.ofList short := by
    intro hsame
    have hlen := congrArg List.length (String.ofList_injective hsame)
    rw [List.length_append] at hlen
    exact absurd hlen (Nat.ne_of_gt (Nat.lt_of_lt_of_le hshort (Nat.le_add_left _ _)))
  have hgoal := getLast?_of_locate hlocate
    (hlonger.getLast?_names (List.append_ne_nil_of_left_ne_nil hne _))
    (hlength ['.'] (by decide)) (hlength ['.', '.'] (by decide))
  rintro rfl
  rw [hplace] at hgoal
  have hsame := String.ofList_injective (Option.some.inj hgoal)
  exact absurd (List.append_cancel_left ((List.append_nil name).trans hsame)) (by decide)

end Volume

end JsonInspect
