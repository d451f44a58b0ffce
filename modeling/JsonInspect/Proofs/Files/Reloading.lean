import JsonInspect.Files.Load
import JsonInspect.Proofs.Files.Paths
import JsonInspect.Proofs.Files.Replacing
import JsonInspect.Proofs.Gzip.Stored

/-! # Saved texts are loaded again

A writer compresses by the last characters of a path, a reader unpacks by the extension of its last
name or by the first bytes of the file. A path that a file can be moved to has the extension only
with these last characters, and no text starts with the bytes of a compressed file, so the two agree
on every file that is saved (`saved_text_loads_back`). -/

namespace JsonInspect

/-! ## Texts and compressed bytes -/

/-- The first byte of a character is the only one, or is one that starts a longer character. -/
theorem exists_head_utf8EncodeChar (c : Char) :
    ∃ b more, String.utf8EncodeChar c = b :: more ∧ (b < 128 ∧ more = [] ∨ 192 ≤ b) := by
  have hhigh (n lead : Nat) (hn : n + lead < 256) (hlead : 192 ≤ lead) :
      (192 : UInt8) ≤ UInt8.ofNat (n + lead) := by
    rw [UInt8.le_iff_toNat_le, UInt8.toNat_ofNat', Nat.mod_eq_of_lt hn]
    exact Nat.le_trans hlead (Nat.le_add_left _ _)
  rw [String.utf8EncodeChar]
  split_ifs with h1 h2 h3
  · refine ⟨_, [], rfl, .inl ⟨?_, rfl⟩⟩
    rw [UInt8.lt_iff_toNat_lt, UInt8.toNat_ofNat', Nat.mod_eq_of_lt (by omega)]
    exact Nat.lt_succ_of_le h1
  · exact ⟨_, _, rfl, .inr (hhigh _ _ (by omega) (by decide))⟩
  · exact ⟨_, _, rfl, .inr (hhigh _ _ (by omega) (by decide))⟩
  · exact ⟨_, _, rfl, .inr (hhigh _ _ (by omega) (by decide))⟩

theorem encode_eq_flatMap (text : String) :
    Utf8.encode text = text.toList.flatMap String.utf8EncodeChar := by
  rw [Utf8.encode, String.toUTF8, ← String.utf8Encode_toList, List.utf8Encode]
  exact List.toList_data_toByteArray

/-- No text starts with the bytes that a compressed file starts with. -/
theorem looksCompressed_encode (text : String) :
    Gzip.looksCompressed (Utf8.encode text) = false := by
  rw [encode_eq_flatMap, Bool.eq_false_iff, Gzip.looksCompressed, Gzip.magic, Ne,
    List.isPrefixOf_iff_prefix]
  cases text.toList with
  | nil => exact fun hmagic => List.cons_ne_nil _ _ (List.prefix_nil.mp hmagic)
  | cons c rest =>
    obtain ⟨b, more, hc, hb⟩ := exists_head_utf8EncodeChar c
    rw [List.flatMap_cons, hc, List.cons_append, List.cons_prefix_cons]
    rintro ⟨rfl, hmagic⟩
    -- The first byte is a character, so the second one would have to start another.
    obtain rfl := (hb.resolve_right (by decide)).2
    cases rest with
    | nil => exact List.cons_ne_nil _ _ (List.prefix_nil.mp hmagic)
    | cons d rest =>
      obtain ⟨b, more, hd, hb⟩ := exists_head_utf8EncodeChar d
      rw [List.flatMap_cons, hd, List.nil_append, List.cons_append, List.cons_prefix_cons] at hmagic
      obtain ⟨rfl, -⟩ := hmagic
      exact hb.elim (fun hsmall => absurd hsmall.1 (by decide))
        fun hlarge => absurd hlarge (by decide)

theorem looksCompressed_of_unpack {bytes content : List UInt8}
    (h : Gzip.unpack bytes = .ok content) : Gzip.looksCompressed bytes = true := by
  obtain ⟨body, hbody, -⟩ := bind_eq_ok.mp h
  obtain ⟨⟨fixed, rest⟩, hsplit, hrest⟩ := bind_eq_ok.mp hbody
  have hfixed : fixed <+: bytes := by
    rw [Gzip.splitBytes] at hsplit
    split_ifs at hsplit
    cases hsplit
    exact List.take_prefix _ _
  cases hlooks : Gzip.looksCompressed fixed with
  | false =>
    dsimp only at hrest
    rw [if_pos (by simp [hlooks])] at hrest
    cases hrest
  | true =>
    exact List.isPrefixOf_iff_prefix.mpr ((List.isPrefixOf_iff_prefix.mp hlooks).trans hfixed)

/-! ## Writer and reader -/

section

variable {pack : List UInt8 → List UInt8} {path text : String} {v : Volume} {goal : List String}

theorem unpackText_pack (hpack : ∀ bytes, Gzip.unpack (pack bytes) = .ok bytes) (text : String) :
    unpackText (pack (Utf8.encode text)) = .ok text := by
  rw [unpackText, hpack]
  dsimp only
  rw [Utf8.decode_encode]
  rfl

/-- What is written for a text at a path is read as the text at this path. -/
theorem decoded_fileBytes (hpack : ∀ bytes, Gzip.unpack (pack bytes) = .ok bytes)
    (hpath : v.movable path = .ok goal) (text : String) :
    (if FilePath.extension? path = some "gz" then
        decodeCompressed (.ok (fileBytes pack (asksCompression path) text))
      else decodePlain path (.ok (fileBytes pack (asksCompression path) text))) =
      .ok (withLineEnd text) := by
  have hunpack := unpackText_pack hpack (withLineEnd text)
  split_ifs with hext
  · rw [Volume.asksCompression_of_movable hpath hext, fileBytes, if_pos rfl, decodeCompressed,
      hunpack]
    rfl
  rw [decodePlain, decodeText, fileBytes]
  cases asksCompression path with
  | false =>
    rw [if_neg Bool.false_ne_true, looksCompressed_encode, if_neg Bool.false_ne_true,
      Utf8.decode_encode]
    rfl
  | true =>
    rw [if_pos rfl, if_pos (looksCompressed_of_unpack (hpack _)), hunpack]
    rfl

theorem withLineEnd_eq (text : String) :
    withLineEnd text = if text.toList.getLast? = some '\n' then text else text ++ "\n" := by
  rw [withLineEnd]
  split_ifs
  · rfl
  · rw [← String.toList_inj, String.toList_ofList, String.toList_append]
    rfl

/-- After a save that succeeded the target is a file with the bytes that were to be written. -/
theorem Saved.read_eq {w : Volume} {backup : Bool} {bytes : List UInt8}
    (h : Saved v backup path bytes (.ok ()) w) :
    w.read path = .ok bytes ∧ ∃ u goal, Volume.movable u path = .ok goal := by
  obtain ⟨u, hreplaced⟩ : ∃ u, Replaced u path bytes (.ok ()) w := by
    cases h with
    | passed _ _ hreplaced => exact ⟨_, hreplaced⟩
    | direct hreplaced => exact ⟨v, hreplaced⟩
  cases hreplaced with
  | @done goal htarget =>
    refine ⟨?_, u, goal, htarget⟩
    have hfolders := Volume.SameFolders.without u (temporaryPath path)
    have hwritable := hfolders.writable_iff.mp (Volume.movable_eq_ok_iff.mp htarget).1
    exact Volume.read_eq_ok_iff.mpr ⟨goal, Volume.find_put hwritable bytes⟩

end

theorem saveTextWith_of_saveOutputWith {pack : List UInt8 → List UInt8} {backup : Bool}
    {path text : String} {s t : Flaky}
    (h : (saveOutputWith pack Flaky.disk backup path text).run s = (.ok (), t)) :
    (saveTextWith pack Flaky.disk backup path text).run s = (.ok (), t) := by
  rw [saveOutputWith] at h
  split at h
  · cases h
  · exact h

/-- A text that was saved is loaded from the same path, with a line end added unless it had one.
The disk may be one with mishaps, and any packed form of the bytes will do. -/
theorem saved_text_loads_back {pack : List UInt8 → List UInt8}
    (hpack : ∀ bytes, Gzip.unpack (pack bytes) = .ok bytes) {backup : Bool} {path text : String}
    {s t : Flaky}
    (hsave : (saveTextWith pack Flaky.disk backup path text).run s = (.ok (), t) ∨
      (saveOutputWith pack Flaky.disk backup path text).run s = (.ok (), t)) :
    (loadText Flaky.disk path).run t =
      (.ok (if text.toList.getLast? = some '\n' then text else text ++ "\n"), t) := by
  have hsaved := saveTextWith_saved (hsave.elim id saveTextWith_of_saveOutputWith)
  obtain ⟨hread, u, goal, hpath⟩ := hsaved.read_eq
  have hrun : (Flaky.disk.read path).run t = (t.volume.read path, t) := rfl
  rw [loadText, run_bind_eq]
  refine ⟨_, t, hrun, ?_⟩
  rw [hread, ← withLineEnd_eq, ← decoded_fileBytes hpack hpath text]
  split_ifs <;> rfl

/-- A name that is nothing but an ending asks a writer for compression and has no extension for a
reader, who goes by the first bytes. The file that was there is kept as a backup. -/
theorem bareEnding_loads_back :
    let start : Flaky := ⟨⟨[([".gz"], .file [0x5B])]⟩, [none, none, none, none, some ⟨.busy, none⟩]⟩
    let save := (saveTextWith Gzip.pack Flaky.disk true ".gz" "[]").run start
    (∀ bytes, Gzip.unpack (Gzip.pack bytes) = .ok bytes) ∧ save.1 = .ok () ∧
      asksCompression ".gz" = true ∧ FilePath.extension? ".gz" = none ∧
      (loadText Flaky.disk ".gz").run save.2 = (.ok "[]\n", save.2) := by
  intro start save
  have hsave : (saveTextWith Gzip.pack Flaky.disk true ".gz" "[]").run start = (.ok (), save.2) :=
    rfl
  exact ⟨Gzip.unpack_pack, rfl, rfl, rfl, saved_text_loads_back Gzip.unpack_pack (.inl hsave)⟩

end JsonInspect
