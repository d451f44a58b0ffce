import JsonInspect.Proofs.Engine.Renamed
import JsonInspect.Proofs.Json.Gathered
import JsonInspect.Proofs.Number.Digits

/-! # Groups of records

Grouping is a stable partition of the records by the names of their buckets
(`groupBy_partition`), and what it gives is grouped already (`groupBy_regrouped`). A bucket has
the name that its records' fields read as, and the two names for an absent and for a null field
are texts as well: `sentinelBuckets` says which records they hold. -/

namespace JsonInspect

namespace Groups

def names (g : Groups) : List String := Entries.keys g.buckets

def records (g : Groups) : List Json := g.buckets.flatMap Prod.snd

def recordsIn (g : Groups) (name : String) : List Json := (g.buckets.lookup name).getD []

/-! ## The name of a record's bucket -/

/-- A record belongs to the bucket of a name: the string form of the field that the path leads
to, a name of its own for null, and another where the path leads nowhere. -/
inductive Named (key : Path) (record : Json) : String → Prop
  | absent : record.resolve key = none → Named key record "__undefined__"
  | null : record.resolve key = some .null → Named key record "__null__"
  | form {field : Json} : record.resolve key = some field → field.isNull = false →
      Named key record field.stringForm

variable {key : Path} {record : Json} {name : String}

theorem named_iff : Named key record name ↔ bucketOf key record = name := by
  have hnamed : Named key record (bucketOf key record) := by
    unfold bucketOf
    split
    · rename_i h
      exact .absent h
    · rename_i h
      exact .null h
    · rename_i field hnull h
      exact .form h (Json.isNull_eq_false hnull)
  constructor
  · intro h
    unfold bucketOf
    cases h with
    | absent h => rw [h]; rfl
    | null h => rw [h]; rfl
    | form h hnull =>
      rename_i field
      rw [h]
      cases field with
      | null => cases hnull
      | _ => rfl
  · rintro rfl
    exact hnamed

instance : Decidable (Named key record name) := decidable_of_iff _ named_iff.symm

theorem decide_named (key : Path) (record : Json) (name : String) :
    decide (Named key record name) = decide (bucketOf key record = name) :=
  decide_eq_decide.mpr named_iff

/-! ## Partitions -/

/-- The groups are the records split by the names of their buckets: each bucket holds the records
of its name, as many as there are and as they stood, and buckets stand in the order of their
first records. -/
structure Partition (key : Path) (items : List Json) (g : Groups) : Prop where
  distinct : g.names.Nodup
  ordered : g.names.Pairwise fun a b =>
    items.findIdx (fun record => Named key record a) <
      items.findIdx (fun record => Named key record b)
  filled : ∀ bucket ∈ g.buckets, bucket.2 ≠ []
  named : ∀ bucket ∈ g.buckets, bucket.2 = items.filter fun record => Named key record bucket.1
  covered : ∀ record ∈ items, ∃ bucket ∈ g.buckets, Named key record bucket.1
  sizes : (g.sizes.map Prod.snd).sum = items.length
  once : g.records.Perm items
  object : ∃ entries, g.toJson = .obj entries ∧ Entries.keys entries = g.names ∧
    (∀ e ∈ entries, e.2 = .arr (items.filter fun record => Named key record e.1)) ∧
    (entries.flatMap fun e => e.2.records).Perm items

end Groups

section

variable (key : Path) (items : List Json)

def namedRecords : List (String × Json) :=
  items.map fun record => (Groups.bucketOf key record, record)

theorem keys_namedRecords :
    Entries.keys (namedRecords key items) = items.map (Groups.bucketOf key) := by
  rw [Entries.keys, namedRecords, List.map_map]
  rfl

theorem values_namedRecords : (namedRecords key items).map Prod.snd = items := by
  rw [namedRecords, List.map_map]
  exact List.map_id items

theorem valuesOf_namedRecords (name : String) :
    Entries.valuesOf name (namedRecords key items) =
      items.filter fun record => Groups.Named key record name := by
  simp only [Entries.valuesOf, namedRecords, List.filter_map, List.map_map, Groups.decide_named]
  exact List.map_id _

theorem idxOf_namedRecords (name : String) :
    (Entries.keys (namedRecords key items)).idxOf name =
      items.findIdx fun record => Groups.Named key record name := by
  rw [keys_namedRecords, List.idxOf, List.findIdx_map]
  simp only [Groups.decide_named]
  rfl

def grouped : Groups := ⟨Entries.gather (namedRecords key items)⟩

theorem groupBy_eq_grouped : groupBy key (.arr items) = .ok (grouped key items) :=
  groupBy_arr key items

theorem bucket_grouped : ∀ bucket ∈ (grouped key items).buckets,
    bucket.2 = items.filter (fun record => Groups.Named key record bucket.1) ∧ bucket.2 ≠ [] := by
  intro bucket hb
  rw [← valuesOf_namedRecords]
  exact Entries.mem_gather hb

theorem records_grouped : (grouped key items).records.Perm items := by
  have hperm := Entries.gather_perm (namedRecords key items)
  rwa [values_namedRecords] at hperm

/-- Grouping an array always succeeds, and gives a partition of its elements. -/
theorem groupBy_partition : ∃ g, groupBy key (.arr items) = .ok g ∧ g.Partition key items := by
  refine ⟨grouped key items, groupBy_eq_grouped key items, ?_⟩
  have hbucket := bucket_grouped key items
  have hordered := Entries.keys_gather_ordered (namedRecords key items)
  simp only [idxOf_namedRecords] at hordered
  have hmem : ∀ record ∈ items, Groups.bucketOf key record ∈ (grouped key items).names := by
    intro record hrecord
    rw [Groups.names, grouped, Entries.mem_keys_gather, keys_namedRecords]
    exact List.mem_map_of_mem hrecord
  exact {
    distinct := Entries.nodup_gather (namedRecords key items)
    ordered := hordered
    filled := fun bucket hb => (hbucket bucket hb).2
    named := fun bucket hb => (hbucket bucket hb).1
    covered := by
      intro record hrecord
      obtain ⟨bucket, hb, hname⟩ := List.mem_map.mp (hmem record hrecord)
      exact ⟨bucket, hb, Groups.named_iff.mpr hname.symm⟩
    sizes := by
      rw [← (records_grouped key items).length_eq, Groups.records, List.length_flatMap,
        Groups.sizes, Entries.mapValues, List.map_map]
      rfl
    once := records_grouped key items
    object := by
      refine ⟨_, Groups.toJson_eq _, Entries.keys_mapValues _ _, ?_, ?_⟩
      · rw [Entries.mapValues, List.forall_mem_map]
        exact fun bucket hb => congrArg Json.arr (hbucket bucket hb).1
      · rw [Entries.mapValues, List.flatMap_map]
        exact records_grouped key items }

/-! ## Grouping again -/

/-- Groups are what grouping makes of their records, bucket after bucket. -/
theorem groupBy_regrouped :
    ∃ g, groupBy key (.arr items) = .ok g ∧ groupBy key (.arr g.records) = .ok g := by
  refine ⟨grouped key items, groupBy_eq_grouped key items, ?_⟩
  have hscatter : namedRecords key (grouped key items).records =
      Entries.scatter (grouped key items).buckets := by
    rw [namedRecords, Groups.records, List.map_flatMap]
    refine List.flatMap_congr fun bucket hb => List.map_congr_left fun record hrecord => ?_
    rw [(bucket_grouped key items bucket hb).1, List.mem_filter, decide_eq_true_eq,
      Groups.named_iff] at hrecord
    rw [hrecord.2]
  have hsame : Entries.gather (Entries.scatter (grouped key items).buckets) =
      (grouped key items).buckets :=
    Entries.gather_scatter (Entries.nodup_gather _) fun bucket hb =>
      (bucket_grouped key items bucket hb).2
  rw [groupBy_eq_grouped, grouped, hscatter, hsame]

end

/-! ## The buckets of absent and of null fields -/

namespace Json

/-- Whether a value is a text, alone or inside arrays of one element each. -/
def spells (text : String) : Json → Bool
  | str s => s == text
  | arr [item] => item.spells text
  | _ => false

theorem number_text_ne {text : String} (hmark : '_' ∈ text.toList) (n : Number) :
    n.text ≠ text := by
  rintro rfl
  rw [Number.text, String.toList_ofList] at hmark
  exact absurd (n.numeral_chars '_' hmark) (by decide)

theorem itemForms_single (item : Json) :
    ",".intercalate (itemForms [item]) = if item.isNull then "" else item.stringForm :=
  String.intercalate_singleton

theorem comma_mem_itemForms (a b : Json) (rest : List Json) :
    ',' ∈ (",".intercalate (itemForms (a :: b :: rest))).toList := by
  rw [itemForms, itemForms, String.intercalate_cons_cons]
  simp

/-- A text with an underscore and without a comma is the string form of itself and of the arrays
that hold nothing else. -/
theorem stringForm_eq_iff {text : String} (hmark : '_' ∈ text.toList)
    (hcomma : ',' ∉ text.toList) (v : Json) : v.stringForm = text ↔ v.spells text = true := by
  have hother : ∀ other : String, '_' ∉ other.toList → other ≠ text := by
    rintro other h rfl
    exact h hmark
  induction v using Json.induction with
  | null => exact iff_of_false (hother "null" (by decide)) Bool.false_ne_true
  | bool b =>
    refine iff_of_false ?_ Bool.false_ne_true
    cases b with
    | true => exact hother "true" (by decide)
    | false => exact hother "false" (by decide)
  | num n => exact iff_of_false (number_text_ne hmark n) Bool.false_ne_true
  | str s => exact beq_iff_eq.symm
  | obj entries => exact iff_of_false (hother "[object Object]" (by decide)) Bool.false_ne_true
  | arr items ih =>
    rw [stringForm]
    cases items with
    | nil => exact iff_of_false (hother "" (by decide)) Bool.false_ne_true
    | cons item rest =>
      cases rest with
      | nil =>
        have hitem : item.stringForm = text ↔ item.spells text = true :=
          ih item List.mem_cons_self
        rw [itemForms_single, spells, ← hitem]
        split
        · rename_i hnull
          cases item with
          | null => exact iff_of_false (hother "" (by decide)) (hother "null" (by decide))
          | _ => cases hnull
        · rfl
      | cons other rest =>
        refine iff_of_false ?_ Bool.false_ne_true
        rintro rfl
        exact hcomma (comma_mem_itemForms item other rest)

end Json

theorem recordsIn_grouped (key : Path) (items : List Json) (name : String) :
    (grouped key items).recordsIn name =
      items.filter fun record => Groups.Named key record name := by
  rw [← valuesOf_namedRecords, Groups.recordsIn, grouped, Entries.lookup_gather]
  split
  · rename_i hnil
    exact hnil.symm
  · rfl

namespace Groups

variable {key : Path} {record : Json}

theorem named_undefined_iff : Named key record "__undefined__" ↔
    (record.resolve key).all (Json.spells "__undefined__") = true := by
  rw [named_iff, bucketOf]
  split
  · rename_i h
    rw [h]
    exact iff_of_true rfl rfl
  · rename_i h
    rw [h]
    exact iff_of_false (by decide) Bool.false_ne_true
  · rename_i field _ h
    rw [h]
    exact Json.stringForm_eq_iff (by decide) (by decide) field

theorem named_null_iff : Named key record "__null__" ↔
    ((record.resolve key).any fun field => field.isNull || field.spells "__null__") = true := by
  rw [named_iff, bucketOf]
  split
  · rename_i h
    rw [h]
    exact iff_of_false (by decide) Bool.false_ne_true
  · rename_i h
    rw [h]
    exact iff_of_true rfl rfl
  · rename_i field hnull h
    rw [h, Option.any_some, Json.isNull_eq_false hnull, Bool.false_or]
    exact Json.stringForm_eq_iff (by decide) (by decide) field

end Groups

/-- The bucket of absent fields also holds the records whose field is its own name, and so does
the bucket of null fields; nothing else is in them. -/
theorem sentinelBuckets (key : Path) (items : List Json) :
    ∃ g, groupBy key (.arr items) = .ok g ∧
      (g.recordsIn "__undefined__" = items.filter fun record =>
        (record.resolve key).all (Json.spells "__undefined__")) ∧
      g.recordsIn "__null__" = items.filter fun record =>
        (record.resolve key).any fun field => field.isNull || field.spells "__null__" := by
  refine ⟨grouped key items, groupBy_eq_grouped key items, ?_, ?_⟩
  · simp only [recordsIn_grouped, Groups.named_undefined_iff, Bool.decide_eq_true]
  · simp only [recordsIn_grouped, Groups.named_null_iff, Bool.decide_eq_true]

/-- Records with an absent and with a null field, and records whose fields are texts that read as
the buckets of these. -/
def sentinelTexts : List Json :=
  [.obj [("d", .str "__undefined__")], .obj [], .obj [("d", .arr [.str "__null__"])],
    .obj [("d", .null)]]

/-- A text stands in the bucket of absent fields, and one in an array in that of null fields. -/
theorem sentinelTexts_grouped :
    ∃ g, groupBy (Path.parse "d") (.arr sentinelTexts) = .ok g ∧
      g.recordsIn "__undefined__" = [.obj [("d", .str "__undefined__")], .obj []] ∧
      (sentinelTexts.filter fun record => (record.resolve (Path.parse "d")).isNone) = [.obj []] ∧
      g.recordsIn "__null__" = [.obj [("d", .arr [.str "__null__"])], .obj [("d", .null)]] ∧
      (sentinelTexts.filter fun record => (record.resolve (Path.parse "d")).any Json.isNull) =
        [.obj [("d", .null)]] :=
  ⟨_, rfl, rfl, rfl, rfl, rfl⟩

end JsonInspect
