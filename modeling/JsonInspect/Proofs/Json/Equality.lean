import JsonInspect.Proofs.Json.Place
import JsonInspect.Proofs.Json.Tree
import JsonInspect.Proofs.Number.Integers

/-! # Equality of values

Values are equal exactly if the same places are there in both and what stands at each looks the same
(`same_iff_samePlaces`), so what holds of numbers holds of values. An integer and a double are equal
when the integer is rounded to the double. That relation is symmetric and, without NaNs, reflexive,
but a double may stand between two integers that are rounded to it. Nothing else keeps equality from
being transitive, and doubles below `2 ^ 53` stand between no two integers (`same_equivalence`). -/

namespace JsonInspect

/-! ## Equality of numbers -/

namespace Double

variable {d : Double}

theorem isNaN_ofInt (i : ℤ) : (ofInt i).isNaN = false := by
  rw [isNaN, decide_eq_false_iff_not, rank_ofInt]
  omega

/-- Below `2 ^ 53` every integer is a double of its own. -/
def isBelowRounding (d : Double) : Bool := d.rank < (ofInt (2 ^ 53)).rank

theorem natAbs_le_of_isBelowRounding {i : ℤ} (hd : d.isBelowRounding = true)
    (h : (ofInt i).orderKey = d.orderKey) : i.natAbs ≤ 2 ^ 53 := by
  have hrank : (ofInt i).rank < (ofInt (2 ^ 53)).rank := by
    rw [← natAbs_orderKey (ofInt i), h, natAbs_orderKey]
    exact of_decide_eq_true hd
  by_contra hlarge
  have hmono := integerRank_mono (Nat.le_of_not_le hlarge)
  rw [rank_ofInt, rank_ofInt] at hrank
  have hbound : ((2 : ℤ) ^ 53).natAbs = 2 ^ 53 := by decide
  rw [hbound] at hrank
  omega

/-- Such a double is not what two integers are rounded to. -/
theorem eq_of_isBelowRounding {i j : ℤ} (hd : d.isBelowRounding = true)
    (hi : (ofInt i).same d = true) (hj : d.same (ofInt j) = true) : i = j := by
  rw [same_iff] at hi hj
  exact ofInt_inj (natAbs_le_of_isBelowRounding hd hi.2.2)
    (natAbs_le_of_isBelowRounding hd hj.2.2.symm)
    (orderKey_ofInt_inj.mp (hi.2.2.trans hj.2.2))

end Double

namespace Number

variable {a b c n : Number}

def isNaN (n : Number) : Bool := n.toDouble.isNaN

/-- Not a double that integers beyond `2 ^ 53` may be rounded to. -/
def isBelowRounding : Number → Bool
  | int _ => true
  | double d => d.isBelowRounding

/-- If both are integers, then one and the same. -/
def SameInteger (a b : Number) : Prop := ∀ i j, a = int i → b = int j → i = j

theorem sameInteger_self (n : Number) : n.SameInteger n := by
  rintro i j rfl hj
  exact int.inj hj

theorem sameInteger_double_left (d : Double) (b : Number) : (double d).SameInteger b := by
  intro i j hi
  cases hi

theorem sameInteger_double_right (a : Number) (d : Double) : a.SameInteger (double d) := by
  intro i j _ hj
  cases hj

/-- Equal numbers are rounded to equal doubles, and only two integers can differ all the same. -/
theorem same_iff : a.same b = true ↔ a.toDouble.same b.toDouble = true ∧ a.SameInteger b := by
  cases a with
  | int i =>
    cases b with
    | int j =>
      rw [same, beq_iff_eq]
      constructor
      · rintro rfl
        exact ⟨Double.same_self_iff.mpr (Double.isNaN_ofInt _), sameInteger_self _⟩
      · exact fun h => h.2 i j rfl rfl
    | double d => exact (and_iff_left (sameInteger_double_right _ d)).symm
  | double d => exact (and_iff_left (sameInteger_double_left d b)).symm

theorem same_self_iff : n.same n = true ↔ n.isNaN = false := by
  rw [same_iff, and_iff_left (sameInteger_self n), Double.same_self_iff, isNaN]

theorem SameInteger.symm (h : a.SameInteger b) : b.SameInteger a :=
  fun i j hi hj => (h j i hj hi).symm

theorem same_symm (h : a.same b = true) : b.same a = true := by
  rw [same_iff] at h ⊢
  rw [Double.same_comm]
  exact ⟨h.1, h.2.symm⟩

/-- Equality passes from one pair to the next unless it comes to two integers. -/
theorem same_trans_iff (h : a.same b = true) (h' : b.same c = true) :
    a.same c = true ↔ a.SameInteger c := by
  rw [same_iff] at h h' ⊢
  exact and_iff_right (Double.same_trans h.1 h'.1)

theorem sameInteger_of_isBelowRounding (hb : b.isBelowRounding = true) (h : a.same b = true)
    (h' : b.same c = true) : a.SameInteger c := by
  rintro i j rfl rfl
  rw [same_iff] at h h'
  cases b with
  | int k => exact (h.2 i k rfl rfl).trans (h'.2 k j rfl rfl)
  | double d => exact Int64.toInt_inj.mp (Double.eq_of_isBelowRounding hb h.1 h'.1)

end Number

/-! ## Equality at every place -/

section

variable {α β : Type} {R S : α → β → Prop} {a : Option α} {b : Option β} {x : α}

theorem rel_some_iff : Option.Rel R (some x) b ↔ ∃ y, b = some y ∧ R x y := by
  cases b <;> simp

theorem rel_isSome (h : Option.Rel R a b) : a.isSome = b.isSome := by
  cases h <;> rfl

theorem rel_congr (h : ∀ x ∈ a, ∀ y ∈ b, (R x y ↔ S x y)) :
    Option.Rel R a b ↔ Option.Rel S a b := by
  cases a with
  | none => cases b <;> simp
  | some x =>
    cases b with
    | none => simp
    | some y =>
      rw [Option.rel_some_some, Option.rel_some_some]
      exact h x rfl y rfl

end

namespace Json

/-- What can be compared of values without going into them. -/
inductive LooksLike : Json → Json → Prop
  | null : LooksLike null null
  | bool (b : Bool) : LooksLike (bool b) (bool b)
  | num {a b : Number} (h : a.same b = true) : LooksLike (num a) (num b)
  | str (s : String) : LooksLike (str s) (str s)
  | arr (a b : List Json) : LooksLike (arr a) (arr b)
  | obj (a b : List (String × Json)) : LooksLike (obj a) (obj b)

/-- The same places are there and look the same. -/
def SamePlaces (u v : Json) : Prop := ∀ p, Option.Rel LooksLike (u.at? p) (v.at? p)

section

variable {u v w : Json}

theorem SamePlaces.looksLike (h : SamePlaces u v) : LooksLike u v := Option.rel_some_some.mp (h [])

theorem rel_bind_at? {a b : Option Json} :
    (∀ rest, Option.Rel LooksLike (a.bind (at? rest)) (b.bind (at? rest))) ↔
      Option.Rel SamePlaces a b := by
  constructor
  · intro h
    cases a with
    | none =>
      cases b with
      | none => exact .none
      | some y => cases h []
    | some x =>
      cases b with
      | none => cases h []
      | some y => exact .some h
  · intro h rest
    cases h with
    | none => exact .none
    | some hxy => exact hxy rest

theorem samePlaces_arr {a b : List Json} :
    SamePlaces (arr a) (arr b) ↔ ∀ i : Nat, Option.Rel SamePlaces a[i]? b[i]? := by
  constructor
  · exact fun h i => rel_bind_at?.mp fun rest => h (.index i :: rest)
  · intro h p
    match p with
    | [] => exact .some (.arr a b)
    | .key k :: rest => exact .none
    | .index i :: rest => exact rel_bind_at?.mpr (h i) rest

theorem samePlaces_obj {a b : List (String × Json)} :
    SamePlaces (obj a) (obj b) ↔ ∀ k, Option.Rel SamePlaces (a.lookup k) (b.lookup k) := by
  constructor
  · exact fun h k => rel_bind_at?.mp fun rest => h (.key k :: rest)
  · intro h p
    match p with
    | [] => exact .some (.obj a b)
    | .key k :: rest => exact rel_bind_at?.mpr (h k) rest
    | .index i :: rest => exact .none

theorem at?_leaf (h : v.isLeaf = true) (step : Step) (rest : List Step) :
    at? (step :: rest) v = none := by
  cases v with
  | arr items => cases h
  | obj entries => cases h
  | _ => cases step <;> rfl

theorem LooksLike.isLeaf (h : LooksLike u v) : u.isLeaf = v.isLeaf := by
  cases h <;> rfl

/-- Leaves have no places in them. -/
theorem same_leaf_iff (hu : u.isLeaf = true) : u.same v = true ↔ SamePlaces u v := by
  have hlook : u.same v = true ↔ LooksLike u v := by
    constructor
    · intro h
      unfold same at h
      split at h
      · exact .null
      · exact beq_iff_eq.mp h ▸ .bool _
      · exact .num h
      · exact beq_iff_eq.mp h ▸ .str _
      · cases hu
      · cases hu
      · cases h
    · intro h
      cases h with
      | null => rfl
      | bool b => exact beq_self_eq_true b
      | num h => exact h
      | str s => exact beq_self_eq_true s
      | arr a b => cases hu
      | obj a b => cases hu
  rw [hlook]
  refine ⟨fun h p => ?_, SamePlaces.looksLike⟩
  cases p with
  | nil => exact .some h
  | cons step rest =>
    rw [at?_leaf hu, at?_leaf (h.isLeaf ▸ hu)]
    exact .none

theorem sameItems_iff {a b : List Json} :
    sameItems a b = true ↔ ∀ i : Nat, Option.Rel (fun x y => x.same y = true) a[i]? b[i]? := by
  induction a generalizing b with
  | nil =>
    cases b with
    | nil => exact iff_of_true rfl fun i => .none
    | cons y rest => exact iff_of_false nofun fun h => nomatch h 0
  | cons x rest ih =>
    cases b with
    | nil => exact iff_of_false nofun fun h => nomatch h 0
    | cons y rest' =>
      refine Iff.trans ?_ Nat.and_forall_add_one
      rw [sameItems, Bool.and_eq_true, ih]
      simp only [List.getElem?_cons_zero, List.getElem?_cons_succ, Option.rel_some_some]

theorem sameEntries_iff {a b : List (String × Json)} :
    sameEntries a b = true ↔ ∀ e ∈ a, ∃ y, b.lookup e.1 = some y ∧ e.2.same y = true := by
  induction a with
  | nil => exact iff_of_true rfl nofun
  | cons e rest ih =>
    rw [List.forall_mem_cons, ← ih, sameEntries, Bool.and_eq_true]
    cases b.lookup e.1 with
    | none => simp
    | some y => simp

/-- Distinct keys that are all in a map of as many entries are the keys of that map. -/
theorem keys_perm_of_subset {a b : List (String × Json)} (ha : (Entries.keys a).Nodup)
    (hlength : a.length = b.length) (h : Entries.keys a ⊆ Entries.keys b) :
    (Entries.keys a).Perm (Entries.keys b) := by
  refine (List.subperm_of_subset ha h).perm_of_length_le ?_
  rw [Entries.keys, Entries.keys, List.length_map, List.length_map, hlength]

/-- Maps are equal exactly if equal values stand under each key. -/
theorem same_obj_iff {a b : List (String × Json)} (ha : (Entries.keys a).Nodup)
    (hb : (Entries.keys b).Nodup) : (obj a).same (obj b) = true ↔
      ∀ k, Option.Rel (fun x y => x.same y = true) (a.lookup k) (b.lookup k) := by
  rw [same, Bool.and_eq_true, beq_iff_eq, sameEntries_iff]
  constructor
  · rintro ⟨hlength, hfound⟩ k
    have hsubset : Entries.keys a ⊆ Entries.keys b := by
      intro k hk
      obtain ⟨e, he, rfl⟩ := List.mem_map.mp hk
      obtain ⟨y, hy, -⟩ := hfound e he
      exact Entries.mem_keys_of_mem (Entries.mem_of_lookup hy)
    have hperm := keys_perm_of_subset ha hlength hsubset
    cases hx : a.lookup k with
    | some x => exact rel_some_iff.mpr (hfound (k, x) (Entries.mem_of_lookup hx))
    | none =>
      rw [Entries.lookup_eq_none_iff, hperm.mem_iff, ← Entries.lookup_eq_none_iff] at hx
      rw [hx]
      exact .none
  · intro h
    have hkeys : ∀ k, k ∈ Entries.keys a ↔ k ∈ Entries.keys b := by
      intro k
      rw [← Entries.hasKey_iff, ← Entries.hasKey_iff, Entries.hasKey, Entries.hasKey,
        rel_isSome (h k)]
    have hperm := (List.perm_ext_iff_of_nodup ha hb).mpr hkeys
    refine ⟨by simpa [Entries.keys] using hperm.length_eq, fun e he => ?_⟩
    have hrel := h e.1
    rw [Entries.lookup_of_mem ha he] at hrel
    exact rel_some_iff.mp hrel

/-- Equality of values is equality at every place. -/
theorem same_iff_samePlaces (hu : u.everywhere hasDistinctKeys = true)
    (hv : v.everywhere hasDistinctKeys = true) : u.same v = true ↔ SamePlaces u v := by
  induction u using induction generalizing v with
  | null => exact same_leaf_iff rfl
  | bool b => exact same_leaf_iff rfl
  | num n => exact same_leaf_iff rfl
  | str s => exact same_leaf_iff rfl
  | arr a ih =>
    cases v with
    | arr b =>
      rw [same, sameItems_iff, samePlaces_arr]
      refine forall_congr' fun i => rel_congr fun x hx y hy => ?_
      have hxa := List.mem_of_getElem? hx
      exact ih x hxa ((everywhere_arr.mp hu).2 x hxa)
        ((everywhere_arr.mp hv).2 y (List.mem_of_getElem? hy))
    | _ => exact iff_of_false nofun fun h => nomatch h.looksLike
  | obj a ih =>
    cases v with
    | obj b =>
      obtain ⟨ha, hbelow⟩ := everywhere_obj.mp hu
      obtain ⟨hb, hbelow'⟩ := everywhere_obj.mp hv
      rw [same_obj_iff (of_decide_eq_true ha) (of_decide_eq_true hb), samePlaces_obj]
      refine forall_congr' fun k => rel_congr fun x hx y hy => ?_
      have hxa := Entries.mem_of_lookup hx
      exact ih _ hxa (hbelow _ hxa) (hbelow' _ (Entries.mem_of_lookup hy))
    | _ => exact iff_of_false nofun fun h => nomatch h.looksLike

/-! ## Properties at every place -/

section

variable {P : Json → Prop}

theorem forall_at?_leaf (h : v.isLeaf = true) : (∀ q w, v.at? q = some w → P w) ↔ P v := by
  refine ⟨fun hall => hall [] v rfl, fun hself q w hq => ?_⟩
  cases q with
  | nil => exact Option.some.inj hq ▸ hself
  | cons step rest =>
    rw [at?_leaf h] at hq
    cases hq

theorem forall_at?_arr {items : List Json} : (∀ q w, (arr items).at? q = some w → P w) ↔
    P (arr items) ∧ ∀ item ∈ items, ∀ q w, item.at? q = some w → P w := by
  constructor
  · refine fun hall => ⟨hall [] _ rfl, fun item hitem q w hq => ?_⟩
    obtain ⟨i, hi⟩ := List.getElem?_of_mem hitem
    refine hall (.index i :: q) w ?_
    rw [at?_index, hi]
    exact hq
  · rintro ⟨hself, hbelow⟩ q w hq
    match q with
    | [] => exact Option.some.inj hq ▸ hself
    | .key k :: rest => cases hq
    | .index i :: rest =>
      obtain ⟨item, hi, hw⟩ := Option.bind_eq_some_iff.mp hq
      exact hbelow item (List.mem_of_getElem? hi) rest w hw

theorem forall_at?_obj {entries : List (String × Json)} (hn : (Entries.keys entries).Nodup) :
    (∀ q w, (obj entries).at? q = some w → P w) ↔
      P (obj entries) ∧ ∀ e ∈ entries, ∀ q w, e.2.at? q = some w → P w := by
  constructor
  · refine fun hall => ⟨hall [] _ rfl, fun e he q w hq => hall (.key e.1 :: q) w ?_⟩
    rw [at?_key, Entries.lookup_of_mem hn he]
    exact hq
  · rintro ⟨hself, hbelow⟩ q w hq
    match q with
    | [] => exact Option.some.inj hq ▸ hself
    | .index i :: rest => cases hq
    | .key k :: rest =>
      obtain ⟨child, hk, hw⟩ := Option.bind_eq_some_iff.mp hq
      exact hbelow (k, child) (Entries.mem_of_lookup hk) rest w hw

end

theorem everywhere_iff_at? {p : Json → Bool} (hv : v.everywhere hasDistinctKeys = true) :
    v.everywhere p = true ↔ ∀ q w, v.at? q = some w → p w = true := by
  induction v using induction with
  | null => exact (forall_at?_leaf (P := (p · = true)) rfl).symm
  | bool b => exact (forall_at?_leaf (P := (p · = true)) rfl).symm
  | num n => exact (forall_at?_leaf (P := (p · = true)) rfl).symm
  | str s => exact (forall_at?_leaf (P := (p · = true)) rfl).symm
  | arr items ih =>
    rw [everywhere_arr, forall_at?_arr]
    exact and_congr_right' (forall₂_congr fun item hi =>
      ih item hi ((everywhere_arr.mp hv).2 item hi))
  | obj entries ih =>
    obtain ⟨hn, hbelow⟩ := everywhere_obj.mp hv
    rw [everywhere_obj, forall_at?_obj (of_decide_eq_true hn)]
    exact and_congr_right' (forall₂_congr fun e he => ih e he (hbelow e he))

def allNumbers (p : Number → Bool) (v : Json) : Bool :=
  v.everywhere fun
    | num n => p n
    | _ => true

theorem allNumbers_iff {p : Number → Bool} (hv : v.everywhere hasDistinctKeys = true) :
    v.allNumbers p = true ↔ ∀ q n, v.at? q = some (num n) → p n = true := by
  rw [allNumbers, everywhere_iff_at? hv]
  constructor
  · exact fun h q n hq => h q (num n) hq
  · intro h q w hq
    cases w with
    | num n => exact h q n hq
    | _ => rfl

/-! ## Equality as a relation -/

theorem looksLike_self_iff : LooksLike v v ↔ ∀ n, v = num n → n.isNaN = false := by
  cases v with
  | num n =>
    constructor
    · intro hlook m hm
      cases hm
      cases hlook with
      | num hsame => exact Number.same_self_iff.mp hsame
    · exact fun h => .num (Number.same_self_iff.mpr (h n rfl))
  | null => exact iff_of_true .null nofun
  | bool b => exact iff_of_true (.bool b) nofun
  | str s => exact iff_of_true (.str s) nofun
  | arr items => exact iff_of_true (.arr _ _) nofun
  | obj entries => exact iff_of_true (.obj _ _) nofun

theorem LooksLike.symm (h : LooksLike u v) : LooksLike v u := by
  cases h with
  | num h => exact .num (Number.same_symm h)
  | _ => constructor

theorem LooksLike.trans_iff (h : LooksLike u v) (h' : LooksLike v w) :
    LooksLike u w ↔ ∀ i j, u = Json.num (.int i) → w = Json.num (.int j) → i = j := by
  cases h with
  | num h =>
    cases h' with
    | num h' =>
      have hnum := Number.same_trans_iff h h'
      constructor
      · intro hlook i j hi hj
        cases hlook with
        | num hsame => exact hnum.mp hsame i j (Json.num.inj hi) (Json.num.inj hj)
      · exact fun hsame => .num (hnum.mpr fun i j hi hj =>
          hsame i j (congrArg Json.num hi) (congrArg Json.num hj))
  | _ =>
    cases h'
    exact iff_of_true (by constructor) nofun

/-- No place holds two integers that differ. -/
def SameIntegers (u w : Json) : Prop :=
  ∀ q i j, u.at? q = some (num (.int i)) → w.at? q = some (num (.int j)) → i = j

theorem samePlaces_self_iff :
    SamePlaces v v ↔ ∀ q n, v.at? q = some (num n) → n.isNaN = false := by
  refine forall_congr' fun q => ?_
  cases v.at? q with
  | none => exact iff_of_true .none nofun
  | some x =>
    rw [Option.rel_some_some, looksLike_self_iff]
    simp only [Option.some.injEq]

theorem SamePlaces.symm (h : SamePlaces u v) : SamePlaces v u := by
  intro q
  have hq := h q
  generalize u.at? q = x, v.at? q = y at hq
  cases hq with
  | none => exact .none
  | some hxy => exact .some hxy.symm

theorem SamePlaces.trans_iff (h : SamePlaces u v) (h' : SamePlaces v w) :
    SamePlaces u w ↔ SameIntegers u w := by
  refine forall_congr' fun q => ?_
  have hq := h q
  have hq' := h' q
  generalize u.at? q = x, v.at? q = y, w.at? q = z at hq hq'
  cases hq with
  | none =>
    cases hq'
    exact iff_of_true .none nofun
  | some hxy =>
    cases hq' with
    | some hyz =>
      rw [Option.rel_some_some, hxy.trans_iff hyz]
      simp only [Option.some.injEq]

/-- What stands between two integers is equal to both, so they are one when it is exact. -/
theorem SamePlaces.sameIntegers (h : SamePlaces u v) (h' : SamePlaces v w)
    (hv : v.everywhere hasDistinctKeys = true)
    (hexact : v.allNumbers Number.isBelowRounding = true) : SameIntegers u w := by
  intro q i j hi hj
  have hq := h q
  have hq' := h' q
  rw [hi, rel_some_iff] at hq
  obtain ⟨y, hy, hiy⟩ := hq
  rw [hj, hy, Option.rel_some_some] at hq'
  cases hiy with
  | num hib =>
    cases hq' with
    | num hbj =>
      exact Number.sameInteger_of_isBelowRounding ((allNumbers_iff hv).mp hexact q _ hy) hib hbj
        i j rfl rfl

/-- Equality of values with distinct keys is reflexive exactly without NaNs, it is symmetric, and it
passes from two pairs to the outer one exactly if no place holds integers that differ. Doubles below
`2 ^ 53` in the middle make sure of that. -/
theorem same_equivalence (hu : u.everywhere hasDistinctKeys = true)
    (hv : v.everywhere hasDistinctKeys = true) (hw : w.everywhere hasDistinctKeys = true) :
    (v.same v = true ↔ v.allNumbers (!·.isNaN) = true) ∧
    u.same v = v.same u ∧
    (u.same v = true → v.same w = true →
      (u.same w = true ↔ SameIntegers u w) ∧
      (v.allNumbers Number.isBelowRounding = true → u.same w = true)) := by
  refine ⟨?_, ?_, fun huv hvw => ?_⟩
  · rw [same_iff_samePlaces hv hv, samePlaces_self_iff, allNumbers_iff hv]
    simp only [Bool.not_eq_true']
  · rw [Bool.eq_iff_iff, same_iff_samePlaces hu hv, same_iff_samePlaces hv hu]
    exact ⟨SamePlaces.symm, SamePlaces.symm⟩
  · rw [same_iff_samePlaces hu hv] at huv
    rw [same_iff_samePlaces hv hw] at hvw
    rw [same_iff_samePlaces hu hw]
    exact ⟨huv.trans_iff hvw, fun hexact =>
      (huv.trans_iff hvw).mpr (huv.sameIntegers hvw hv hexact)⟩

/-- A record with a number that no double stands for. -/
def parcel (sizes : List Number) : Json :=
  obj [("id", num (.int 9007199254740993)), ("sizes", arr (sizes.map num))]

def turnedParcel (sizes : List Number) : Json :=
  obj [("sizes", arr (sizes.map num)), ("id", num (.int 9007199254740993))]

theorem parcels_same :
    (parcel [.int 1, .double (.ofInt 2)]).everywhere hasDistinctKeys = true ∧
    (turnedParcel [.double (.ofInt 1), .double (.ofInt 2)]).everywhere hasDistinctKeys = true ∧
    (parcel [.double (.ofInt 1), .int 2]).everywhere hasDistinctKeys = true ∧
    (parcel [.int 1, .double (.ofInt 2)]).same (parcel [.double (.ofInt 1), .int 2]) = true :=
  have hu : (parcel [.int 1, .double (.ofInt 2)]).everywhere hasDistinctKeys = true := by decide
  have hv : (turnedParcel [.double (.ofInt 1), .double (.ofInt 2)]).everywhere
      hasDistinctKeys = true := by decide
  have hw : (parcel [.double (.ofInt 1), .int 2]).everywhere hasDistinctKeys = true := by decide
  ⟨hu, hv, hw, ((same_equivalence hu hv hw).2.2 (by decide +kernel) (by decide +kernel)).2
    (by decide +kernel)⟩

/-- The double `2 ^ 53` equals the integer `2 ^ 53` and the next one, which are not equal. -/
theorem double_between_neighbours :
    (num (.int 9007199254740993)).same (num (.double (.ofBits 0x4340000000000000))) = true ∧
    (num (.double (.ofBits 0x4340000000000000))).same (num (.int 9007199254740992)) = true ∧
    (num (.int 9007199254740993)).same (num (.int 9007199254740992)) = false ∧
    (num (.double (.ofBits 0x4340000000000000))).allNumbers (!·.isNaN) = true := by
  decide +kernel

end

end Json

end JsonInspect
