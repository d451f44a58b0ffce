import JsonInspect.Proofs.Engine.Replaced
import JsonInspect.Proofs.Json.Place

/-! # Assigned values

An assignment replaces the object that is to hold the path's last key, and there puts one entry
(`assign_eq_some_iff`). The path then leads to the value, every path that parts from it leads
where it led, and of two assignments whose paths part it does not matter which comes first, but
for the order of keys that both add to one object. -/

namespace JsonInspect

/-! ## One entry put -/

namespace Entries

variable {α : Type} {k l : String} {v w : α} {entries : List (String × α)}

theorem lookup_put (key : String) (value : α) (entries : List (String × α)) (k : String) :
    (put key value entries).lookup k = if k = key then some value else entries.lookup k := by
  split
  · rename_i hk
    rw [hk, lookup_put_self]
  · rename_i hk
    exact lookup_put_of_ne value entries hk

theorem mem_keys_of_lookup (h : entries.lookup k = some v) : k ∈ keys entries :=
  mem_keys_of_mem (mem_of_lookup h)

/-- Two entries of which one has its place already may be put in either order. -/
theorem put_comm (hne : k ≠ l) (h : k ∈ keys entries ∨ l ∈ keys entries) :
    put l w (put k v entries) = put k v (put l w entries) := by
  induction entries with
  | nil => simp [keys] at h
  | cons e rest ih =>
    obtain ⟨key, value⟩ := e
    by_cases hk : key = k
    · subst hk
      simp [put, hne]
    · by_cases hl : key = l
      · subst hl
        simp [put, hk]
      · have hrest : k ∈ keys rest ∨ l ∈ keys rest := by
          simpa [keys_cons, Ne.symm hk, Ne.symm hl] using h
        simp [put, hk, hl, ih hrest]

/-- Two new entries stand in the order in which they are put. -/
theorem put_put_of_not_mem (hne : k ≠ l) (hk : k ∉ keys entries) (hl : l ∉ keys entries) :
    put l w (put k v entries) = entries ++ [(k, v), (l, w)] := by
  have hl' : l ∉ keys (entries ++ [(k, v)]) := by
    simpa [keys, hne.symm] using hl
  rw [put_of_not_mem v hk, put_of_not_mem w hl', List.append_assoc]
  rfl

end Entries

/-! ## Paths that part -/

/-- Two lists of which neither begins with the other have a common part and then differ. -/
theorem exists_fork {α : Type} {p q : List α} (hpq : ¬ p <+: q) (hqp : ¬ q <+: p) :
    ∃ common k l p' q', p = common ++ k :: p' ∧ q = common ++ l :: q' ∧ k ≠ l := by
  induction p generalizing q with
  | nil => exact absurd List.nil_prefix hpq
  | cons k p ih =>
    cases q with
    | nil => exact absurd List.nil_prefix hqp
    | cons l q =>
      by_cases hkl : k = l
      · subst hkl
        rw [List.cons_prefix_cons, not_and] at hpq hqp
        obtain ⟨common, k', l', p', q', rfl, rfl, hne⟩ := ih (hpq rfl) (hqp rfl)
        exact ⟨k :: common, k', l', p', q', rfl, rfl, hne⟩
      · exact ⟨[], k, l, p, q, rfl, rfl, hkl⟩

theorem Path.eq_child_iff {p q : Path} {key : String} :
    p = q.child key ↔ p.segments = q.segments ++ [key] := by
  cases p
  simp [child]

namespace Json

variable {p q : Path} {key : String} {keys rest : List String} {v v' x child : Json}
  {entries : List (String × Json)}

/-! ## What an assignment replaces -/

theorem assign_eq_some_iff (hp : p.segments = keys ++ [key]) : v.assign p x = some v' ↔
    ∃ entries, ReplacedAt (obj entries) (obj (Entries.put key x entries)) keys v v' := by
  have hlast : p.last? = some key := by rw [Path.last?, hp, List.getLast?_concat]
  rw [assign, hlast, updateParent_eq_some_iff, isEmpty_of_last? hlast, hp, List.dropLast_concat]
  simp

/-- What an assignment makes of the value of an entry, when the keys after that entry's key are
known. -/
def assignBelow (rest : List String) (x : Json) (child : Option Json) : Option Json :=
  match rest with
  | [] => some x
  | _ => child.bind fun c => c.assign ⟨rest⟩ x

/-- Wherever a path is cut, an assignment puts one entry there. -/
theorem assign_through (hp : p.segments = keys ++ key :: rest) : v.assign p x = some v' ↔
    ∃ entries child, assignBelow rest x (entries.lookup key) = some child ∧
      ReplacedAt (obj entries) (obj (Entries.put key child entries)) keys v v' := by
  rcases List.eq_nil_or_concat rest with rfl | ⟨below, last, rfl⟩
  · simp [assign_eq_some_iff hp, assignBelow]
  · have hp' : p.segments = (keys ++ key :: below) ++ [last] := by simp [hp]
    have hbelow : ∀ child : Option Json, assignBelow (below ++ [last]) x child =
        child.bind fun c => c.assign ⟨below ++ [last]⟩ x := fun child => by
      cases below <;> rfl
    rw [List.concat_eq_append, assign_eq_some_iff hp']
    simp only [replacedAt_append, replacedAt_cons_iff, hbelow, Option.bind_eq_some_iff,
      assign_eq_some_iff (p := ⟨below ++ [last]⟩) rfl]
    constructor
    · rintro ⟨es, w, w', h, entries, child, child', rfl, hlookup, hchild, rfl⟩
      exact ⟨entries, child', ⟨child, hlookup, es, hchild⟩, h⟩
    · rintro ⟨entries, child', ⟨child, hlookup, es, hchild⟩, h⟩
      exact ⟨es, _, _, h, entries, child, child', rfl, hlookup, hchild, rfl⟩

/-- Below the first of several keys nothing is assigned unless it is there. -/
theorem mem_keys_of_assignBelow (hrest : rest ≠ [])
    (h : assignBelow rest x (entries.lookup key) = some child) : key ∈ Entries.keys entries := by
  cases rest with
  | nil => contradiction
  | cons next rest =>
    obtain ⟨child', hlookup, -⟩ := Option.bind_eq_some_iff.mp h
    exact Entries.mem_keys_of_lookup hlookup

theorem resolve_of_segments (hp : p.segments = keys ++ key :: rest) (v : Json) :
    v.resolve p = (walk keys v).bind (walk (key :: rest)) := by
  rw [resolve, Path.isEmpty, hp, ← walk_append]
  cases keys <;> rfl

theorem parentOf_of_segments (hp : p.segments = keys ++ [key]) (v : Json) :
    v.parentOf p = (walk keys v).filter isObject := by
  have hlast : p.last? = some key := by rw [Path.last?, hp, List.getLast?_concat]
  rw [parentOf, isEmpty_of_last? hlast, if_neg Bool.false_ne_true, hp, List.dropLast_concat]

/-! ## The laws of an assignment -/

theorem isSome_assign (v : Json) (p : Path) (x : Json) :
    (v.assign p x).isSome = (v.parentOf p).isSome := by
  rcases List.eq_nil_or_concat p.segments with hp | ⟨keys, key, hp⟩
  · rw [assign, parentOf, Path.last?, Path.isEmpty, hp]
    rfl
  · rw [List.concat_eq_append] at hp
    rw [Bool.eq_iff_iff, Option.isSome_iff_exists, Option.isSome_iff_exists,
      parentOf_of_segments hp]
    constructor
    · rintro ⟨v', h⟩
      obtain ⟨entries, hreplaced⟩ := (assign_eq_some_iff hp).mp h
      exact ⟨obj entries, Option.filter_eq_some_iff.mpr ⟨hreplaced.walk_left, rfl⟩⟩
    · rintro ⟨parent, h⟩
      obtain ⟨hwalk, hobject⟩ := Option.filter_eq_some_iff.mp h
      cases parent with
      | obj entries =>
        obtain ⟨v', hreplaced⟩ := exists_replacedAt (obj (Entries.put key x entries)) hwalk
        exact ⟨v', (assign_eq_some_iff hp).mpr ⟨entries, hreplaced⟩⟩
      | _ => cases hobject

/-- A path that leads to a value can be given that value, which changes nothing. -/
theorem assign_self (h : v.resolve p = some x) : v.assign p x = some v := by
  rcases List.eq_nil_or_concat p.segments with hp | ⟨keys, key, hp⟩
  · rw [resolve, Path.isEmpty, hp] at h
    cases h
  · rw [List.concat_eq_append] at hp
    rw [resolve_of_segments hp, Option.bind_eq_some_iff] at h
    obtain ⟨u, hwalk, hu⟩ := h
    obtain ⟨entries, child, rfl, hlookup, hchild⟩ := walk_cons_eq_some.mp hu
    cases hchild
    obtain ⟨v', hreplaced⟩ := exists_replacedAt (obj entries) hwalk
    obtain rfl := hreplaced.eq
    exact (assign_eq_some_iff hp).mpr ⟨entries, by rwa [Entries.put_lookup hlookup]⟩

section

variable (hp : p.segments = keys ++ [key])

include hp

theorem resolve_assign (h : v.assign p x = some v') : v'.resolve p = some x := by
  obtain ⟨entries, hreplaced⟩ := (assign_eq_some_iff hp).mp h
  rw [resolve_of_segments hp, hreplaced.walk_right, Option.bind_some, walk,
    Entries.lookup_put_self]
  rfl

/-- Of two assignments to one path only the second is seen. -/
theorem assign_assign (h : v.assign p x = some v') (y : Json) : v'.assign p y = v.assign p y := by
  obtain ⟨entries, hx⟩ := (assign_eq_some_iff hp).mp h
  refine Option.ext fun w => ?_
  rw [assign_eq_some_iff hp, assign_eq_some_iff hp]
  constructor
  · rintro ⟨entries', hy⟩
    obtain rfl : Entries.put key x entries = entries' := obj.inj (hx.symm.left_unique hy)
    rw [Entries.put_put] at hy
    exact ⟨entries, hx.trans hy⟩
  · rintro ⟨entries', hy⟩
    obtain rfl : entries = entries' := obj.inj (hx.left_unique hy)
    refine ⟨Entries.put key x entries, ?_⟩
    rw [Entries.put_put]
    exact hx.symm.trans hy

end

/-- Paths that part from the assigned one lead where they led. -/
theorem resolve_assign_of_parts (hpq : ¬ p.segments <+: q.segments)
    (hqp : ¬ q.segments <+: p.segments) (h : v.assign p x = some v') :
    v'.resolve q = v.resolve q := by
  obtain ⟨common, k, l, p', q', hp, hq, hne⟩ := exists_fork hpq hqp
  obtain ⟨entries, child, -, hreplaced⟩ := (assign_through hp).mp h
  rw [resolve_of_segments hq, resolve_of_segments hq, hreplaced.walk_left, hreplaced.walk_right,
    Option.bind_some, Option.bind_some, walk, walk, Entries.lookup_put_of_ne _ _ hne.symm]

/-- Each object on the way to the assigned value has its keys in the order that they had; the one
that holds the path's last key has that key at its end if it is new. -/
theorem keys_assign (hp : p.segments = keys ++ key :: rest) (h : v.assign p x = some v') :
    ∃ entries entries', walk keys v = some (obj entries) ∧ walk keys v' = some (obj entries') ∧
      Entries.keys entries' = if rest = [] ∧ key ∉ Entries.keys entries
        then Entries.keys entries ++ [key] else Entries.keys entries := by
  obtain ⟨entries, child, hchild, hreplaced⟩ := (assign_through hp).mp h
  refine ⟨entries, _, hreplaced.walk_left, hreplaced.walk_right, ?_⟩
  rw [Entries.keys_put]
  by_cases hkey : key ∈ Entries.keys entries
  · simp [hkey]
  · by_cases hrest : rest = []
    · simp [hkey, hrest]
    · exact absurd (mem_keys_of_assignBelow hrest hchild) hkey

/-! ## An assignment in place -/

theorem assign_cons_cons (key next : String) (rest : List String)
    (entries : List (String × Json)) (x : Json) :
    (obj entries).assign ⟨key :: next :: rest⟩ x = (entries.lookup key).bind fun child =>
      (child.assign ⟨next :: rest⟩ x).map fun child' => obj (Entries.put key child' entries) := by
  rw [assign, Path.last?, List.getLast?_cons_cons, List.getLast?_cons]
  cases hlookup : entries.lookup key with
  | none => simp [updateParent, updateAt, hlookup, Path.isEmpty]
  | some child =>
    simp [updateParent, updateAt, hlookup, Path.isEmpty, assign, Path.last?, List.getLast?_cons]

/-- The descent leaves the assigned value, and without one the value that it found. -/
theorem assignInPlace_eq (x : Json) (keys : List String) (v : Json) :
    assignInPlace x keys v = ((v.assign ⟨keys⟩ x).getD v, (v.assign ⟨keys⟩ x).isSome) := by
  induction keys generalizing v with
  | nil => simp [assignInPlace, assign, Path.last?]
  | cons key rest ih =>
    cases v with
    | obj entries =>
      cases rest with
      | nil => rfl
      | cons next rest =>
        rw [assignInPlace, assign_cons_cons]
        cases hlookup : entries.lookup key with
        | none => rfl
        | some child =>
          simp only [ih, Option.bind_some]
          cases child.assign ⟨next :: rest⟩ x with
          | none => simp [Entries.put_lookup hlookup]
          | some child' => rfl
    | _ =>
      cases rest <;>
        simp [assignInPlace, assign, updateParent, updateAt, Path.last?, List.getLast?_cons]

end Json

/-- A value in which a path was assigned. The path leads to what it was given and may be given
another value as before; paths that part from it lead where they led. The objects on the way
keep their keys in order, and only to the last of them a key may be added, at its end. -/
structure Assigned (v : Json) (p : Path) (x v' : Json) : Prop where
  reached : v'.resolve p = some x
  elsewhere : ∀ q : Path, ¬ p.segments <+: q.segments → ¬ q.segments <+: p.segments →
    v'.resolve q = v.resolve q
  onTheWay : ∀ (q : Path) (key : String), q.isEmpty = false →
    (q.child key).segments <+: p.segments → ∃ entries entries',
      v.resolve q = some (.obj entries) ∧ v'.resolve q = some (.obj entries') ∧
        Entries.keys entries' = if p = q.child key ∧ key ∉ Entries.keys entries
          then Entries.keys entries ++ [key] else Entries.keys entries
  parent : ∀ key, p.last? = some key → ∃ entries entries',
    v.parentOf p = some (.obj entries) ∧ v'.parentOf p = some (.obj entries') ∧
      Entries.keys entries' = if key ∉ Entries.keys entries
        then Entries.keys entries ++ [key] else Entries.keys entries
  again : ∀ y, v'.assign p y = v.assign p y

section

variable {v v' x : Json} {p : Path}

theorem assigned_of_assign (h : v.assign p x = some v') : Assigned v p x v' := by
  rcases List.eq_nil_or_concat p.segments with hp | ⟨keys, last, hp⟩
  · rw [Json.assign, Path.last?, hp] at h
    cases h
  rw [List.concat_eq_append] at hp
  refine ⟨Json.resolve_assign hp h, fun q hpq hqp => Json.resolve_assign_of_parts hpq hqp h, ?_,
    ?_, Json.assign_assign hp h⟩
  · rintro q key hq ⟨rest, hrest⟩
    have hsegments : p.segments = q.segments ++ key :: rest := by simp [← hrest, Path.child]
    obtain ⟨entries, entries', hwalk, hwalk', hkeys⟩ := Json.keys_assign hsegments h
    have hchild : p = q.child key ↔ rest = [] := by
      rw [Path.eq_child_iff, hsegments]
      simp
    refine ⟨entries, entries', ?_, ?_, by simp only [hkeys, hchild]⟩
    · rw [Json.resolve, hq, if_neg Bool.false_ne_true, hwalk]
    · rw [Json.resolve, hq, if_neg Bool.false_ne_true, hwalk']
  · intro key hlast
    obtain rfl : last = key := by
      rw [Path.last?, hp, List.getLast?_concat] at hlast
      exact Option.some.inj hlast
    obtain ⟨entries, entries', hwalk, hwalk', hkeys⟩ := Json.keys_assign hp h
    refine ⟨entries, entries', ?_, ?_, by simpa using hkeys⟩
    · rw [Json.parentOf_of_segments hp, hwalk]
      rfl
    · rw [Json.parentOf_of_segments hp, hwalk']
      rfl

end

/-- A path can be assigned exactly if there is an object that is to hold its last key, and a
value in which it cannot is left as it was. Assigning what is there changes nothing. -/
theorem assign_lens (v : Json) (p : Path) (x : Json) :
    (v.assign p x).isSome = (v.parentOf p).isSome ∧
      Json.assignInPlace x p.segments v =
        ((v.assign p x).getD v, (v.assign p x).isSome) ∧
      (v.resolve p = some x → v.assign p x = some v) ∧
      ∀ v', v.assign p x = some v' → Assigned v p x v' :=
  ⟨Json.isSome_assign v p x, Json.assignInPlace_eq x p.segments v, Json.assign_self,
    fun _ => assigned_of_assign⟩

def innerName : Json := .obj [("user", .obj [("name", .str "Ann")]), ("id", .num (.int 7))]

def innerNick : Json :=
  .obj [("user", .obj [("name", .str "Ann"), ("nick", .str "An")]), ("id", .num (.int 7))]

theorem innerName_assigned :
    innerName.resolve ⟨["user", "name"]⟩ = some (.str "Ann") ∧
      innerName.assign ⟨["user", "name"]⟩ (.str "Ann") = some innerName ∧
      innerName.assign ⟨["user", "nick"]⟩ (.str "An") = some innerNick ∧
      Assigned innerName ⟨["user", "nick"]⟩ (.str "An") innerNick ∧
      ¬ ["user", "nick"] <+: ["user", "name"] ∧ ¬ ["user", "name"] <+: ["user", "nick"] ∧
      innerNick.resolve ⟨["user", "name"]⟩ = innerName.resolve ⟨["user", "name"]⟩ := by
  have hthere : innerName.resolve ⟨["user", "name"]⟩ = some (.str "Ann") := by rfl
  have hnick : innerName.assign ⟨["user", "nick"]⟩ (.str "An") = some innerNick := by rfl
  have hassigned := (assign_lens innerName ⟨["user", "nick"]⟩ (.str "An")).2.2.2 innerNick hnick
  have hpq : ¬ ["user", "nick"] <+: ["user", "name"] := by decide
  have hqp : ¬ ["user", "name"] <+: ["user", "nick"] := by decide
  exact ⟨hthere, (assign_lens innerName ⟨["user", "name"]⟩ (.str "Ann")).2.2.1 hthere, hnick,
    hassigned, hpq, hqp, hassigned.elsewhere ⟨["user", "name"]⟩ hpq hqp⟩

/-! ## Two assignments -/

/-- What kind of container a value is, or the value itself if it is none. -/
def Json.outline : Json → Json
  | .obj _ => .obj []
  | .arr _ => .arr []
  | v => v

/-- Two values with the same entries everywhere: whatever keys and indices lead to in one of
them, they lead to in the other. The order of the keys of an object is not compared. -/
def SameEntries (v w : Json) : Prop :=
  ∀ place, (v.at? place).map Json.outline = (w.at? place).map Json.outline

theorem sameEntries_of_lookup {entries entries' : List (String × Json)}
    (h : ∀ key, entries.lookup key = entries'.lookup key) :
    SameEntries (.obj entries) (.obj entries') := by
  rintro (_ | ⟨_ | _, rest⟩)
  · rfl
  · rw [Json.at?_key, Json.at?_key, h]
  · rfl

theorem Json.ReplacedAt.sameEntries {u u' v v' : Json} {keys : List String}
    (h : ReplacedAt u u' keys v v') (hu : SameEntries u u') : SameEntries v v' := by
  induction h with
  | here => exact hu
  | @inside key keys child child' front back hfront _ ih =>
    rintro (_ | ⟨k | _, rest⟩)
    · rfl
    · rw [at?_key, at?_key]
      by_cases hk : k = key
      · rw [hk, Entries.lookup_between hfront, Entries.lookup_between hfront]
        exact ih rest
      · rw [← Entries.put_between hfront child child' back, Entries.lookup_put_of_ne _ _ hk]
    · rfl

theorem sameEntries_put_comm {k l : String} {X Y : Json} {entries : List (String × Json)}
    (hne : k ≠ l) : SameEntries (.obj (Entries.put l Y (Entries.put k X entries)))
      (.obj (Entries.put k X (Entries.put l Y entries))) := by
  refine sameEntries_of_lookup fun key => ?_
  simp only [Entries.lookup_put]
  split_ifs with hl hk
  · exact absurd (hk.symm.trans hl) hne
  all_goals rfl

section

variable {v x y vp vq : Json} {p q : Path} {common p' q' : List String} {k l : String}

/-- Two assignments whose paths part put their entries into one object, each whether or not the
other was there before it. -/
theorem exists_assigned_both (hps : p.segments = common ++ k :: p')
    (hqs : q.segments = common ++ l :: q') (hne : k ≠ l) (hp : v.assign p x = some vp)
    (hq : v.assign q y = some vq) :
    ∃ entries X Y r r', Json.walk common v = some (.obj entries) ∧
      Json.assignBelow p' x (entries.lookup k) = some X ∧
      Json.assignBelow q' y (entries.lookup l) = some Y ∧
      vp.assign q y = some r ∧ vq.assign p x = some r' ∧
      Json.ReplacedAt (.obj (Entries.put l Y (Entries.put k X entries)))
        (.obj (Entries.put k X (Entries.put l Y entries))) common r r' := by
  obtain ⟨entries, X, hX, hvp⟩ := (Json.assign_through hps).mp hp
  obtain ⟨entries', Y, hY, hvq⟩ := (Json.assign_through hqs).mp hq
  obtain rfl : entries = entries' := Json.obj.inj (hvp.left_unique hvq)
  obtain ⟨r, hr⟩ := Json.exists_replacedAt (.obj (Entries.put l Y (Entries.put k X entries)))
    hvp.walk_right
  obtain ⟨r', hr'⟩ := Json.exists_replacedAt (.obj (Entries.put k X (Entries.put l Y entries)))
    hvq.walk_right
  have hX' : Json.assignBelow p' x ((Entries.put l Y entries).lookup k) = some X := by
    rwa [Entries.lookup_put_of_ne _ _ hne]
  have hY' : Json.assignBelow q' y ((Entries.put k X entries).lookup l) = some Y := by
    rwa [Entries.lookup_put_of_ne _ _ hne.symm]
  exact ⟨entries, X, Y, r, r', hvp.walk_left, hX, hY,
    (Json.assign_through hqs).mpr ⟨_, Y, hY', hr⟩, (Json.assign_through hps).mpr ⟨_, X, hX', hr'⟩,
    (hvp.trans hr).symm.trans (hvq.trans hr')⟩

end

/-- Two paths of which neither begins with the other can be assigned in either order, if each
can be assigned. The results have the same entries, and are the same but for two keys that are
new to one object, which stand at its end in the order in which they were assigned. -/
theorem assign_either_order (v x y vp vq : Json) (p q : Path)
    (hpq : ¬ p.segments <+: q.segments) (hqp : ¬ q.segments <+: p.segments)
    (hp : v.assign p x = some vp) (hq : v.assign q y = some vq) :
    ∃ r r', vp.assign q y = some r ∧ vq.assign p x = some r' ∧ SameEntries r r' ∧
      (r = r' ∨ ∃ (parent : Path) (entries : List (String × Json)) (k l : String),
        p = parent.child k ∧ q = parent.child l ∧ v.parentOf p = some (.obj entries) ∧
        k ∉ Entries.keys entries ∧ l ∉ Entries.keys entries ∧
        Json.ReplacedAt (.obj (entries ++ [(k, x), (l, y)])) (.obj (entries ++ [(l, y), (k, x)]))
          parent.segments r r') := by
  obtain ⟨common, k, l, p', q', hps, hqs, hne⟩ := exists_fork hpq hqp
  obtain ⟨entries, X, Y, r, r', hwalk, hX, hY, hr, hr', hboth⟩ :=
    exists_assigned_both hps hqs hne hp hq
  refine ⟨r, r', hr, hr', hboth.sameEntries (sameEntries_put_comm hne), ?_⟩
  by_cases hkeys : k ∈ Entries.keys entries ∨ l ∈ Entries.keys entries
  · rw [Entries.put_comm hne hkeys] at hboth
    exact .inl hboth.eq.symm
  · -- A path that goes on below its key has that key in the object, so here both paths end.
    rw [not_or] at hkeys
    obtain rfl : p' = [] := by_contra fun h => hkeys.1 (Json.mem_keys_of_assignBelow h hX)
    obtain rfl : q' = [] := by_contra fun h => hkeys.2 (Json.mem_keys_of_assignBelow h hY)
    cases hX
    cases hY
    refine .inr ⟨⟨common⟩, entries, k, l, Path.eq_child_iff.mpr hps, Path.eq_child_iff.mpr hqs,
      ?_, hkeys.1, hkeys.2, ?_⟩
    · rw [Json.parentOf_of_segments hps, hwalk]
      rfl
    · rwa [Entries.put_put_of_not_mem hne hkeys.1 hkeys.2,
        Entries.put_put_of_not_mem hne.symm hkeys.2 hkeys.1] at hboth

/-- Two new keys of one object come out in the order of the assignments. -/
theorem innerName_either_order :
    ¬ ["user", "nick"] <+: ["user", "age"] ∧ ¬ ["user", "age"] <+: ["user", "nick"] ∧
      innerName.assign ⟨["user", "nick"]⟩ (.str "An") = some innerNick ∧
      innerName.assign ⟨["user", "age"]⟩ .null =
        some (.obj [("user", .obj [("name", .str "Ann"), ("age", .null)]),
          ("id", .num (.int 7))]) ∧
      ∃ r r', SameEntries r r' ∧ r ≠ r' ∧
        r = .obj [("user", .obj [("name", .str "Ann"), ("nick", .str "An"), ("age", .null)]),
          ("id", .num (.int 7))] ∧
        r' = .obj [("user", .obj [("name", .str "Ann"), ("age", .null), ("nick", .str "An")]),
          ("id", .num (.int 7))] := by
  have hpq : ¬ ["user", "nick"] <+: ["user", "age"] := by decide
  have hqp : ¬ ["user", "age"] <+: ["user", "nick"] := by decide
  have hnick : innerName.assign ⟨["user", "nick"]⟩ (.str "An") = some innerNick := by rfl
  have hage : innerName.assign ⟨["user", "age"]⟩ .null =
      some (.obj [("user", .obj [("name", .str "Ann"), ("age", .null)]),
        ("id", .num (.int 7))]) := by rfl
  obtain ⟨r, r', hr, hr', hsame, -⟩ := assign_either_order innerName (.str "An") .null innerNick _
    ⟨["user", "nick"]⟩ ⟨["user", "age"]⟩ hpq hqp hnick hage
  cases hr
  cases hr'
  exact ⟨hpq, hqp, hnick, hage, _, _, hsame, by simp [Entries.put], rfl, rfl⟩

end JsonInspect
