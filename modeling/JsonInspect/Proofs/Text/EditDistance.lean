import JsonInspect.EditDistance
import Mathlib.Data.List.Forall2
import Mathlib.Data.List.Infix
import Mathlib.Order.Bounds.Basic
import Mathlib.Order.MinMax

/-! # The edit distance is the length of a shortest script

A script edits a text at any places in any order. An alignment goes through two texts from left to
right and pays for every character that it does not keep. A row of the table holds the least costs
of alignments (`row_least`). An alignment is carried out by a script of its cost
(`Aligned.exists_script`), and a script has an alignment of its length (`Aligned.of_run`), because
alignments compose (`Aligned.trans`), which also makes the distance a metric. -/

namespace JsonInspect

/-! ## Scripts -/

/-- An edit of a text: a character put before an index, taken out there, or replaced there. -/
inductive CharEdit where
  | insert (index : Nat) (x : Char)
  | delete (index : Nat)
  | substitute (index : Nat) (x : Char)
deriving DecidableEq

namespace CharEdit

/-- The text after an edit. The text must have the index. -/
def apply : CharEdit → List Char → Option (List Char)
  | insert i x, cs => if i ≤ cs.length then some (cs.insertIdx i x) else none
  | delete i, cs => if i < cs.length then some (cs.eraseIdx i) else none
  | substitute i x, cs => if i < cs.length then some (cs.set i x) else none

def run (script : List CharEdit) (cs : List Char) : Option (List Char) :=
  script.foldlM (fun cs e => e.apply cs) cs

@[simp] theorem run_nil (cs : List Char) : run [] cs = some cs := rfl

@[simp] theorem run_cons (e : CharEdit) (script : List CharEdit) (cs : List Char) :
    run (e :: script) cs = (e.apply cs).bind (run script) := rfl

def later : CharEdit → CharEdit
  | insert i x => insert (i + 1) x
  | delete i => delete (i + 1)
  | substitute i x => substitute (i + 1) x

theorem apply_later (e : CharEdit) (x : Char) (cs : List Char) :
    e.later.apply (x :: cs) = (e.apply cs).map (x :: ·) := by
  cases e <;> simp only [later, apply, List.length_cons, Nat.add_le_add_iff_right,
    Nat.add_lt_add_iff_right] <;> split <;> simp

theorem run_later (script : List CharEdit) (x : Char) (cs : List Char) :
    run (script.map later) (x :: cs) = (run script cs).map (x :: ·) := by
  induction script generalizing cs with
  | nil => rfl
  | cons e script ih =>
    rw [List.map_cons, run_cons, run_cons, apply_later]
    cases e.apply cs with
    | none => rfl
    | some cs' => exact ih cs'

end CharEdit

/-! ## Alignments -/

/-- A way through two texts from left to right, which takes characters out of the first, puts
characters into the second, and puts characters in each other's place. It pays for all but those
that it leaves as they are, out of a number that need not be used up. -/
inductive Aligned : Nat → List Char → List Char → Prop
  | nil (n : Nat) : Aligned n [] []
  | pair {n : Nat} {a b : List Char} (x y : Char) (h : Aligned n a b) :
      Aligned (n + if x = y then 0 else 1) (x :: a) (y :: b)
  | delete {n : Nat} {a b : List Char} (x : Char) (h : Aligned n a b) :
      Aligned (n + 1) (x :: a) b
  | insert {n : Nat} {a b : List Char} (y : Char) (h : Aligned n a b) :
      Aligned (n + 1) a (y :: b)

namespace Aligned

variable {m n : Nat} {x y : Char} {a b c : List Char}

theorem add (k : Nat) (h : Aligned n a b) : Aligned (n + k) a b := by
  induction h with
  | nil n => exact nil (n + k)
  | pair x y _ ih => simpa only [Nat.add_right_comm _ _ k] using ih.pair x y
  | delete x _ ih => simpa only [Nat.add_right_comm _ 1 k] using ih.delete x
  | insert y _ ih => simpa only [Nat.add_right_comm _ 1 k] using ih.insert y

theorem mono (h : Aligned m a b) (hmn : m ≤ n) : Aligned n a b :=
  Nat.add_sub_cancel' hmn ▸ h.add (n - m)

theorem keep (x : Char) (h : Aligned n a b) : Aligned n (x :: a) (x :: b) := by
  simpa using h.pair x x

theorem refl (a : List Char) : Aligned 0 a a := by
  induction a with
  | nil => exact nil 0
  | cons x a ih => exact ih.keep x

theorem symm (h : Aligned n a b) : Aligned n b a := by
  induction h with
  | nil n => exact nil n
  | pair x y _ ih => simpa only [eq_comm] using ih.pair y x
  | delete x _ ih => exact ih.insert x
  | insert y _ ih => exact ih.delete y

theorem eq_of_zero (h : Aligned 0 a b) : a = b := by
  generalize hn : 0 = n at h
  induction h with
  | nil => rfl
  | pair x y _ ih =>
    split at hn
    · rename_i hxy
      rw [hxy, ih hn]
    · omega
  | delete | insert => omega

theorem length_le (h : Aligned n a b) : a.length ≤ b.length + n := by
  induction h with
  | nil => simp
  | pair | delete | insert => simp only [List.length_cons]; omega

/-- Two texts can be aligned character by character as far as the shorter one goes. -/
theorem max_length (a b : List Char) : Aligned (max a.length b.length) a b := by
  induction a generalizing b with
  | nil =>
    induction b with
    | nil => exact nil 0
    | cons y b ih => exact (ih.insert y).mono (by simp)
  | cons x a ih =>
    cases b with
    | nil => exact ((ih []).delete x).mono (by simp)
    | cons y b =>
      refine ((ih b).pair x y).mono ?_
      simp only [List.length_cons]
      split <;> omega

/-- What an alignment does with the first character of a text, after it has put characters in
front of it. -/
@[elab_as_elim]
theorem cons_induction {motive : ∀ {n b}, Aligned n (x :: a) b → Prop}
    (pair : ∀ {n b} y (h : Aligned n a b), motive (h.pair x y))
    (delete : ∀ {n b} (h : Aligned n a b), motive (h.delete x))
    (insert : ∀ {n b} y (h : Aligned n (x :: a) b), motive h → motive (h.insert y))
    {n : Nat} {b : List Char} (h : Aligned n (x :: a) b) : motive h := by
  have hall : ∀ {n xa b} (h : Aligned n xa b) (ha : xa = x :: a), motive (ha ▸ h) := by
    intro n xa b h
    induction h with
    | nil => intro ha; cases ha
    | pair _ y h => intro ha; cases ha; exact pair y h
    | delete _ h => intro ha; cases ha; exact delete h
    | insert y h ih => intro ha; cases ha; exact insert y h (ih rfl)
  exact hall h rfl

/-- Alignments compose: what becomes of a character by way of another one costs no more than the
two steps. -/
theorem trans (hab : Aligned m a b) (hbc : Aligned n b c) : Aligned (m + n) a c := by
  induction hab generalizing n c with
  | nil m => exact hbc.mono (Nat.le_add_left n m)
  | delete x _ ih => exact ((ih hbc).delete x).mono (by omega)
  | pair x y _ ih =>
    -- The middle text starts with `y`: see what the second alignment does with it.
    induction hbc using cons_induction with
    | pair z hbc => exact ((ih hbc).pair x z).mono (by grind)
    | delete hbc => exact ((ih hbc).delete x).mono (by omega)
    | insert z _ ihc => exact ihc.insert z
  | insert y _ ih =>
    induction hbc using cons_induction with
    | pair z hbc => exact ((ih hbc).insert z).mono (by omega)
    | delete hbc => exact (ih hbc).mono (by omega)
    | insert z _ ihc => exact ihc.insert z

/-! ## Alignments and scripts -/

/-- An alignment is carried out from the left by a script, with an edit for each character that it
pays for. -/
theorem exists_script (h : Aligned n a b) :
    ∃ script, CharEdit.run script a = some b ∧ script.length ≤ n := by
  induction h with
  | nil n => exact ⟨[], rfl, Nat.zero_le n⟩
  | pair x y _ ih =>
    obtain ⟨script, hrun, hlen⟩ := ih
    split
    · rename_i hxy
      exact ⟨script.map .later, by simp [CharEdit.run_later, hrun, hxy], by simpa using hlen⟩
    · exact ⟨.substitute 0 y :: script.map .later,
        by simp [CharEdit.apply, CharEdit.run_later, hrun], by simpa using hlen⟩
  | delete x _ ih =>
    obtain ⟨script, hrun, hlen⟩ := ih
    exact ⟨.delete 0 :: script, by simp [CharEdit.apply, hrun], by simpa using hlen⟩
  | insert y _ ih =>
    obtain ⟨script, hrun, hlen⟩ := ih
    exact ⟨.insert 0 y :: script.map .later,
      by simp [CharEdit.apply, CharEdit.run_later, hrun], by simpa using hlen⟩

theorem insertIdx {i : Nat} (x : Char) (h : i ≤ a.length) : Aligned 1 a (a.insertIdx i x) := by
  induction i generalizing a with
  | zero => exact (refl a).insert x
  | succ i ih =>
    cases a with
    | nil => cases h
    | cons y a => exact (ih (Nat.le_of_succ_le_succ h)).keep y

theorem eraseIdx {i : Nat} (h : i < a.length) : Aligned 1 a (a.eraseIdx i) := by
  induction i generalizing a with
  | zero =>
    cases a with
    | nil => cases h
    | cons y a => exact (refl a).delete y
  | succ i ih =>
    cases a with
    | nil => cases h
    | cons y a => exact (ih (Nat.lt_of_succ_lt_succ h)).keep y

theorem set {i : Nat} (x : Char) (h : i < a.length) : Aligned 1 a (a.set i x) := by
  induction i generalizing a with
  | zero =>
    cases a with
    | nil => cases h
    | cons y a => exact ((refl a).pair y x).mono (by split <;> omega)
  | succ i ih =>
    cases a with
    | nil => cases h
    | cons y a => exact (ih (Nat.lt_of_succ_lt_succ h)).keep y

theorem of_apply {e : CharEdit} (h : e.apply a = some b) : Aligned 1 a b := by
  cases e with
  | insert i x =>
    obtain ⟨hi, hb⟩ := Option.ite_none_right_eq_some.mp h
    exact Option.some.inj hb ▸ insertIdx x hi
  | delete i =>
    obtain ⟨hi, hb⟩ := Option.ite_none_right_eq_some.mp h
    exact Option.some.inj hb ▸ eraseIdx hi
  | substitute i x =>
    obtain ⟨hi, hb⟩ := Option.ite_none_right_eq_some.mp h
    exact Option.some.inj hb ▸ set x hi

/-- What a script does can be aligned at one for each of its edits. -/
theorem of_run {script : List CharEdit} (h : CharEdit.run script a = some b) :
    Aligned script.length a b := by
  induction script generalizing a with
  | nil =>
    rw [CharEdit.run_nil, Option.some.injEq] at h
    exact h ▸ refl a
  | cons e script ih =>
    rw [CharEdit.run_cons] at h
    obtain ⟨mid, he, hrest⟩ := Option.bind_eq_some_iff.mp h
    rw [List.length_cons, Nat.add_comm]
    exact (of_apply he).trans (ih hrest)

end Aligned

/-! ## Rows of least costs -/

def LeastCost (a b : List Char) (n : Nat) : Prop := IsLeast {k | Aligned k a b} n

namespace EditDistance

variable {x y : Char} {a b : List Char} {n p q r : Nat} {below : List Nat}

theorem leastCost_nil_left (b : List Char) : LeastCost [] b b.length := by
  constructor
  · induction b with
    | nil => exact .nil 0
    | cons y b ih => exact ih.insert y
  · intro k h
    simpa using h.symm.length_le

theorem leastCost_nil_right (x : Char) (h : LeastCost a [] n) : LeastCost (x :: a) [] (n + 1) := by
  refine ⟨h.1.delete x, fun k hk => ?_⟩
  cases hk with
  | delete _ hk => exact Nat.succ_le_succ (h.2 hk)

/-- A cheapest alignment of two texts deletes the first character of the one, inserts that of the
other, or puts the one in the place of the other. -/
theorem leastCost_cons (hdelete : LeastCost a (y :: b) p) (hinsert : LeastCost (x :: a) b q)
    (hpair : LeastCost a b r) :
    LeastCost (x :: a) (y :: b) (min (min (p + 1) (q + 1)) (r + if x = y then 0 else 1)) := by
  refine ⟨?_, fun k hk => ?_⟩
  · rcases min_choice (min (p + 1) (q + 1)) (r + if x = y then 0 else 1) with h | h <;> rw [h]
    · rcases min_choice (p + 1) (q + 1) with h | h <;> rw [h]
      · exact hdelete.1.delete x
      · exact hinsert.1.insert y
    · exact hpair.1.pair x y
  · cases hk with
    | pair _ _ hk =>
      have := hpair.2 hk
      omega
    | delete _ hk =>
      have := hdelete.2 hk
      omega
    | insert _ hk =>
      have := hinsert.2 hk
      omega

/-- A row of the table holds the least costs of a text against every suffix of another one. -/
def Row (a b : List Char) (row : List Nat) : Prop := List.Forall₂ (LeastCost a) b.tails row

theorem Row.head (h : Row a b below) : LeastCost a b (below.headD 0) := by
  unfold Row at h
  cases b <;> cases h <;> assumption

theorem Row.tail (h : Row a (y :: b) below) : Row a b below.tail := by
  unfold Row at h
  cases h
  assumption

theorem base_row (b : List Char) : Row [] b (base b) := by
  induction b with
  | nil => exact .cons (leastCost_nil_left []) .nil
  | cons y b ih => exact .cons (leastCost_nil_left (y :: b)) ih

theorem extend_row (x : Char) (h : Row a b below) : Row (x :: a) b (extend x b below) := by
  induction b generalizing below with
  | nil => exact .cons (leastCost_nil_right x h.head) .nil
  | cons y b ih => exact .cons (leastCost_cons h.head (ih h.tail).head h.tail.head) (ih h.tail)

theorem row_least (a b : List Char) :
    Row a b (a.foldr (fun x below => extend x b below) (base b)) := by
  induction a with
  | nil => exact base_row b
  | cons x a ih => exact extend_row x ih

end EditDistance

/-! ## The distance -/

theorem editDistance_leastCost (a b : String) :
    LeastCost a.toList b.toList (editDistance a b) :=
  (EditDistance.row_least a.toList b.toList).head

theorem editDistance_empty (b : String) : editDistance "" b = b.length := by
  rw [(editDistance_leastCost "" b).unique (EditDistance.leastCost_nil_left b.toList),
    String.length_toList]

/-- The edit distance is the length of a shortest script that turns the one text into the other. -/
theorem editDistance_shortest (a b : String) :
    IsLeast {n | ∃ script, CharEdit.run script a.toList = some b.toList ∧ script.length = n}
      (editDistance a b) := by
  obtain ⟨haligned, hleast⟩ := editDistance_leastCost a b
  refine ⟨?_, ?_⟩
  · obtain ⟨script, hrun, hlen⟩ := haligned.exists_script
    exact ⟨script, hrun, hlen.antisymm (hleast (Aligned.of_run hrun))⟩
  · rintro n ⟨script, hrun, rfl⟩
    exact hleast (Aligned.of_run hrun)

/-- The edit distance is a metric that lies between the difference and the greater one of the two
lengths. -/
theorem editDistance_metric (a b c : String) :
    editDistance a b = editDistance b a ∧ (editDistance a b = 0 ↔ a = b) ∧
      editDistance a c ≤ editDistance a b + editDistance b c ∧
      max a.length b.length - min a.length b.length ≤ editDistance a b ∧
      editDistance a b ≤ max a.length b.length := by
  obtain ⟨hab, leastab⟩ := editDistance_leastCost a b
  obtain ⟨hba, leastba⟩ := editDistance_leastCost b a
  obtain ⟨hbc, -⟩ := editDistance_leastCost b c
  obtain ⟨-, leastac⟩ := editDistance_leastCost a c
  refine ⟨(leastab hba.symm).antisymm (leastba hab.symm), ⟨fun h => ?_, ?_⟩,
    leastac (hab.trans hbc), ?_, ?_⟩
  · exact String.toList_inj.mp (Aligned.eq_of_zero (h ▸ hab))
  · rintro rfl
    exact Nat.le_zero.mp (leastab (Aligned.refl a.toList))
  · have hle := hab.length_le
    have hge := hab.symm.length_le
    rw [String.length_toList, String.length_toList] at hle hge
    omega
  · have hmax := leastab (Aligned.max_length a.toList b.toList)
    rwa [String.length_toList, String.length_toList] at hmax

end JsonInspect
