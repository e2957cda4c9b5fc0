import Leaves.Core.Util

/-!
Branches of a trie node: the array of links in the order of their branch keys. The bitmaps of
`core/_node.hpp` are an encoding of the branch keys that are set, the position of a branch in the
array is the number of set branches below it.
-/

namespace Leaves

/-- The key of a branch: a byte, or `NONE` for the branch of a key that ends at the node. -/
abbrev Branch := Option UInt8

namespace Branch

/-- Branch keys are compared as integers, `NONE` is -1. -/
def toInt : Branch → Int
  | none => -1
  | some b => b.toNat

@[simp]
theorem toInt_none : toInt none = -1 := rfl

@[simp]
theorem toInt_some (b : UInt8) : toInt (some b) = b.toNat := rfl

theorem toInt_inj {b b' : Branch} : b.toInt = b'.toInt ↔ b = b' := by
  match b, b' with
  | none, none => simp
  | none, some y => simp
  | some x, none => simp
  | some x, some y =>
    rw [toInt_some, toInt_some, Int.ofNat_inj, UInt8.toNat_inj]
    simp

theorem neg_one_le_toInt (b : Branch) : -1 ≤ b.toInt := by
  cases b with
  | none => simp
  | some b => rw [toInt_some]; omega

theorem toInt_le (b : Branch) : b.toInt ≤ 255 := by
  cases b with
  | none => simp
  | some b =>
    have := b.toNat_lt
    rw [toInt_some]
    omega

theorem toInt_some_lt {x y : UInt8} : toInt (some x) < toInt (some y) ↔ x < y := by
  simp [UInt8.lt_iff_toNat_lt]

end Branch

namespace Branches

variable {β γ : Type}

def isset (arr : List (Branch × β)) (key : Branch) : Bool := arr.any (·.1 == key)

/-- The branches in front of `key`. -/
def below (arr : List (Branch × β)) (key : Branch) : List (Branch × β) :=
  arr.filter (fun x => x.1.toInt < key.toInt)

/-- The branches behind `key`. -/
def above (arr : List (Branch × β)) (key : Branch) : List (Branch × β) :=
  arr.filter (fun x => key.toInt < x.1.toInt)

/-- `array_index`: -1 becomes `none`. -/
def arrayIndex (arr : List (Branch × β)) (key : Branch) : Option Nat :=
  if isset arr key then some (below arr key).length else none

/-- The smallest branch key behind `key`, `OUT_OF_RANGE` becomes `none`. -/
def next (arr : List (Branch × β)) (key : Branch) : Option Branch := (above arr key).head?.map (·.1)

/-- The biggest branch key in front of `key`, `OUT_OF_RANGE` becomes `none`. -/
def prev (arr : List (Branch × β)) (key : Branch) : Option Branch :=
  (below arr key).getLast?.map (·.1)

/-- The array with a link for the new branch `key`. -/
def insert (arr : List (Branch × β)) (key : Branch) (link : β) : List (Branch × β) :=
  below arr key ++ (key, link) :: above arr key

/-- The array without the branch `key`. -/
def remove (arr : List (Branch × β)) (key : Branch) : List (Branch × β) :=
  arr.filter (fun x => x.1 ≠ key)

/-- The branch keys of an array ascend. -/
def Sorted (arr : List (Branch × β)) : Prop :=
  arr.Pairwise (fun x y => x.1.toInt < y.1.toInt)

instance (arr : List (Branch × β)) : Decidable (Sorted arr) :=
  inferInstanceAs (Decidable (List.Pairwise _ _))

theorem isset_iff (arr : List (Branch × β)) (key : Branch) :
    isset arr key = true ↔ ∃ x, (key, x) ∈ arr := by
  simp [isset]

theorem isset_append_cons (l r : List (Branch × β)) (key : Branch) (x : β) :
    isset (l ++ (key, x) :: r) key = true := by
  simp [isset]

section Split

variable {l r : List (Branch × β)} {key : Branch} {x : β}

theorem sorted_append_cons :
    Sorted (l ++ (key, x) :: r) ↔
      Sorted l ∧ Sorted r ∧ (∀ y ∈ l, y.1.toInt < key.toInt) ∧ (∀ y ∈ r, key.toInt < y.1.toInt) ∧
        (∀ y ∈ l, ∀ z ∈ r, y.1.toInt < z.1.toInt) := by
  simp only [Sorted, List.pairwise_append, List.pairwise_cons, List.mem_cons, forall_eq_or_imp]
  constructor
  . rintro ⟨h1, ⟨h2, h3⟩, h4⟩
    exact ⟨h1, h3, fun y hy => (h4 y hy).1, h2, fun y hy => (h4 y hy).2⟩
  . rintro ⟨h1, h2, h3, h4, h5⟩
    exact ⟨h1, ⟨h4, h2⟩, fun y hy => ⟨h3 y hy, h5 y hy⟩⟩

theorem below_append_cons (h : Sorted (l ++ (key, x) :: r)) : below (l ++ (key, x) :: r) key = l := by
  obtain ⟨-, -, hl, hr, -⟩ := sorted_append_cons.mp h
  have h1 : l.filter (fun y => y.1.toInt < key.toInt) = l := by
    simpa using hl
  have h2 : r.filter (fun y => y.1.toInt < key.toInt) = [] := by
    rw [List.filter_eq_nil_iff]
    intro y hy
    have := hr y hy
    simp only [decide_eq_true_eq]
    omega
  simp [below, h1, h2]

theorem above_append_cons (h : Sorted (l ++ (key, x) :: r)) : above (l ++ (key, x) :: r) key = r := by
  obtain ⟨-, -, hl, hr, -⟩ := sorted_append_cons.mp h
  have h1 : r.filter (fun y => key.toInt < y.1.toInt) = r := by
    simpa using hr
  have h2 : l.filter (fun y => key.toInt < y.1.toInt) = [] := by
    rw [List.filter_eq_nil_iff]
    intro y hy
    have := hl y hy
    simp only [decide_eq_true_eq]
    omega
  simp [above, h1, h2]

/-- The branch itself is not needed. -/
theorem above_append (h : Sorted (l ++ (key, x) :: r)) : above (l ++ r) key = r := by
  have habove := above_append_cons h
  rw [above, List.filter_append, List.filter_cons, if_neg (by simp), ← List.filter_append] at habove
  exact habove

theorem arrayIndex_append_cons (h : Sorted (l ++ (key, x) :: r)) :
    arrayIndex (l ++ (key, x) :: r) key = some l.length := by
  simp [arrayIndex, isset_append_cons, below_append_cons h]

theorem remove_append_cons (h : Sorted (l ++ (key, x) :: r)) :
    remove (l ++ (key, x) :: r) key = l ++ r := by
  obtain ⟨-, -, hl, hr, -⟩ := sorted_append_cons.mp h
  have h1 : l.filter (fun y => y.1 ≠ key) = l := by
    rw [List.filter_eq_self]
    intro y hy
    have := hl y hy
    simp only [decide_eq_true_eq]
    intro heq
    simp [heq] at this
  have h2 : r.filter (fun y => y.1 ≠ key) = r := by
    rw [List.filter_eq_self]
    intro y hy
    have := hr y hy
    simp only [decide_eq_true_eq]
    intro heq
    simp [heq] at this
  rw [remove, List.filter_append, List.filter_cons, h1, h2]
  simp

theorem sorted_replace {y : β} (h : Sorted (l ++ (key, x) :: r)) : Sorted (l ++ (key, y) :: r) := by
  rw [sorted_append_cons] at h ⊢
  exact h

theorem sorted_remove (h : Sorted (l ++ (key, x) :: r)) : Sorted (l ++ r) := by
  obtain ⟨h1, h2, -, -, h3⟩ := sorted_append_cons.mp h
  rw [Sorted, List.pairwise_append]
  exact ⟨h1, h2, h3⟩

end Split

/-- A branch that is set splits the array. -/
theorem exists_split {arr : List (Branch × β)} {key : Branch} (hset : isset arr key = true) :
    ∃ l x r, arr = l ++ (key, x) :: r := by
  obtain ⟨x, hx⟩ := (isset_iff arr key).mp hset
  obtain ⟨l, r, h⟩ := List.append_of_mem hx
  exact ⟨l, x, r, h⟩

theorem arrayIndex_of_not_isset {arr : List (Branch × β)} {key : Branch}
    (h : isset arr key = false) : arrayIndex arr key = none := by
  simp [arrayIndex, h]

/-- Without the branch `key` the array is what is in front of it and what is behind it. -/
theorem below_append_above {arr : List (Branch × β)} {key : Branch} (h : Sorted arr)
    (hset : isset arr key = false) : below arr key ++ above arr key = arr := by
  induction arr with
  | nil => simp [below, above]
  | cons x arr ih =>
    simp only [isset, List.any_cons, Bool.or_eq_false_iff, beq_eq_false_iff_ne, ne_eq] at hset
    have hrest := ih h.of_cons (by simpa [isset] using hset.2)
    have hx := (List.pairwise_cons.mp h).1
    by_cases hlt : x.1.toInt < key.toInt
    . have hnot : ¬ key.toInt < x.1.toInt := by omega
      simp only [below, above, List.filter_cons, hlt, hnot, decide_true, decide_false, ↓reduceIte,
        Bool.false_eq_true, List.cons_append, List.cons.injEq, true_and]
      exact hrest
    . have hne : x.1.toInt ≠ key.toInt := fun heq => hset.1 (Branch.toInt_inj.mp heq)
      have hgt : key.toInt < x.1.toInt := by omega
      have hbelow : below arr key = [] := by
        rw [below, List.filter_eq_nil_iff]
        intro y hy
        have := hx y hy
        simp only [decide_eq_true_eq]
        omega
      have habove : above arr key = arr := by
        rw [above, List.filter_eq_self]
        intro y hy
        have := hx y hy
        simp only [decide_eq_true_eq]
        omega
      have h1 : below (x :: arr) key = [] := by
        rw [below, List.filter_cons, if_neg (by simpa using hlt), ← below, hbelow]
      have h2 : above (x :: arr) key = x :: arr := by
        rw [above, List.filter_cons, if_pos (by simpa using hgt), ← above, habove]
      rw [h1, h2, List.nil_append]

theorem mem_below {arr : List (Branch × β)} {key : Branch} {x : Branch × β} :
    x ∈ below arr key ↔ x ∈ arr ∧ x.1.toInt < key.toInt := by
  simp [below]

theorem mem_above {arr : List (Branch × β)} {key : Branch} {x : Branch × β} :
    x ∈ above arr key ↔ x ∈ arr ∧ key.toInt < x.1.toInt := by
  simp [above]

/-- What is behind any key is the rest of the array. -/
theorem exists_append_above {arr : List (Branch × β)} (h : Sorted arr) (key : Branch) :
    ∃ l, l ++ above arr key = arr := by
  cases hset : isset arr key with
  | false => exact ⟨_, below_append_above h hset⟩
  | true =>
    obtain ⟨l, x, r, rfl⟩ := exists_split hset
    rw [above_append_cons h]
    exact ⟨l ++ [(key, x)], by simp⟩

/-- What is in front of any key is the begin of the array. -/
theorem exists_below_append {arr : List (Branch × β)} (h : Sorted arr) (key : Branch) :
    ∃ r, below arr key ++ r = arr := by
  cases hset : isset arr key with
  | false => exact ⟨_, below_append_above h hset⟩
  | true =>
    obtain ⟨l, x, r, rfl⟩ := exists_split hset
    rw [below_append_cons h]
    exact ⟨_, rfl⟩

/-- Nothing is in front of what is behind a key if the whole array is behind it. -/
theorem eq_nil_iff_of_append_above {arr l : List (Branch × β)} {key : Branch}
    (h : l ++ above arr key = arr) : l = [] ↔ ∀ x ∈ arr, key.toInt < x.1.toInt := by
  constructor
  . rintro rfl
    intro x hx
    rw [← h, List.nil_append] at hx
    exact (mem_above.mp hx).2
  . intro hlt
    rw [above, List.filter_eq_self.mpr (fun x hx => decide_eq_true (hlt x hx))] at h
    exact List.append_left_eq_self.mp h

theorem sorted_insert {arr : List (Branch × β)} {b : Branch} {x : β} (h : Sorted arr) :
    Sorted (insert arr b x) := by
  rw [insert, sorted_append_cons]
  refine ⟨h.filter _, h.filter _, ?_, ?_, ?_⟩
  . intro y hy
    exact (mem_below.mp hy).2
  . intro y hy
    exact (mem_above.mp hy).2
  . intro y hy z hz
    have h1 := (mem_below.mp hy).2
    have h2 := (mem_above.mp hz).2
    omega

theorem length_le_of_forall_le {arr : List (Branch × β)} (h : Sorted arr) (low : Int)
    (hlow : ∀ x ∈ arr, low ≤ x.1.toInt) : (arr.length : Int) ≤ max 0 (256 - low) := by
  induction arr generalizing low with
  | nil => exact Int.le_max_left _ _
  | cons x arr ih =>
    have hx := (List.pairwise_cons.mp h).1
    have h1 := ih h.of_cons (x.1.toInt + 1) (fun y hy => Int.add_one_le_of_lt (hx y hy))
    have h2 := hlow x (by simp)
    have h3 := Branch.toInt_le x.1
    rw [List.length_cons]
    omega

/-- A node has a branch for each byte and one for `NONE` at most. -/
theorem length_le {arr : List (Branch × β)} (h : Sorted arr) : arr.length ≤ 257 := by
  have := length_le_of_forall_le h (-1) (fun x _ => Branch.neg_one_le_toInt x.1)
  omega

/-- A node that misses a branch is not full. -/
theorem length_lt_of_unset {arr : List (Branch × β)} {key : Branch} (h : Sorted arr)
    (hset : isset arr key = false) : arr.length ≤ 256 := by
  cases arr with
  | nil => simp
  | cons x arr =>
    have hins := length_le (sorted_insert (b := key) (x := x.2) h)
    have hsum := congrArg List.length (below_append_above h hset)
    rw [List.length_append] at hsum
    rw [insert, List.length_append, List.length_cons] at hins
    omega

/-- There is one entry for a branch. -/
theorem eq_of_mem {arr : List (Branch × β)} {b : Branch} {x y : β} (h : Sorted arr)
    (hx : (b, x) ∈ arr) (hy : (b, y) ∈ arr) : x = y := by
  obtain ⟨l, r, rfl⟩ := List.append_of_mem hx
  obtain ⟨-, -, hl, hr, -⟩ := sorted_append_cons.mp h
  rw [List.mem_append, List.mem_cons] at hy
  rcases hy with hy | hy | hy
  . exact absurd (hl _ hy) (lt_irrefl _)
  . exact (Prod.mk.inj hy).2.symm
  . exact absurd (hr _ hy) (lt_irrefl _)

theorem length_le_one {arr : List (Branch × β)} {b : Branch} (h : Sorted arr)
    (hb : ∀ x ∈ arr, x.1 = b) : arr.length ≤ 1 := by
  match arr with
  | [] => simp
  | [x] => simp
  | x :: y :: arr =>
    have hlt := (List.pairwise_cons.mp h).1 y (by simp)
    rw [hb x (by simp), hb y (by simp)] at hlt
    omega

/-- Replacing what the branches lead to does not move them. -/
def mapSnd (f : β → γ) (arr : List (Branch × β)) : List (Branch × γ) :=
  arr.map (fun x => (x.1, f x.2))

section MapSnd

variable (f : β → γ) (arr : List (Branch × β)) (key : Branch)

@[simp]
theorem mapSnd_nil : mapSnd f ([] : List (Branch × β)) = [] := rfl

@[simp]
theorem mapSnd_cons (x : Branch × β) : mapSnd f (x :: arr) = (x.1, f x.2) :: mapSnd f arr := rfl

@[simp]
theorem mapSnd_append (arr' : List (Branch × β)) :
    mapSnd f (arr ++ arr') = mapSnd f arr ++ mapSnd f arr' := by
  simp [mapSnd]

@[simp]
theorem length_mapSnd : (mapSnd f arr).length = arr.length := by
  simp [mapSnd]

@[simp]
theorem isset_mapSnd : isset (mapSnd f arr) key = isset arr key := by
  simp [isset, mapSnd, Function.comp_def]

@[simp]
theorem below_mapSnd : below (mapSnd f arr) key = mapSnd f (below arr key) := by
  simp [below, mapSnd, List.filter_map, Function.comp_def]

@[simp]
theorem above_mapSnd : above (mapSnd f arr) key = mapSnd f (above arr key) := by
  simp [above, mapSnd, List.filter_map, Function.comp_def]

@[simp]
theorem arrayIndex_mapSnd : arrayIndex (mapSnd f arr) key = arrayIndex arr key := by
  simp [arrayIndex]

@[simp]
theorem sorted_mapSnd : Sorted (mapSnd f arr) ↔ Sorted arr := by
  simp [Sorted, mapSnd, List.pairwise_map]

@[simp]
theorem next_mapSnd : next (mapSnd f arr) key = next arr key := by
  rw [next, above_mapSnd]
  simp [next, mapSnd, Function.comp_def]

@[simp]
theorem prev_mapSnd : prev (mapSnd f arr) key = prev arr key := by
  rw [prev, below_mapSnd]
  simp [prev, mapSnd, Function.comp_def]

end MapSnd

end Branches
end Leaves
