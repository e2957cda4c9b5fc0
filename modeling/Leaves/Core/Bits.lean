import Mathlib.Algebra.GroupWithZero.Nat
import Mathlib.Data.Nat.Count
import Mathlib.Order.Lattice

/-!
The bit helpers of `core/_bits.hpp` over 32-bit numbers, to which smaller types are promoted. -1
stands for no bit.
-/

namespace Leaves
namespace Bits

/-- `std::popcount` -/
def popcount (x : Nat) : Nat := (List.range 32).countP x.testBit

/-- `std::countr_zero` -/
def countrZero (x : Nat) : Nat := ((List.range 32).find? x.testBit).getD 32

/-- `std::countl_zero` -/
def countlZero (x : Nat) : Nat := ((List.range 32).find? fun i => x.testBit (31 - i)).getD 32

/-- `~` -/
def complement (x : Nat) : Nat := x ^^^ (2 ^ 32 - 1)

def count (bits : Nat) : Nat := popcount bits

/-- The number of bits below the bit. -/
def index (bits val : Nat) : Nat := popcount (bits &&& ((1 <<< val) - 1))

def first (bits : Nat) : Int := if bits ≠ 0 then countrZero bits else -1

def last (bits : Nat) : Int := if bits ≠ 0 then 31 - (countlZero bits : Int) else -1

def next (bits i : Nat) : Int :=
  if 31 ≤ i then
    -1
  else
    let v := bits &&& complement ((1 <<< (i + 1)) - 1)
    if v ≠ 0 then countrZero v else -1

def prev (bits i : Nat) : Int :=
  let v := bits &&& ((1 <<< i) - 1)
  if v ≠ 0 then 31 - (countlZero v : Int) else -1

/-- `bits & (bits - 1)`, without the lowest bit. -/
def clearFirst (bits : Nat) : Nat := bits &&& (bits - 1)

variable {x : Nat}

theorem testBit_mask (x v j : Nat) :
    (x &&& ((1 <<< v) - 1)).testBit j = (x.testBit j && decide (j < v)) := by
  rw [Nat.testBit_and, Nat.one_shiftLeft, Nat.testBit_two_pow_sub_one]

theorem testBit_complement {j : Nat} (hj : j < 32) : (complement x).testBit j = !x.testBit j := by
  rw [complement, Nat.testBit_xor, Nat.testBit_two_pow_sub_one, decide_eq_true hj, Bool.xor_true]

theorem testBit_one_shift (v j : Nat) : (1 <<< v).testBit j = decide (v = j) := by
  rw [Nat.one_shiftLeft, Nat.testBit_two_pow]

theorem one_shift_lt {v : Nat} (h : v < 32) : 1 <<< v < 2 ^ 32 := by
  rw [Nat.one_shiftLeft]
  exact Nat.pow_lt_pow_right (by decide) h

theorem countP_range (p : Nat → Bool) (n : Nat) :
    (List.range n).countP p = Nat.count (fun i => p i = true) n := by
  induction n with
  | zero => rfl
  | succ n ih =>
    rw [List.range_succ, List.countP_append, ih, Nat.count_succ, List.countP_singleton]

theorem count_eq (x : Nat) : count x = Nat.count (fun i => x.testBit i = true) 32 := countP_range ..

/-- Two predicates that agree below the bound are counted the same. -/
theorem count_congr {p q : Nat → Prop} [DecidablePred p] [DecidablePred q] {n : Nat}
    (h : ∀ i, i < n → (p i ↔ q i)) : Nat.count p n = Nat.count q n := by
  apply Nat.le_antisymm
  . apply Nat.count_mono_left
    intro i hi hp
    exact (h i hi).1 hp
  . apply Nat.count_mono_left
    intro i hi hq
    exact (h i hi).2 hq

theorem exists_of_lt_count {p : Nat → Prop} [DecidablePred p] {n i : Nat} (h : i < Nat.count p n) :
    ∃ k, k < n ∧ p k ∧ Nat.count p k = i := by
  induction n with
  | zero =>
    rw [Nat.count_zero] at h
    exact absurd h (Nat.not_lt_zero i)
  | succ n ih =>
    by_cases hlt : i < Nat.count p n
    . obtain ⟨k, hk, hp, hcount⟩ := ih hlt
      exact ⟨k, Nat.lt_succ_of_lt hk, hp, hcount⟩
    . rw [Nat.count_succ] at h
      split at h
      . next hp => exact ⟨n, Nat.lt_succ_self n, hp, by omega⟩
      . omega

theorem index_eq (x : Nat) {v : Nat} (hv : v ≤ 32) :
    index x v = Nat.count (fun i => x.testBit i = true) v := by
  have hsplit : 32 = v + (32 - v) := by omega
  have hrest : Nat.count (fun k => (x &&& ((1 <<< v) - 1)).testBit (v + k) = true) (32 - v) = 0 := by
    rw [Nat.count_iff_forall_not]
    intro k _
    rw [testBit_mask, decide_eq_false (by omega), Bool.and_false]
    exact Bool.false_ne_true
  rw [index, popcount, countP_range, hsplit, Nat.count_add, hrest, Nat.add_zero]
  apply count_congr
  intro i hi
  rw [testBit_mask, decide_eq_true hi, Bool.and_true]

theorem testBit_lt (hx : x < 2 ^ 32) {j : Nat} (h : x.testBit j = true) : j < 32 := by
  apply Nat.lt_of_not_le
  intro hle
  have hlt : x < 2 ^ j := Nat.lt_of_lt_of_le hx (Nat.pow_le_pow_right (by decide) hle)
  rw [Nat.testBit_lt_two_pow hlt] at h
  cases h

theorem countrZero_spec (hx : x < 2 ^ 32) (hne : x ≠ 0) :
    x.testBit (countrZero x) = true ∧ countrZero x < 32 ∧
      ∀ j, j < countrZero x → x.testBit j = false := by
  obtain ⟨i, hi⟩ := Nat.exists_testBit_of_ne_zero hne
  cases hfind : (List.range 32).find? x.testBit with
  | none =>
    rw [List.find?_eq_none] at hfind
    exact absurd hi (hfind i (List.mem_range.2 (testBit_lt hx hi)))
  | some k =>
    obtain ⟨hk, hmem, hmin⟩ := List.find?_range_eq_some.1 hfind
    have heq : countrZero x = k := by
      rw [countrZero, hfind]
      rfl
    rw [heq]
    refine ⟨hk, List.mem_range.1 hmem, ?_⟩
    intro j hj
    have hnot := hmin j hj
    rwa [Bool.not_eq_true'] at hnot

theorem countlZero_spec (hx : x < 2 ^ 32) (hne : x ≠ 0) :
    countlZero x < 32 ∧ x.testBit (31 - countlZero x) = true ∧
      ∀ j, 31 - countlZero x < j → x.testBit j = false := by
  obtain ⟨i, hi⟩ := Nat.exists_testBit_of_ne_zero hne
  have hlt := testBit_lt hx hi
  cases hfind : (List.range 32).find? fun i => x.testBit (31 - i) with
  | none =>
    rw [List.find?_eq_none] at hfind
    have hnot := hfind (31 - i) (List.mem_range.2 (by omega))
    rw [show 31 - (31 - i) = i by omega] at hnot
    exact absurd hi hnot
  | some k =>
    obtain ⟨hk, hmem, hmin⟩ := List.find?_range_eq_some.1 hfind
    have hmem := List.mem_range.1 hmem
    have heq : countlZero x = k := by
      rw [countlZero, hfind]
      rfl
    rw [heq]
    refine ⟨hmem, hk, ?_⟩
    intro j hj
    cases hbit : x.testBit j with
    | false => rfl
    | true =>
      have hj32 := testBit_lt hx hbit
      have hnot := hmin (31 - j) (by omega)
      rw [show 31 - (31 - j) = j by omega, hbit] at hnot
      cases hnot

/-- The first bit that is set. -/
theorem first_spec (hx : x < 2 ^ 32) :
    (x = 0 ∧ first x = -1) ∨
      ∃ k : Nat, first x = (k : Int) ∧ k < 32 ∧ x.testBit k = true ∧ ∀ j, j < k → x.testBit j = false := by
  unfold first
  by_cases hne : x ≠ 0
  . rw [if_pos hne]
    obtain ⟨hk, hlt, hmin⟩ := countrZero_spec hx hne
    exact .inr ⟨_, rfl, hlt, hk, hmin⟩
  . rw [if_neg hne]
    exact .inl ⟨Decidable.not_not.1 hne, rfl⟩

/-- The last bit that is set. -/
theorem last_spec (hx : x < 2 ^ 32) :
    (x = 0 ∧ last x = -1) ∨
      ∃ k : Nat, last x = (k : Int) ∧ k < 32 ∧ x.testBit k = true ∧ ∀ j, k < j → x.testBit j = false := by
  unfold last
  by_cases hne : x ≠ 0
  . rw [if_pos hne]
    obtain ⟨hlt, hk, hmax⟩ := countlZero_spec hx hne
    exact .inr ⟨31 - countlZero x, by omega, by omega, hk, hmax⟩
  . rw [if_neg hne]
    exact .inl ⟨Decidable.not_not.1 hne, rfl⟩

/-- The first bit that is set behind the bit. -/
theorem next_spec (hx : x < 2 ^ 32) (i : Nat) :
    (next x i = -1 ∧ ∀ j, i < j → x.testBit j = false) ∨
      ∃ k : Nat, next x i = (k : Int) ∧ i < k ∧ k < 32 ∧ x.testBit k = true ∧
        ∀ j, i < j → j < k → x.testBit j = false := by
  unfold next
  have hbit : ∀ j, j < 32 → (x &&& complement ((1 <<< (i + 1)) - 1)).testBit j =
      (x.testBit j && decide (i < j)) := by
    intro j hj
    rw [Nat.testBit_and, testBit_complement hj, Nat.one_shiftLeft, Nat.testBit_two_pow_sub_one]
    congr 1
    rw [← decide_not]
    apply decide_eq_decide.2
    omega
  have hnone : ∀ j, x.testBit j = true → j < 32 := fun j => testBit_lt hx
  split
  next hle =>
    refine .inl ⟨rfl, ?_⟩
    intro j hj
    apply Bool.eq_false_iff.2
    intro htrue
    have hlt := hnone j htrue
    omega
  next hle =>
    have hv : x &&& complement ((1 <<< (i + 1)) - 1) < 2 ^ 32 :=
      Nat.lt_of_le_of_lt Nat.and_le_left hx
    simp only
    by_cases hne : x &&& complement ((1 <<< (i + 1)) - 1) ≠ 0
    . rw [if_pos hne]
      obtain ⟨hk, hlt, hmin⟩ := countrZero_spec hv hne
      rw [hbit _ hlt, Bool.and_eq_true, decide_eq_true_eq] at hk
      refine .inr ⟨_, rfl, hk.2, hlt, hk.1, ?_⟩
      intro j hj hjk
      have hzero := hmin j hjk
      rwa [hbit j (by omega), decide_eq_true hj, Bool.and_true] at hzero
    . rw [if_neg hne]
      refine .inl ⟨rfl, ?_⟩
      intro j hj
      apply Bool.eq_false_iff.2
      intro htrue
      have hzero := hbit j (hnone j htrue)
      rw [Decidable.not_not.1 hne, Nat.zero_testBit, htrue, decide_eq_true hj] at hzero
      cases hzero

/-- The last bit that is set in front of the bit. -/
theorem prev_spec (hx : x < 2 ^ 32) (i : Nat) :
    (prev x i = -1 ∧ ∀ j, j < i → x.testBit j = false) ∨
      ∃ k : Nat, prev x i = (k : Int) ∧ k < i ∧ k < 32 ∧ x.testBit k = true ∧
        ∀ j, k < j → j < i → x.testBit j = false := by
  unfold prev
  have hv : x &&& ((1 <<< i) - 1) < 2 ^ 32 := Nat.lt_of_le_of_lt Nat.and_le_left hx
  simp only
  by_cases hne : x &&& ((1 <<< i) - 1) ≠ 0
  . rw [if_pos hne]
    obtain ⟨hlt, hk, hmax⟩ := countlZero_spec hv hne
    rw [testBit_mask, Bool.and_eq_true, decide_eq_true_eq] at hk
    refine .inr ⟨31 - countlZero (x &&& ((1 <<< i) - 1)), by omega, hk.2, by omega, hk.1, ?_⟩
    intro j hj hji
    have hzero := hmax j hj
    rwa [testBit_mask, decide_eq_true hji, Bool.and_true] at hzero
  . rw [if_neg hne]
    refine .inl ⟨rfl, ?_⟩
    intro j hj
    apply Bool.eq_false_iff.2
    intro htrue
    have hzero := testBit_mask x i j
    rw [Decidable.not_not.1 hne, Nat.zero_testBit, htrue, decide_eq_true hj] at hzero
    cases hzero

/-- All but the first bit. -/
theorem testBit_clearFirst (hx : x < 2 ^ 32) (hne : x ≠ 0) (j : Nat) :
    (clearFirst x).testBit j = (x.testBit j && decide (j ≠ countrZero x)) := by
  obtain ⟨hk, _, hmin⟩ := countrZero_spec hx hne
  generalize countrZero x = k at hk hmin ⊢
  have hlow : x % 2 ^ (k + 1) = 2 ^ k := by
    apply Nat.eq_of_testBit_eq
    intro i
    rw [Nat.testBit_mod_two_pow, Nat.testBit_two_pow]
    rcases Nat.lt_trichotomy i k with hlt | rfl | hgt
    . rw [hmin i hlt, Bool.and_false, decide_eq_false (by omega)]
    . rw [hk, decide_eq_true (by omega), decide_eq_true rfl]
      rfl
    . rw [decide_eq_false (by omega), Bool.false_and, decide_eq_false (by omega)]
  have hx' : x = 2 ^ (k + 1) * (x / 2 ^ (k + 1)) + 2 ^ k := by
    have hdiv := Nat.div_add_mod x (2 ^ (k + 1))
    omega
  have hpos : 0 < 2 ^ k := Nat.two_pow_pos k
  have hpow : 2 ^ k < 2 ^ (k + 1) := Nat.pow_lt_pow_right (by decide) (by omega)
  have hpred : x - 1 = 2 ^ (k + 1) * (x / 2 ^ (k + 1)) + (2 ^ k - 1) := by omega
  have hbit : (x - 1).testBit j =
      if j < k + 1 then (2 ^ k - 1).testBit j else (x / 2 ^ (k + 1)).testBit (j - (k + 1)) := by
    rw [hpred, Nat.testBit_two_pow_mul_add _ (by omega)]
  have hbit' : x.testBit j =
      if j < k + 1 then (2 ^ k).testBit j else (x / 2 ^ (k + 1)).testBit (j - (k + 1)) := by
    conv => lhs; rw [hx']
    rw [Nat.testBit_two_pow_mul_add _ hpow]
  rw [clearFirst, Nat.testBit_and, hbit, hbit']
  split
  next hlt =>
    rw [Nat.testBit_two_pow_sub_one, Nat.testBit_two_pow]
    by_cases heq : k = j
    . rw [decide_eq_false (by omega : ¬j < k), decide_eq_false (by omega : ¬j ≠ k)]
    . rw [decide_eq_false heq, Bool.false_and, Bool.false_and]
  next hge =>
    rw [Bool.and_self, decide_eq_true (by omega : j ≠ k), Bool.and_true]

end Bits
end Leaves
