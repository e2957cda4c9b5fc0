import Leaves.Core.Util

/-!
The serial numbers of `core/_serial.hpp`: they start again after the largest value, zero stands for
none and comes before all others.
-/

namespace Leaves
namespace Serial

def MAX_VALUE : Nat := 4294967295

def HALF_RANGE : Nat := 2147483648

/-- `operator+` -/
def add (a b : Nat) : Nat := if a = 0 then b else (a + b - 1) % MAX_VALUE + 1

/-- `operator<` -/
def lt (a b : Nat) : Bool :=
  if a = 0 ∨ b = 0 then a < b
  else if a < b then b - a < HALF_RANGE
  else if b < a then HALF_RANGE < a - b
  else false

/-- `operator<=` -/
def le (a b : Nat) : Bool := !lt b a

/-- The number that comes `n` numbers later. -/
def nth (a : Nat) : Nat → Nat
  | 0 => a
  | n + 1 => add (nth a n) 1

variable {a : Nat}

theorem nth_eq (hpos : 0 < a) (hmax : a ≤ MAX_VALUE) (n : Nat) :
    nth a n = (a + n - 1) % MAX_VALUE + 1 := by
  unfold MAX_VALUE at *
  induction n with
  | zero =>
    rw [nth]
    omega
  | succ n ih =>
    rw [nth, add, ih, if_neg (by omega), MAX_VALUE]
    omega

theorem nth_pos (hpos : 0 < a) (hmax : a ≤ MAX_VALUE) (n : Nat) : 0 < nth a n := by
  rw [nth_eq hpos hmax]
  exact Nat.succ_pos _

/-- Numbers that are not too far from each other are compared rightly. -/
theorem lt_nth (hpos : 0 < a) (hmax : a ≤ MAX_VALUE) {m n : Nat} (hlt : m < n)
    (hnear : n < m + (HALF_RANGE - 1)) : lt (nth a m) (nth a n) = true := by
  have hm := nth_pos hpos hmax m
  have hn := nth_pos hpos hmax n
  rw [nth_eq hpos hmax] at hm hn
  rw [lt, nth_eq hpos hmax, nth_eq hpos hmax, if_neg (by omega)]
  unfold MAX_VALUE HALF_RANGE at *
  split
  . rw [decide_eq_true_eq]
    omega
  . split
    . rw [decide_eq_true_eq]
      omega
    . omega

theorem le_zero (b : Nat) : le 0 b = true := by
  rw [le, lt]
  simp

theorem le_of_le_nth (hpos : 0 < a) (hmax : a ≤ MAX_VALUE) {m n : Nat}
    (hnear : n < m + (HALF_RANGE - 1)) (hle : le (nth a n) (nth a m) = true) : n ≤ m := by
  by_contra hlt
  rw [le, lt_nth hpos hmax (Nat.lt_of_not_le hlt) hnear] at hle
  cases hle

theorem add_one_pos (b : Nat) : 0 < add b 1 := by
  rw [add]
  split
  . exact Nat.one_pos
  . exact Nat.succ_pos _

theorem add_one_le (b : Nat) : add b 1 ≤ MAX_VALUE := by
  unfold add MAX_VALUE
  split
  . omega
  . omega

theorem lt_add_one (hpos : 0 < a) (hmax : a ≤ MAX_VALUE) : lt a (add a 1) = true :=
  lt_nth hpos hmax Nat.zero_lt_one (by decide)

theorem not_add_one_lt (hpos : 0 < a) (hmax : a ≤ MAX_VALUE) : lt (add a 1) a = false := by
  have hadd := add_one_pos a
  have heq : add a 1 = a % MAX_VALUE + 1 := by
    rw [add, if_neg (by omega)]
    rfl
  rw [lt, if_neg (by omega), heq]
  unfold MAX_VALUE HALF_RANGE at *
  split
  . rw [decide_eq_false_iff_not]
    omega
  . split
    . rw [decide_eq_false_iff_not]
      omega
    . rfl

end Serial
end Leaves
