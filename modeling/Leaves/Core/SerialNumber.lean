import Leaves.Core.Serial

/-!
`serial_number<T>` of `core/_serial.hpp` at both widths. The addition is on the ring that skips zero
and is computed in 64 bits, the comparison and the difference are on the ring of all values.
-/

namespace Leaves

/-- `uint32_t` and `uint64_t` -/
inductive SerialWidth where
  | serial32
  | serial64
  deriving DecidableEq, Repr

namespace SerialWidth

def bits : SerialWidth → Nat
  | serial32 => 32
  | serial64 => 64

def MAX_VALUE (w : SerialWidth) : Nat := 2 ^ w.bits - 1

def HALF_RANGE (w : SerialWidth) : Nat := 2 ^ (w.bits - 1)

/-- What the proofs need to know of the two widths. -/
theorem facts (w : SerialWidth) :
    2 ^ w.bits = w.MAX_VALUE + 1 ∧ w.MAX_VALUE + 1 = 2 * w.HALF_RANGE ∧
      w.MAX_VALUE + 1 ≤ 2 ^ 64 ∧ 2 ≤ w.HALF_RANGE := by
  cases w <;> decide

end SerialWidth

namespace SerialNumber

/-- The conversion to `int64_t` -/
def toInt64 (x : Nat) : Int := (x : Int).bmod (2 ^ 64)

/-- `operator+=` -/
def add (w : SerialWidth) (a rhs : Nat) : Nat :=
  if a = 0 then
    rhs
  else
    let sum := (a + rhs) % 2 ^ 64
    ((sum + (2 ^ 64 - 1)) % 2 ^ 64 % w.MAX_VALUE + 1) % 2 ^ w.bits

/-- `operator++` -/
def increment (w : SerialWidth) (a : Nat) : Nat := if a = w.MAX_VALUE then 1 else a + 1

/-- `operator-` -/
def difference (w : SerialWidth) (a rhs : Nat) : Int :=
  if a = 0 ∨ rhs = 0 then
    toInt64 a - toInt64 rhs
  else
    let diff := if rhs ≤ a then a - rhs else (a + (w.MAX_VALUE - rhs) + 1) % 2 ^ w.bits
    if w.HALF_RANGE < diff then
      -toInt64 (w.MAX_VALUE - diff + 1)
    else
      toInt64 diff

/-- `operator<` -/
def less (w : SerialWidth) (a rhs : Nat) : Bool :=
  if a = 0 ∨ rhs = 0 then a < rhs
  else if a < rhs then rhs - a < w.HALF_RANGE
  else if rhs < a then w.HALF_RANGE < a - rhs
  else false

/-- The transaction numbers are those of 32 bits. -/
theorem less_serial32 (a b : Nat) : less .serial32 a b = Serial.lt a b := rfl

theorem add_serial32 {a b : Nat} (ha : a ≤ Serial.MAX_VALUE) (hb : b ≤ Serial.MAX_VALUE) :
    add .serial32 a b = Serial.add a b := by
  unfold add Serial.add
  split
  . rfl
  . simp only [SerialWidth.MAX_VALUE, SerialWidth.bits, Serial.MAX_VALUE] at *
    omega

/-- How far the comparison and the difference see the sum from `a`: the value that is skipped
counts. -/
def distance (w : SerialWidth) (a n : Nat) : Nat := if a + n ≤ w.MAX_VALUE then n else n + 1

variable {w : SerialWidth} {a m n : Nat}

theorem add_eq (hpos : 0 < a) (hmax : a ≤ w.MAX_VALUE) (hn : n < w.HALF_RANGE)
    (hsum : a + n < 2 ^ 64) :
    add w a n = if a + n ≤ w.MAX_VALUE then a + n else a + n - w.MAX_VALUE := by
  obtain ⟨hbits, hhalf, hle, -⟩ := w.facts
  have hpred : (a + n + (2 ^ 64 - 1)) % 2 ^ 64 = a + n - 1 := by omega
  unfold add
  dsimp only
  rw [if_neg (by omega), Nat.mod_eq_of_lt hsum, hpred, hbits]
  split
  next hno =>
    rw [Nat.mod_eq_of_lt (by omega : a + n - 1 < w.MAX_VALUE), Nat.mod_eq_of_lt (by omega)]
    omega
  next hwrap =>
    rw [Nat.mod_eq_sub_mod (by omega : w.MAX_VALUE ≤ a + n - 1),
      Nat.mod_eq_of_lt (by omega : a + n - 1 - w.MAX_VALUE < w.MAX_VALUE),
      Nat.mod_eq_of_lt (by omega)]
    omega

theorem add_pos (hpos : 0 < a) (hmax : a ≤ w.MAX_VALUE) (hn : n < w.HALF_RANGE)
    (hsum : a + n < 2 ^ 64) : 0 < add w a n := by
  rw [add_eq hpos hmax hn hsum]
  split
  . omega
  . omega

theorem add_le (hpos : 0 < a) (hmax : a ≤ w.MAX_VALUE) (hn : n < w.HALF_RANGE)
    (hsum : a + n < 2 ^ 64) : add w a n ≤ w.MAX_VALUE := by
  obtain ⟨-, hhalf, -, -⟩ := w.facts
  rw [add_eq hpos hmax hn hsum]
  split
  . omega
  . omega

theorem increment_eq (hmax : a ≤ w.MAX_VALUE) : increment w a = add w a 1 := by
  obtain ⟨hbits, hhalf, hle, hone⟩ := w.facts
  rcases Nat.eq_zero_or_pos a with rfl | hpos
  . unfold increment add
    rw [if_neg (by omega), if_pos rfl]
  . unfold increment
    split
    next heq =>
      rw [heq]
      cases w <;> rfl
    next hne =>
      rw [add_eq hpos hmax (by omega) (by omega), if_pos (by omega)]

theorem less_eq {x y : Nat} {P : Prop} [Decidable P] (hx : 0 < x) (hy : 0 < y)
    (hlt : x < y → (y - x < w.HALF_RANGE ↔ P)) (hgt : y < x → (w.HALF_RANGE < x - y ↔ P))
    (heq : x = y → ¬P) : less w x y = decide P := by
  unfold less
  rw [if_neg (by omega)]
  split
  next h =>
    rw [decide_eq_decide]
    exact hlt h
  next h =>
    split
    next h' =>
      rw [decide_eq_decide]
      exact hgt h'
    next h' =>
      rw [eq_comm, decide_eq_false_iff_not]
      exact heq (by omega)

/-- Two sums of one number are compared as the increments are, within half of the range. -/
theorem less_add_add (hpos : 0 < a) (hmax : a ≤ w.MAX_VALUE) (hm : m < w.HALF_RANGE)
    (hn : n < w.HALF_RANGE) (hsm : a + m < 2 ^ 64) (hsn : a + n < 2 ^ 64)
    (hnear : distance w a n < distance w a m + w.HALF_RANGE) :
    less w (add w a m) (add w a n) = decide (m < n) := by
  obtain ⟨-, hhalf, -, -⟩ := w.facts
  apply less_eq (add_pos hpos hmax hm hsm) (add_pos hpos hmax hn hsn)
  all_goals
    rw [add_eq hpos hmax hm hsm, add_eq hpos hmax hn hsn]
    unfold distance at hnear
    by_cases hwm : a + m ≤ w.MAX_VALUE
    . by_cases hwn : a + n ≤ w.MAX_VALUE
      . rw [if_pos hwm, if_pos hwn] at *
        omega
      . rw [if_pos hwm, if_neg hwn] at *
        omega
    . by_cases hwn : a + n ≤ w.MAX_VALUE
      . rw [if_neg hwm, if_pos hwn] at *
        omega
      . rw [if_neg hwm, if_neg hwn] at *
        omega

theorem toInt64_of_lt {x : Nat} (h : x < 2 ^ 63) : toInt64 x = x := by
  unfold toInt64
  apply Int.bmod_eq_of_le
  . omega
  . omega

/-- The difference of two numbers that are `d` places apart on the ring of all values. -/
theorem difference_eq {x y d : Nat} (hx : 0 < x) (hy : 0 < y) (hxmax : x ≤ w.MAX_VALUE)
    (hymax : y ≤ w.MAX_VALUE) (hd : d < w.HALF_RANGE)
    (hxy : x = y + d ∨ x + w.MAX_VALUE + 1 = y + d) :
    difference w x y = d ∧ difference w y x = -(d : Int) := by
  obtain ⟨hbits, hhalf, hle, -⟩ := w.facts
  have hself : toInt64 d = d := toInt64_of_lt (by omega)
  unfold difference
  rw [hbits]
  dsimp only
  constructor
  . rw [if_neg (by omega)]
    have hdiff : (if y ≤ x then x - y else (x + (w.MAX_VALUE - y) + 1) % (w.MAX_VALUE + 1)) = d := by
      split
      . omega
      . rw [Nat.mod_eq_of_lt (by omega)]
        omega
    rw [hdiff, if_neg (by omega), hself]
  . rw [if_neg (by omega)]
    rcases Nat.eq_zero_or_pos d with rfl | hdpos
    . have hyx : y = x := by omega
      rw [hyx, if_pos (le_refl x), Nat.sub_self, if_neg (by omega), hself]
      rfl
    . have hdiff : (if x ≤ y then y - x else (y + (w.MAX_VALUE - x) + 1) % (w.MAX_VALUE + 1)) =
          w.MAX_VALUE + 1 - d := by
        split
        . omega
        . rw [Nat.mod_eq_of_lt (by omega)]
          omega
      have hback : w.MAX_VALUE - (w.MAX_VALUE + 1 - d) + 1 = d := by omega
      rw [hdiff, if_pos (by omega), hback, hself]

/-- A sum is compared with its number, and subtracted from it, as the distance says. -/
theorem difference_add (hpos : 0 < a) (hmax : a ≤ w.MAX_VALUE) (hn : n < w.HALF_RANGE)
    (hsum : a + n < 2 ^ 64) (hnear : distance w a n < w.HALF_RANGE) :
    difference w (add w a n) a = distance w a n ∧
      difference w a (add w a n) = -(distance w a n : Int) := by
  apply difference_eq (add_pos hpos hmax hn hsum) hpos (add_le hpos hmax hn hsum) hmax hnear
  rw [add_eq hpos hmax hn hsum, distance]
  split
  . omega
  . omega

theorem less_add (hpos : 0 < a) (hmax : a ≤ w.MAX_VALUE) (hn0 : 0 < n) (hn : n < w.HALF_RANGE)
    (hsum : a + n < 2 ^ 64) (hnear : distance w a n < w.HALF_RANGE) :
    less w a (add w a n) = true ∧ less w (add w a n) a = false := by
  have hzero : add w a 0 = a := by
    rw [add_eq hpos hmax (by omega) (by omega), Nat.add_zero, if_pos hmax]
  have hdist : distance w a 0 = 0 := by
    rw [distance, Nat.add_zero, if_pos hmax]
  constructor
  . have hless := less_add_add hpos hmax (by omega) hn (by omega) hsum
      (by rw [hdist]; omega : distance w a n < distance w a 0 + w.HALF_RANGE)
    rw [hzero] at hless
    rw [hless]
    exact decide_eq_true hn0
  . have hless := less_add_add hpos hmax hn (by omega : 0 < w.HALF_RANGE) hsum (by omega)
      (by rw [hdist]; omega)
    rw [hzero] at hless
    rw [hless]
    exact decide_eq_false (by omega)

/-- Where the addition does not overflow the 64 bits it is made in, sums are valid numbers. A sum
comes after its number, and sums come in the order of the increments, as long as they are less than
half of the range apart. The difference is how far they are apart, where the value that is skipped
counts. -/
theorem serial_order (w : SerialWidth) (a m n : Nat) (hpos : 0 < a) (hmax : a ≤ w.MAX_VALUE)
    (hm : m < w.HALF_RANGE) (hn0 : 0 < n) (hn : n < w.HALF_RANGE) (hsm : a + m < 2 ^ 64)
    (hsn : a + n < 2 ^ 64) :
    (add w a n ≠ 0 ∧ add w a n ≤ w.MAX_VALUE) ∧ increment w a = add w a 1 ∧
      (distance w a n < w.HALF_RANGE →
        less w a (add w a n) = true ∧ less w (add w a n) a = false ∧
        difference w (add w a n) a = distance w a n ∧
        difference w a (add w a n) = -(distance w a n : Int)) ∧
      (distance w a n < distance w a m + w.HALF_RANGE →
        (less w (add w a m) (add w a n) = true ↔ m < n)) := by
  refine ⟨⟨?_, add_le hpos hmax hn hsn⟩, increment_eq hmax, ?_, ?_⟩
  . exact (add_pos hpos hmax hn hsn).ne'
  . intro hnear
    obtain ⟨hless, hnot⟩ := less_add hpos hmax hn0 hn hsn hnear
    exact ⟨hless, hnot, difference_add hpos hmax hn hsn hnear⟩
  . intro hnear
    rw [less_add_add hpos hmax hm hn hsm hsn hnear]
    exact decide_eq_true_iff

/-- The number three places behind `0xfffffffe` is 2. -/
theorem serial_order_three :
    (add .serial32 4294967294 3 ≠ 0 ∧ add .serial32 4294967294 3 ≤ SerialWidth.serial32.MAX_VALUE) ∧
      increment .serial32 4294967294 = add .serial32 4294967294 1 ∧
      (distance .serial32 4294967294 3 < SerialWidth.serial32.HALF_RANGE →
        less .serial32 4294967294 (add .serial32 4294967294 3) = true ∧
        less .serial32 (add .serial32 4294967294 3) 4294967294 = false ∧
        difference .serial32 (add .serial32 4294967294 3) 4294967294 =
          distance .serial32 4294967294 3 ∧
        difference .serial32 4294967294 (add .serial32 4294967294 3) =
          -(distance .serial32 4294967294 3 : Int)) ∧
      (distance .serial32 4294967294 3 <
          distance .serial32 4294967294 1 + SerialWidth.serial32.HALF_RANGE →
        (less .serial32 (add .serial32 4294967294 1) (add .serial32 4294967294 3) = true ↔
          1 < 3)) :=
  serial_order .serial32 4294967294 1 3 (by decide) (by decide) (by decide) (by decide) (by decide)
    (by decide) (by decide)

/-- The difference across the wrap is one more than the increment, and the largest increment below
half of the range is not seen there. -/
theorem serial_order_wrap :
    difference .serial32 (add .serial32 4294967294 3) 4294967294 = 4 ∧
      less .serial32 4294967295 (add .serial32 4294967295 2147483647) = false := by
  decide

end SerialNumber
end Leaves
