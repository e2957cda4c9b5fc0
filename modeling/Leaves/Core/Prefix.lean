import Leaves.Core.Bytes
import Mathlib.Data.Nat.Bitwise
import Mathlib.Data.Nat.Find

/-!
`get_prefix` of `core/_util.hpp` as it is compiled: words and vectors of bytes are compared at once,
and the byte that differs is found by counting zero bits. Reading outside of a string is `none`.
-/

namespace Leaves
namespace Prefix

/-- The byte order and the vector extensions of the target. -/
structure Target where
  littleEndian : Bool
  avx512 : Bool
  avx2 : Bool
  sse2 : Bool
  neon : Bool
  deriving DecidableEq, Repr

/-- `count_trailing_zeros` of a number with `w` bits. -/
def countTrailingZeros (w x : Nat) : Nat := ((List.range w).find? x.testBit).getD w

/-- `count_leading_zeros` of a number with `w` bits. -/
def countLeadingZeros (w x : Nat) : Nat :=
  ((List.range w).find? fun i => x.testBit (w - 1 - i)).getD w

/-- `n` bytes of the string, as `memcpy` and the vector loads take them. -/
def load (str : Key) (i n : Nat) : Option Key :=
  if i + n ≤ str.length then some ((str.drop i).take n) else none

/-- The number that loaded bytes are on the target. -/
def word (tgt : Target) (bytes : Key) : Nat :=
  ofLittle (if tgt.littleEndian then bytes else bytes.reverse)

/-- `cmp = (uint8_t)str1[i] > (uint8_t)str2[i] ? 1 : -1` -/
def differ (str1 str2 : Key) (i : Nat) : Option (Nat × Int) :=
  (str1[i]?).bind fun a => (str2[i]?).bind fun b => some (i, if b < a then 1 else -1)

/-- The loop over single bytes, and what stands behind it. -/
def byteLoop (str1 str2 : Key) : Nat → Nat → Option (Nat × Int)
  | 0, _ => none
  | n + 1, i =>
    if i < min str1.length str2.length then
      (str1[i]?).bind fun a => (str2[i]?).bind fun b =>
        if a = b then byteLoop str1 str2 n (i + 1) else differ str1 str2 i
    else if str2.length < str1.length then
      some (i, 1)
    else if str1.length < str2.length then
      some (i, -1)
    else
      some (i, 0)

/-- A loop over steps of `width` bytes. `find` is the index of the first difference in a step, `k`
goes on behind the loop. -/
def stepLoop (width : Nat) (find : Key → Key → Option Nat) (str1 str2 : Key)
    (k : Nat → Option (Nat × Int)) : Nat → Nat → Option (Nat × Int)
  | 0, _ => none
  | n + 1, i =>
    if i + width ≤ min str1.length str2.length then
      (load str1 i width).bind fun a => (load str2 i width).bind fun b =>
        match find a b with
        | some j => differ str1 str2 (i + j)
        | none => stepLoop width find str1 str2 k n (i + width)
    else
      k i

/-- A number with these bits, the lowest first. -/
def bitMask : List Bool → Nat
  | [] => 0
  | b :: bs => b.toNat + 2 * bitMask bs

/-- `_mm512_cmpneq_epi8_mask` -/
def neqMask (a b : Key) : Nat := bitMask (List.zipWith (fun x y => decide (x ≠ y)) a b)

/-- `_mm_movemask_epi8` of `_mm_cmpeq_epi8` -/
def eqMask (a b : Key) : Nat := bitMask (List.zipWith (fun x y => decide (x = y)) a b)

def findAvx512 (a b : Key) : Option Nat :=
  let mask := neqMask a b
  if mask ≠ 0 then some (countTrailingZeros 64 mask) else none

def findAvx2 (a b : Key) : Option Nat :=
  let mask := eqMask a b
  if mask ≠ 2 ^ 32 - 1 then some (countTrailingZeros 32 (mask ^^^ (2 ^ 32 - 1))) else none

def findSse2 (a b : Key) : Option Nat :=
  let mask := eqMask a b
  if mask ≠ 0xFFFF then
    some (countTrailingZeros 32 ((mask ^^^ (2 ^ 32 - 1)) &&& 0xFFFF))
  else
    none

/-- `vshrn_n_u16` by 4: each pair of bytes becomes one. The lanes of a register count from its low
bits in either byte order. -/
def narrow : List UInt8 → List UInt8
  | lo :: hi :: rest => UInt8.ofNat ((lo.toNat + 256 * hi.toNat) >>> 4) :: narrow rest
  | _ => []

def findNeon (a b : Key) : Option Nat :=
  let neq := List.zipWith (fun x y => if x = y then (0 : UInt8) else 0xFF) a b
  let mask64 := ofLittle (narrow neq)
  if mask64 ≠ 0 then some (countTrailingZeros 64 mask64 / 4) else none

def findWord (tgt : Target) (a b : Key) : Option Nat :=
  let w1 := word tgt a
  let w2 := word tgt b
  if w1 ≠ w2 then
    if tgt.littleEndian then
      some (countTrailingZeros 64 (w1 ^^^ w2) / 8)
    else
      some (countLeadingZeros 64 (w1 ^^^ w2) / 8)
  else
    none

section GetPrefix

variable (tgt : Target) (str1 str2 : Key)

/-- The loops behind the first 8 or 16 bytes. -/
def loops (i : Nat) : Option (Nat × Int) :=
  let n := min str1.length str2.length + 1
  let bytes := fun i => byteLoop str1 str2 n i
  let words := fun i => stepLoop 8 (findWord tgt) str1 str2 bytes n i
  let halves := fun i =>
    if tgt.sse2 then
      stepLoop 16 findSse2 str1 str2 words n i
    else if tgt.neon then
      stepLoop 16 findNeon str1 str2 words n i
    else
      words i
  let avx2 := fun i => if tgt.avx2 then stepLoop 32 findAvx2 str1 str2 halves n i else halves i
  if tgt.avx512 then stepLoop 64 findAvx512 str1 str2 avx2 n i else avx2 i

/-- `get_prefix(str1, str2, size1, size2, cmp)`: the index it returns and `cmp`. -/
def getPrefix : Option (Nat × Int) :=
  let minSize := min str1.length str2.length
  if minSize < 8 then
    if 4 ≤ minSize then
      (load str1 0 4).bind fun a => (load str2 0 4).bind fun b =>
        let w1 := word tgt a
        let w2 := word tgt b
        if w1 ≠ w2 then
          differ str1 str2 (countTrailingZeros 32 (w1 ^^^ w2) / 8)
        else
          byteLoop str1 str2 (minSize + 1) 4
    else
      byteLoop str1 str2 (minSize + 1) 0
  else
    (load str1 0 8).bind fun a => (load str2 0 8).bind fun b =>
      let w1 := word tgt a
      let w2 := word tgt b
      if w1 ≠ w2 then
        differ str1 str2 (countTrailingZeros 64 (w1 ^^^ w2) / 8)
      else if 16 ≤ minSize then
        (load str1 8 8).bind fun a => (load str2 8 8).bind fun b =>
          let w1 := word tgt a
          let w2 := word tgt b
          if w1 ≠ w2 then
            differ str1 str2 (8 + countTrailingZeros 64 (w1 ^^^ w2) / 8)
          else
            loops tgt str1 str2 16
      else
        loops tgt str1 str2 8

end GetPrefix

/-! Counting zeros: groups of `d` bits, the first that is not zero is group `k`. -/

section Count

variable {d w k : Nat} {p : Nat → Bool}

theorem find_div_eq (hw : d * (k + 1) ≤ w) (hmin : ∀ m, m < d * k → p m = false)
    (hex : ∃ j, j < d ∧ p (d * k + j) = true) : ((List.range w).find? p).getD w / d = k := by
  have hp := Nat.find_spec hex
  have hleast : ∀ m, m < d * k + Nat.find hex → p m = false := by
    intro m hm
    by_cases hlt : m < d * k
    . exact hmin m hlt
    . have hnot := Nat.find_min hex (m := m - d * k) (by omega)
      rw [Nat.add_sub_cancel' (Nat.le_of_not_lt hlt)] at hnot
      cases hpm : p m with
      | false => rfl
      | true => exact absurd ⟨by omega, hpm⟩ hnot
  have hfind : (List.range w).find? p = some (d * k + Nat.find hex) := by
    rw [List.find?_range_eq_some]
    refine ⟨hp.2, List.mem_range.2 ?_, ?_⟩
    . rw [Nat.mul_succ] at hw
      omega
    . intro j hj
      rw [hleast j hj]
      rfl
  rw [hfind, Option.getD_some, Nat.mul_add_div (by omega), Nat.div_eq_of_lt hp.1, Nat.add_zero]

theorem countTrailingZeros_div {x : Nat} (hw : d * (k + 1) ≤ w)
    (hmin : ∀ m, m < d * k → x.testBit m = false)
    (hex : ∃ j, j < d ∧ x.testBit (d * k + j) = true) : countTrailingZeros w x / d = k :=
  find_div_eq hw hmin hex

theorem countLeadingZeros_div {x : Nat} (hw : d * (k + 1) ≤ w)
    (hmin : ∀ m, m < d * k → x.testBit (w - 1 - m) = false)
    (hex : ∃ j, j < d ∧ x.testBit (w - 1 - (d * k + j)) = true) :
    countLeadingZeros w x / d = k :=
  find_div_eq (p := fun i => x.testBit (w - 1 - i)) hw hmin hex

end Count

/-! The bits of a number that bytes or truth values make up. -/

theorem testBit_ofLittle (bytes : Key) (i : Nat) {j : Nat} (h : j < 8) :
    (ofLittle bytes).testBit (8 * i + j) = (bytes[i]?.getD 0).toNat.testBit j := by
  induction bytes generalizing i with
  | nil => simp [ofLittle]
  | cons b bytes ih =>
    have hb : b.toNat < 2 ^ 8 := b.toNat_lt
    rw [ofLittle, Nat.add_comm, show 256 = 2 ^ 8 from rfl, Nat.testBit_two_pow_mul_add _ hb]
    cases i with
    | zero =>
      rw [if_pos (by omega), Nat.mul_zero, Nat.zero_add]
      rfl
    | succ i =>
      rw [if_neg (by omega), show 8 * (i + 1) + j - 8 = 8 * i + j by omega, ih]
      rfl

theorem testBit_bitMask (bits : List Bool) (i : Nat) :
    (bitMask bits).testBit i = bits[i]?.getD false := by
  induction bits generalizing i with
  | nil => simp [bitMask]
  | cons b bits ih =>
    have hb : b.toNat < 2 ^ 1 := Bool.toNat_lt b
    rw [bitMask, Nat.add_comm, show (2 : Nat) * bitMask bits = 2 ^ 1 * bitMask bits from rfl,
      Nat.testBit_two_pow_mul_add _ hb]
    cases i with
    | zero => cases b <;> rfl
    | succ i =>
      rw [if_neg (by omega), show i + 1 - 1 = i from rfl, ih]
      rfl

/-- Different bytes differ in a bit. -/
theorem exists_bit {x y : UInt8} (h : x ≠ y) :
    ∃ j, j < 8 ∧ (x.toNat.testBit j ^^ y.toNat.testBit j) = true := by
  have hne : x.toNat ≠ y.toNat := fun heq => h (UInt8.toNat_inj.1 heq)
  obtain ⟨j, hj⟩ := Nat.exists_testBit_ne_of_ne hne
  refine ⟨j, ?_, ?_⟩
  . apply Nat.lt_of_not_le
    intro hle
    have hpow : 2 ^ 8 ≤ 2 ^ j := Nat.pow_le_pow_right (by omega) hle
    have hx : x.toNat < 2 ^ 8 := x.toNat_lt
    have hy : y.toNat < 2 ^ 8 := y.toNat_lt
    rw [Nat.testBit_lt_two_pow (by omega), Nat.testBit_lt_two_pow (by omega)] at hj
    exact hj rfl
  . simpa using hj

/-! The first byte that differs. -/

section First

variable {a b : Key}

theorem getElem?_getPrefix (h : a ≠ b) :
    a[(Leaves.getPrefix a b).1]? ≠ b[(Leaves.getPrefix a b).1]? := by
  have hhead := head_drop_getPrefix h
  rwa [List.head?_drop, List.head?_drop] at hhead

theorem getElem?_of_lt {j : Nat} (h : j < (Leaves.getPrefix a b).1) : a[j]? = b[j]? := by
  have htake := congrArg (fun l => l[j]?) (take_getPrefix a b)
  simp only [List.getElem?_take, if_pos h] at htake
  exact htake

theorem getPrefix_eq {k : Nat} (hk : a[k]? ≠ b[k]?) (hmin : ∀ j, j < k → a[j]? = b[j]?) :
    (Leaves.getPrefix a b).1 = k := by
  have hne : a ≠ b := by
    intro heq
    rw [heq] at hk
    exact hk rfl
  rcases Nat.lt_trichotomy (Leaves.getPrefix a b).1 k with hlt | heq | hgt
  . exact absurd (hmin _ hlt) (getElem?_getPrefix hne)
  . exact heq
  . exact absurd (getElem?_of_lt hgt) hk

theorem getPrefix_lt (hlen : a.length = b.length) (h : a ≠ b) :
    (Leaves.getPrefix a b).1 < a.length := by
  apply Nat.lt_of_not_le
  intro hle
  have hne := getElem?_getPrefix h
  rw [List.getElem?_eq_none hle, List.getElem?_eq_none (by omega)] at hne
  exact hne rfl

theorem getElem_getPrefix (hlen : a.length = b.length) (h : a ≠ b) :
    a[(Leaves.getPrefix a b).1]?.getD 0 ≠ b[(Leaves.getPrefix a b).1]?.getD 0 := by
  have hlt := getPrefix_lt hlen h
  have hne := getElem?_getPrefix h
  rw [List.getElem?_eq_getElem hlt, List.getElem?_eq_getElem (by omega)] at hne ⊢
  intro heq
  exact hne (congrArg some heq)

theorem take_eq_take_iff (h : a ≠ b) (j : Nat) :
    a.take j = b.take j ↔ j ≤ (Leaves.getPrefix a b).1 := by
  constructor
  . intro htake
    apply Nat.le_of_not_lt
    intro hlt
    have hget := congrArg (fun l => l[(Leaves.getPrefix a b).1]?) htake
    simp only [List.getElem?_take, if_pos hlt] at hget
    exact getElem?_getPrefix h hget
  . intro hle
    have htake := congrArg (List.take j) (take_getPrefix a b)
    rwa [List.take_take, List.take_take, Nat.min_eq_left hle] at htake

end First

/-! The masks of the vector steps. -/

section Masks

variable {a b : Key}

theorem testBit_neqMask (hlen : a.length = b.length) (i : Nat) :
    (neqMask a b).testBit i = decide (a[i]? ≠ b[i]?) := by
  rw [neqMask, testBit_bitMask, List.getElem?_zipWith]
  by_cases h : i < a.length
  . rw [List.getElem?_eq_getElem h, List.getElem?_eq_getElem (by omega)]
    simp
  . rw [List.getElem?_eq_none (by omega), List.getElem?_eq_none (by omega)]
    simp

theorem testBit_eqMask (hlen : a.length = b.length) (i : Nat) :
    (eqMask a b).testBit i = decide (i < a.length ∧ a[i]? = b[i]?) := by
  rw [eqMask, testBit_bitMask, List.getElem?_zipWith]
  by_cases h : i < a.length
  . rw [List.getElem?_eq_getElem h, List.getElem?_eq_getElem (by omega)]
    simp [h]
  . rw [List.getElem?_eq_none (by omega), List.getElem?_eq_none (by omega)]
    simp [h]

/-- A mask with a bit for each byte that differs. -/
theorem countTrailingZeros_mask {w x : Nat} (hlen : a.length = b.length) (h : a ≠ b)
    (hw : a.length ≤ w) (hx : ∀ i, i < a.length → x.testBit i = decide (a[i]? ≠ b[i]?)) :
    countTrailingZeros w x = (Leaves.getPrefix a b).1 := by
  have hlt := getPrefix_lt hlen h
  rw [← Nat.div_one (countTrailingZeros w x)]
  apply countTrailingZeros_div (by omega)
  . intro m hm
    rw [Nat.one_mul] at hm
    rw [hx m (by omega), getElem?_of_lt hm]
    simp
  . refine ⟨0, Nat.one_pos, ?_⟩
    rw [Nat.one_mul, Nat.add_zero, hx _ hlt]
    exact decide_eq_true (getElem?_getPrefix h)

theorem neqMask_eq_zero_iff (hlen : a.length = b.length) : neqMask a b = 0 ↔ a = b := by
  constructor
  . intro h
    apply List.ext_getElem?
    intro i
    have hbit := testBit_neqMask hlen i
    rw [h, Nat.zero_testBit] at hbit
    simpa using hbit
  . rintro rfl
    apply Nat.eq_of_testBit_eq
    intro i
    rw [testBit_neqMask rfl, Nat.zero_testBit]
    simp

theorem eqMask_eq_iff (hlen : a.length = b.length) : eqMask a b = 2 ^ a.length - 1 ↔ a = b := by
  constructor
  . intro h
    apply List.ext_getElem?
    intro i
    by_cases hi : i < a.length
    . have hbit := testBit_eqMask hlen i
      rw [h, Nat.testBit_two_pow_sub_one] at hbit
      simpa [hi] using hbit
    . rw [List.getElem?_eq_none (by omega), List.getElem?_eq_none (by omega)]
  . rintro rfl
    apply Nat.eq_of_testBit_eq
    intro i
    rw [testBit_eqMask rfl, Nat.testBit_two_pow_sub_one]
    simp

end Masks

/-- A step over `width` bytes finds the first difference. -/
def Finds (width : Nat) (find : Key → Key → Option Nat) : Prop :=
  ∀ a b, a.length = width → b.length = width →
    find a b = if a = b then none else some (Leaves.getPrefix a b).1

theorem finds_avx512 : Finds 64 findAvx512 := by
  intro a b ha hb
  have hlen : a.length = b.length := by omega
  unfold findAvx512
  by_cases h : a = b
  . rw [if_pos h, if_neg (not_not_intro ((neqMask_eq_zero_iff hlen).2 h))]
  . rw [if_neg h, if_pos (fun hzero => h ((neqMask_eq_zero_iff hlen).1 hzero))]
    rw [countTrailingZeros_mask hlen h (Nat.le_of_eq ha) (fun i _ => testBit_neqMask hlen i)]

theorem finds_avx2 : Finds 32 findAvx2 := by
  intro a b ha hb
  have hlen : a.length = b.length := by omega
  have hiff := eqMask_eq_iff hlen
  rw [ha] at hiff
  unfold findAvx2
  by_cases h : a = b
  . rw [if_pos h, if_neg (not_not_intro (hiff.2 h))]
  . rw [if_neg h, if_pos (fun hfull => h (hiff.1 hfull))]
    rw [countTrailingZeros_mask hlen h (Nat.le_of_eq ha)]
    intro i hi
    rw [Nat.testBit_xor, testBit_eqMask hlen, Nat.testBit_two_pow_sub_one]
    simp [hi, show i < 32 by omega]

theorem finds_sse2 : Finds 16 findSse2 := by
  intro a b ha hb
  have hlen : a.length = b.length := by omega
  have hiff := eqMask_eq_iff hlen
  rw [ha, show (2 : Nat) ^ 16 - 1 = 0xFFFF from rfl] at hiff
  unfold findSse2
  by_cases h : a = b
  . rw [if_pos h, if_neg (not_not_intro (hiff.2 h))]
  . rw [if_neg h, if_pos (fun hfull => h (hiff.1 hfull))]
    rw [countTrailingZeros_mask hlen h (by omega)]
    intro i hi
    rw [Nat.testBit_and, Nat.testBit_xor, testBit_eqMask hlen, Nat.testBit_two_pow_sub_one,
      show 0xFFFF = 2 ^ 16 - 1 from rfl, Nat.testBit_two_pow_sub_one]
    simp [hi, show i < 32 by omega, show i < 16 by omega]

/-! Each byte of a NEON comparison becomes four bits. -/

theorem testBit_pair {lo hi : UInt8} (hlo : lo = 0 ∨ lo = 0xFF) (hhi : hi = 0 ∨ hi = 0xFF) :
    ∀ j, j < 4 →
      (UInt8.ofNat ((lo.toNat + 256 * hi.toNat) >>> 4)).toNat.testBit j = decide (lo = 0xFF) ∧
      (UInt8.ofNat ((lo.toNat + 256 * hi.toNat) >>> 4)).toNat.testBit (4 + j)
        = decide (hi = 0xFF) := by
  rcases hlo with rfl | rfl <;> rcases hhi with rfl | rfl <;> decide

theorem testBit_narrow (l : List UInt8) (hl : ∀ x ∈ l, x = 0 ∨ x = 0xFF)
    (heven : l.length % 2 = 0) (i : Nat) {j : Nat} (h : j < 4) :
    (ofLittle (narrow l)).testBit (4 * i + j) = decide (l[i]? = some 0xFF) := by
  induction l using narrow.induct generalizing i with
  | case1 lo hi rest ih =>
    have hpair := testBit_pair (hl lo (by simp)) (hl hi (by simp)) j h
    rw [narrow, ofLittle]
    generalize UInt8.ofNat ((lo.toNat + 256 * hi.toNat) >>> 4) = v at hpair
    have hv : v.toNat < 2 ^ 8 := v.toNat_lt
    rw [Nat.add_comm, show (256 : Nat) = 2 ^ 8 from rfl, Nat.testBit_two_pow_mul_add _ hv]
    rcases i with _ | _ | i
    . rw [if_pos (by omega), Nat.mul_zero, Nat.zero_add]
      simpa using hpair.1
    . rw [if_pos (by omega), Nat.mul_one]
      simpa using hpair.2
    . rw [if_neg (by omega), show 4 * (i + 2) + j - 8 = 4 * i + j by omega]
      apply ih (fun x hx => hl x (by simp [hx]))
      rw [List.length_cons, List.length_cons] at heven
      omega
  | case2 l hnot =>
    rcases l with _ | ⟨x, _ | ⟨y, rest⟩⟩
    . simp [narrow, ofLittle]
    . simp at heven
    . exact absurd rfl (hnot x y rest)

theorem finds_neon : Finds 16 findNeon := by
  intro a b ha hb
  have hlen : a.length = b.length := by omega
  let neq := List.zipWith (fun x y => if x = y then (0 : UInt8) else 0xFF) a b
  have hneq : ∀ x ∈ neq, x = 0 ∨ x = 0xFF := by
    intro x hx
    rw [List.mem_iff_getElem?] at hx
    obtain ⟨i, hi⟩ := hx
    rw [List.getElem?_zipWith] at hi
    split at hi
    . next x' y' _ _ =>
      rw [Option.some_inj] at hi
      rw [← hi]
      by_cases heq : x' = y'
      . exact Or.inl (if_pos heq)
      . exact Or.inr (if_neg heq)
    . cases hi
  have hget : ∀ i, i < 16 → (neq[i]? = some 0xFF ↔ a[i]? ≠ b[i]?) := by
    intro i hi
    rw [List.getElem?_zipWith, List.getElem?_eq_getElem (by omega),
      List.getElem?_eq_getElem (by omega)]
    by_cases heq : a[i] = b[i] <;> simp [heq]
  have hsize : neq.length = 16 := by
    rw [List.length_zipWith, ha, hb, Nat.min_self]
  have hbit : ∀ i j, j < 4 → (ofLittle (narrow neq)).testBit (4 * i + j)
      = decide (neq[i]? = some 0xFF) :=
    fun i j hj => testBit_narrow neq hneq (by rw [hsize]) i hj
  by_cases h : a = b
  . have hzero : ofLittle (narrow neq) = 0 := by
      apply Nat.eq_of_testBit_eq
      intro m
      have hm := hbit (m / 4) (m % 4) (Nat.mod_lt m (by omega))
      rw [Nat.div_add_mod] at hm
      rw [hm, Nat.zero_testBit]
      apply decide_eq_false
      by_cases hlt : m / 4 < 16
      . rw [hget _ hlt, h]
        exact fun hne => hne rfl
      . rw [List.getElem?_eq_none (by omega)]
        exact nofun
    rw [if_pos h]
    exact if_neg (not_not_intro hzero)
  . have hlt := getPrefix_lt hlen h
    have hfirst : ∀ j, j < 4 →
        (ofLittle (narrow neq)).testBit (4 * (Leaves.getPrefix a b).1 + j) = true := by
      intro j hj
      rw [hbit _ j hj]
      exact decide_eq_true ((hget _ (by omega)).2 (getElem?_getPrefix h))
    have hne : ofLittle (narrow neq) ≠ 0 := by
      intro hzero
      have hset := hfirst 0 (by omega)
      rw [hzero, Nat.zero_testBit] at hset
      cases hset
    have hctz : countTrailingZeros 64 (ofLittle (narrow neq)) / 4 = (Leaves.getPrefix a b).1 := by
      apply countTrailingZeros_div (by omega)
      . intro m hm
        have hbelow := hbit (m / 4) (m % 4) (Nat.mod_lt m (by omega))
        rw [Nat.div_add_mod] at hbelow
        rw [hbelow]
        apply decide_eq_false
        rw [hget _ (by omega)]
        exact not_not_intro (getElem?_of_lt (by omega))
      . exact ⟨0, by omega, hfirst 0 (by omega)⟩
    rw [if_neg h, ← hctz]
    exact if_pos hne

/-! Words. -/

section Words

variable {a b : Key}

theorem xor_bit (i : Nat) {j : Nat} (h : j < 8) :
    (ofLittle a ^^^ ofLittle b).testBit (8 * i + j)
      =
    ((a[i]?.getD 0).toNat.testBit j ^^ (b[i]?.getD 0).toNat.testBit j) := by
  rw [Nat.testBit_xor, testBit_ofLittle a i h, testBit_ofLittle b i h]

theorem countTrailingZeros_word {n : Nat} (ha : a.length = n) (hb : b.length = n) (h : a ≠ b) :
    countTrailingZeros (8 * n) (ofLittle a ^^^ ofLittle b) / 8 = (Leaves.getPrefix a b).1 := by
  have hlen : a.length = b.length := by omega
  have hlt := getPrefix_lt hlen h
  apply countTrailingZeros_div (by omega)
  . intro m hm
    have hbit := xor_bit (a := a) (b := b) (m / 8) (Nat.mod_lt m (by omega : 0 < 8))
    rw [Nat.div_add_mod] at hbit
    rw [hbit, getElem?_of_lt (b := b) (show m / 8 < _ by omega), Bool.xor_self]
  . obtain ⟨j, hj, hbit⟩ := exists_bit (getElem_getPrefix hlen h)
    refine ⟨j, hj, ?_⟩
    rw [xor_bit _ hj, hbit]

theorem countLeadingZeros_word {n : Nat} (ha : a.length = n) (hb : b.length = n) (h : a ≠ b) :
    countLeadingZeros (8 * n) (ofLittle a.reverse ^^^ ofLittle b.reverse) / 8
      =
    (Leaves.getPrefix a b).1 := by
  have hlen : a.length = b.length := by omega
  have hlt := getPrefix_lt hlen h
  -- bit `8 * n - 1 - m` belongs to byte `m / 8`
  have hrev : ∀ m, m < 8 * n →
      (ofLittle a.reverse ^^^ ofLittle b.reverse).testBit (8 * n - 1 - m)
        =
      ((a[m / 8]?.getD 0).toNat.testBit (7 - m % 8)
        ^^ (b[m / 8]?.getD 0).toNat.testBit (7 - m % 8)) := by
    intro m hm
    rw [show 8 * n - 1 - m = 8 * (n - 1 - m / 8) + (7 - m % 8) by omega, xor_bit _ (by omega)]
    rw [List.getElem?_reverse (by omega), List.getElem?_reverse (by omega), ha, hb]
    rw [show n - 1 - (n - 1 - m / 8) = m / 8 by omega]
  apply countLeadingZeros_div (by omega)
  . intro m hm
    rw [hrev m (by omega), getElem?_of_lt (b := b) (show m / 8 < _ by omega), Bool.xor_self]
  . obtain ⟨j, hj, hbit⟩ := exists_bit (getElem_getPrefix hlen h)
    refine ⟨7 - j, by omega, ?_⟩
    rw [hrev _ (by omega),
      show (8 * (Leaves.getPrefix a b).1 + (7 - j)) / 8 = (Leaves.getPrefix a b).1 by omega,
      show 7 - (8 * (Leaves.getPrefix a b).1 + (7 - j)) % 8 = j by omega, hbit]

theorem word_eq_iff (tgt : Target) (hlen : a.length = b.length) :
    word tgt a = word tgt b ↔ a = b := by
  unfold word
  constructor
  . intro h
    split at h
    . exact Bytes.ofLittle_inj hlen h
    . exact List.reverse_injective (Bytes.ofLittle_inj (by simpa using hlen) h)
  . rintro rfl
    rfl

end Words

theorem finds_word (tgt : Target) : Finds 8 (findWord tgt) := by
  intro a b ha hb
  have hiff := word_eq_iff tgt (ha.trans hb.symm)
  unfold findWord
  by_cases h : a = b
  . rw [if_pos h]
    exact if_neg (not_not_intro (hiff.2 h))
  . rw [if_neg h]
    dsimp only
    rw [if_pos (fun heq => h (hiff.1 heq))]
    unfold word
    split
    . next => rw [countTrailingZeros_word ha hb h]
    . next => rw [countLeadingZeros_word ha hb h]

/-! What the loops rely on: the strings are equal up to `i`. -/

/-- The bytes before `i` are compared, and equal. -/
structure Agree (str1 str2 : Key) (i : Nat) : Prop where
  le : i ≤ min str1.length str2.length
  take : str1.take i = str2.take i

section Steps

variable {str1 str2 : Key} {i : Nat}

theorem agree_zero (str1 str2 : Key) : Agree str1 str2 0 where
  le := Nat.zero_le _
  take := rfl

/-- The comparison goes on behind the equal bytes. -/
theorem Agree.getPrefix (h : Agree str1 str2 i) :
    Leaves.getPrefix str1 str2
      =
    (i + (Leaves.getPrefix (str1.drop i) (str2.drop i)).1,
      (Leaves.getPrefix (str1.drop i) (str2.drop i)).2) := by
  have hi : i ≤ str1.length := Nat.le_trans h.le (Nat.min_le_left ..)
  have hlen : (str1.take i).length = i := List.length_take_of_le hi
  have happ := getPrefix_append_left (str1.take i) (str1.drop i) (str2.drop i)
  rw [hlen, List.take_append_drop, h.take, List.take_append_drop] at happ
  exact happ

theorem Agree.differ (h : Agree str1 str2 i) (hlt : i < min str1.length str2.length)
    (hne : str1[i]? ≠ str2[i]?) : differ str1 str2 i = some (Leaves.getPrefix str1 str2) := by
  have h1 : i < str1.length := Nat.lt_of_lt_of_le hlt (Nat.min_le_left ..)
  have h2 : i < str2.length := Nat.lt_of_lt_of_le hlt (Nat.min_le_right ..)
  have hget : str1[i] ≠ str2[i] := by
    intro heq
    rw [List.getElem?_eq_getElem h1, List.getElem?_eq_getElem h2, heq] at hne
    exact hne rfl
  rw [h.getPrefix, List.drop_eq_getElem_cons h1, List.drop_eq_getElem_cons h2, Leaves.getPrefix,
    if_neg hget]
  unfold Prefix.differ
  rw [List.getElem?_eq_getElem h1, List.getElem?_eq_getElem h2]
  rfl

/-- At the first difference the result is right. -/
theorem differ_getPrefix (hne : str1 ≠ str2)
    (hlt : (Leaves.getPrefix str1 str2).1 < min str1.length str2.length) :
    differ str1 str2 (Leaves.getPrefix str1 str2).1 = some (Leaves.getPrefix str1 str2) := by
  have hagree : Agree str1 str2 (Leaves.getPrefix str1 str2).1 :=
    ⟨Nat.le_of_lt hlt, take_getPrefix str1 str2⟩
  exact hagree.differ hlt (getElem?_getPrefix hne)

theorem differ_isSome (h : i < min str1.length str2.length) :
    ∃ cmp, differ str1 str2 i = some (i, cmp) := by
  unfold differ
  rw [List.getElem?_eq_getElem (by omega), List.getElem?_eq_getElem (by omega)]
  exact ⟨_, rfl⟩

theorem load_eq {width : Nat} (h : i + width ≤ str1.length) :
    load str1 i width = some ((str1.drop i).take width) := if_pos h

section Chunk

variable {width : Nat} (h : Agree str1 str2 i) (hw : i + width ≤ min str1.length str2.length)

include hw in
theorem length_chunk : ((str1.drop i).take width).length = width ∧
    ((str2.drop i).take width).length = width := by
  constructor
  . rw [List.length_take, List.length_drop]
    omega
  . rw [List.length_take, List.length_drop]
    omega

include h hw

theorem Agree.step (heq : (str1.drop i).take width = (str2.drop i).take width) :
    Agree str1 str2 (i + width) where
  le := hw
  take := by
    rw [List.take_add, List.take_add, h.take, heq]

/-- A difference in the step is the first one of the strings. -/
theorem Agree.chunk (hne : (str1.drop i).take width ≠ (str2.drop i).take width) :
    (Leaves.getPrefix str1 str2).1
      =
    i + (Leaves.getPrefix ((str1.drop i).take width) ((str2.drop i).take width)).1 := by
  obtain ⟨hlen1, hlen2⟩ := length_chunk hw
  have hlt := getPrefix_lt (hlen1.trans hlen2.symm) hne
  have hfirst := getElem?_getPrefix hne
  rw [h.getPrefix]
  dsimp only
  congr 1
  apply getPrefix_eq
  . rwa [List.getElem?_take_of_lt (by omega), List.getElem?_take_of_lt (by omega)] at hfirst
  . intro j hj
    have hbelow := getElem?_of_lt hj
    rwa [List.getElem?_take_of_lt (by omega), List.getElem?_take_of_lt (by omega)] at hbelow

/-- The index that a step gives for the difference decides whether the result is right. -/
theorem Agree.differ_iff (hne : (str1.drop i).take width ≠ (str2.drop i).take width) {j : Nat}
    (hj : j < width) :
    (Prefix.differ str1 str2 (i + j)).isSome ∧
    (Prefix.differ str1 str2 (i + j) = some (Leaves.getPrefix str1 str2) ↔
      j = (Leaves.getPrefix ((str1.drop i).take width) ((str2.drop i).take width)).1) := by
  have hchunk := h.chunk hw hne
  obtain ⟨cmp, hcmp⟩ := differ_isSome (show i + j < min str1.length str2.length by omega)
  refine ⟨by rw [hcmp]; rfl, ?_, ?_⟩
  . intro heq
    rw [hcmp, Option.some_inj] at heq
    have hfst := congrArg Prod.fst heq
    dsimp only at hfst
    omega
  . rintro rfl
    rw [← hchunk]
    apply differ_getPrefix
    . rintro rfl
      exact hne rfl
    . omega

end Chunk

/-! The loops give the result of the plain comparison wherever they start. -/

theorem byteLoop_spec {n : Nat} (h : Agree str1 str2 i)
    (hn : min str1.length str2.length < i + n) :
    byteLoop str1 str2 n i = some (Leaves.getPrefix str1 str2) := by
  induction n generalizing i with
  | zero => exact absurd h.le (by omega)
  | succ n ih =>
    unfold byteLoop
    split
    . next hlt =>
      have h1 : i < str1.length := by omega
      have h2 : i < str2.length := by omega
      rw [List.getElem?_eq_getElem h1, List.getElem?_eq_getElem h2, Option.bind_some,
        Option.bind_some]
      split
      . next heq =>
        apply ih _ (by omega)
        refine ⟨hlt, ?_⟩
        rw [List.take_succ_eq_append_getElem h1, List.take_succ_eq_append_getElem h2, h.take, heq]
      . next hne =>
        apply h.differ hlt
        rw [List.getElem?_eq_getElem h1, List.getElem?_eq_getElem h2]
        exact fun heq => hne (Option.some_inj.1 heq)
    . next hge =>
      -- one of the strings ends here
      have hi := h.le
      rw [h.getPrefix]
      by_cases h1 : i < str1.length
      . have hend : str2.drop i = [] := List.drop_of_length_le (by omega)
        rw [if_pos (by omega), hend, List.drop_eq_getElem_cons h1, Leaves.getPrefix]
        rfl
      . have hend1 : str1.drop i = [] := List.drop_of_length_le (by omega)
        rw [if_neg (by omega), hend1]
        by_cases h2 : i < str2.length
        . rw [if_pos (by omega), List.drop_eq_getElem_cons h2, Leaves.getPrefix]
          rfl
        . have hend2 : str2.drop i = [] := List.drop_of_length_le (by omega)
          rw [if_neg (by omega), hend2, Leaves.getPrefix]
          rfl

theorem stepLoop_spec {width : Nat} {find : Key → Key → Option Nat} (hfind : Finds width find)
    (hpos : 0 < width) {k : Nat → Option (Nat × Int)}
    (hk : ∀ i, Agree str1 str2 i → k i = some (Leaves.getPrefix str1 str2)) {n : Nat}
    (h : Agree str1 str2 i) (hn : min str1.length str2.length < i + n) :
    stepLoop width find str1 str2 k n i = some (Leaves.getPrefix str1 str2) := by
  induction n generalizing i with
  | zero => exact absurd h.le (by omega)
  | succ n ih =>
    unfold stepLoop
    split
    . next hw =>
      obtain ⟨hlen1, hlen2⟩ := length_chunk hw
      rw [load_eq (by omega), load_eq (by omega), Option.bind_some, Option.bind_some,
        hfind _ _ hlen1 hlen2]
      by_cases heq : (str1.drop i).take width = (str2.drop i).take width
      . rw [if_pos heq]
        exact ih (h.step hw heq) (by omega)
      . rw [if_neg heq]
        have hlt := getPrefix_lt (hlen1.trans hlen2.symm) heq
        exact ((h.differ_iff hw heq (by omega)).2).2 rfl
    . next => exact hk i h

theorem loops_spec (tgt : Target) (h : Agree str1 str2 i) :
    loops tgt str1 str2 i = some (Leaves.getPrefix str1 str2) := by
  have hbytes : ∀ i, Agree str1 str2 i →
      byteLoop str1 str2 (min str1.length str2.length + 1) i
        = some (Leaves.getPrefix str1 str2) :=
    fun i h => byteLoop_spec h (by omega)
  have hwords := fun i (h : Agree str1 str2 i) =>
    stepLoop_spec (finds_word tgt) (by omega) hbytes (n := min str1.length str2.length + 1) h
      (by omega)
  have hhalves : ∀ i, Agree str1 str2 i →
      (if tgt.sse2 then
        stepLoop 16 findSse2 str1 str2 (fun i => stepLoop 8 (findWord tgt) str1 str2
          (fun i => byteLoop str1 str2 (min str1.length str2.length + 1) i)
          (min str1.length str2.length + 1) i) (min str1.length str2.length + 1) i
      else if tgt.neon then
        stepLoop 16 findNeon str1 str2 (fun i => stepLoop 8 (findWord tgt) str1 str2
          (fun i => byteLoop str1 str2 (min str1.length str2.length + 1) i)
          (min str1.length str2.length + 1) i) (min str1.length str2.length + 1) i
      else
        stepLoop 8 (findWord tgt) str1 str2
          (fun i => byteLoop str1 str2 (min str1.length str2.length + 1) i)
          (min str1.length str2.length + 1) i) = some (Leaves.getPrefix str1 str2) := by
    intro i h
    split
    . exact stepLoop_spec finds_sse2 (by omega) hwords h (by omega)
    . split
      . exact stepLoop_spec finds_neon (by omega) hwords h (by omega)
      . exact hwords i h
  unfold loops
  dsimp only
  split
  . apply stepLoop_spec finds_avx512 (by omega) _ h (by omega)
    intro i h
    split
    . exact stepLoop_spec finds_avx2 (by omega) hhalves h (by omega)
    . exact hhalves i h
  . split
    . exact stepLoop_spec finds_avx2 (by omega) hhalves h (by omega)
    . exact hhalves i h

end Steps

/-! The first words, which take the lowest byte of a word for the first one. -/

/-- As many bytes are equal at the end as at the beginning. -/
def Mirrored (a b : Key) : Prop := ∀ j, a.take j = b.take j ↔ a.reverse.take j = b.reverse.take j

/-- The word of each string that `getPrefix` reads last before its loops. -/
def decidingWord (str1 str2 : Key) : Key × Key :=
  let minSize := min str1.length str2.length
  if minSize < 4 then
    ([], [])
  else if minSize < 8 then
    (str1.take 4, str2.take 4)
  else if minSize < 16 ∨ str1.take 8 ≠ str2.take 8 then
    (str1.take 8, str2.take 8)
  else
    ((str1.drop 8).take 8, (str2.drop 8).take 8)

theorem mirrored_self (a : Key) : Mirrored a a := by
  intro j
  simp only

theorem mirrored_iff {a b : Key} (h : a ≠ b) :
    Mirrored a b ↔ (Leaves.getPrefix a.reverse b.reverse).1 = (Leaves.getPrefix a b).1 := by
  have hrev : a.reverse ≠ b.reverse := fun heq => h (List.reverse_injective heq)
  unfold Mirrored
  constructor
  . intro hall
    apply Nat.le_antisymm
    . rw [← take_eq_take_iff h, hall, take_eq_take_iff hrev]
    . rw [← take_eq_take_iff hrev, ← hall, take_eq_take_iff h]
  . intro heq j
    rw [take_eq_take_iff h, take_eq_take_iff hrev, heq]

section Deciding

variable {str1 str2 : Key}

theorem decidingWord_none (h : min str1.length str2.length < 4) :
    decidingWord str1 str2 = ([], []) := if_pos h

theorem decidingWord_four (h4 : 4 ≤ min str1.length str2.length)
    (h8 : min str1.length str2.length < 8) :
    decidingWord str1 str2 = (str1.take 4, str2.take 4) := by
  unfold decidingWord
  dsimp only
  rw [if_neg (Nat.not_lt.2 h4), if_pos h8]

theorem decidingWord_eight (h8 : 8 ≤ min str1.length str2.length)
    (h : min str1.length str2.length < 16 ∨ str1.take 8 ≠ str2.take 8) :
    decidingWord str1 str2 = (str1.take 8, str2.take 8) := by
  unfold decidingWord
  dsimp only
  rw [if_neg (show ¬min str1.length str2.length < 4 by omega), if_neg (Nat.not_lt.2 h8), if_pos h]

theorem decidingWord_second (h16 : 16 ≤ min str1.length str2.length)
    (h : str1.take 8 = str2.take 8) :
    decidingWord str1 str2 = ((str1.drop 8).take 8, (str2.drop 8).take 8) := by
  have hnot : ¬(min str1.length str2.length < 16 ∨ str1.take 8 ≠ str2.take 8) := by
    rintro (hlt | hne)
    . omega
    . exact hne h
  unfold decidingWord
  dsimp only
  rw [if_neg (show ¬min str1.length str2.length < 4 by omega),
    if_neg (show ¬min str1.length str2.length < 8 by omega), if_neg hnot]

end Deciding

section FirstWord

variable {tgt : Target} {str1 str2 : Key} {i width : Nat}

/-- What a first word gives if it differs. -/
theorem Agree.firstWord (h : Agree str1 str2 i) (hw : i + width ≤ min str1.length str2.length)
    (hne : (str1.drop i).take width ≠ (str2.drop i).take width) (res : Option (Nat × Int))
    (hres : res = Prefix.differ str1 str2 (i + countTrailingZeros (8 * width)
      (word tgt ((str1.drop i).take width) ^^^ word tgt ((str2.drop i).take width)) / 8)) :
    res.isSome ∧
    (res = some (Leaves.getPrefix str1 str2) ↔
      tgt.littleEndian = true ∨
        Mirrored ((str1.drop i).take width) ((str2.drop i).take width)) := by
  obtain ⟨hlen1, hlen2⟩ := length_chunk hw
  subst hres
  unfold word
  by_cases hle : tgt.littleEndian = true
  . rw [if_pos hle, if_pos hle, countTrailingZeros_word hlen1 hlen2 hne]
    have hlt := getPrefix_lt (hlen1.trans hlen2.symm) hne
    obtain ⟨hsome, hiff⟩ := h.differ_iff hw hne (hlen1 ▸ hlt)
    exact ⟨hsome, fun _ => Or.inl hle, fun _ => hiff.2 rfl⟩
  . have hrev : ((str1.drop i).take width).reverse ≠ ((str2.drop i).take width).reverse :=
      fun heq => hne (List.reverse_injective heq)
    have hlen1' : ((str1.drop i).take width).reverse.length = width := by
      rw [List.length_reverse, hlen1]
    have hlen2' : ((str2.drop i).take width).reverse.length = width := by
      rw [List.length_reverse, hlen2]
    rw [if_neg hle, if_neg hle, countTrailingZeros_word hlen1' hlen2' hrev, mirrored_iff hne]
    have hlt := getPrefix_lt (hlen1'.trans hlen2'.symm) hrev
    obtain ⟨hsome, hiff⟩ := h.differ_iff hw hne (hlen1' ▸ hlt)
    refine ⟨hsome, fun hr => Or.inr (hiff.1 hr), ?_⟩
    rintro (hr | hr)
    . exact absurd hr hle
    . exact hiff.2 hr

end FirstWord

/-- What holds of every result that is right. -/
theorem right_of_eq {tgt : Target} {str1 str2 a : Key} {res : Option (Nat × Int)}
    (h : res = some (Leaves.getPrefix str1 str2)) :
    res.isSome ∧
    (res = some (Leaves.getPrefix str1 str2) ↔ tgt.littleEndian = true ∨ Mirrored a a) := by
  subst h
  exact ⟨rfl, fun _ => Or.inr (mirrored_self a), fun _ => rfl⟩

/-- The strings are read within their bounds only, and compared as their bytes are, unless the
target is big-endian and the first byte that differs in a first word is not as far from its
beginning as the last one is from its end. -/
theorem getPrefix_plain_iff (tgt : Target) (str1 str2 : Key) :
    (getPrefix tgt str1 str2).isSome ∧
    (getPrefix tgt str1 str2 = some (Leaves.getPrefix str1 str2) ↔
      tgt.littleEndian = true ∨
        Mirrored (decidingWord str1 str2).1 (decidingWord str1 str2).2) := by
  have hzero := agree_zero str1 str2
  have hword : ∀ i width, i + width ≤ min str1.length str2.length →
      (word tgt ((str1.drop i).take width) = word tgt ((str2.drop i).take width) ↔
        (str1.drop i).take width = (str2.drop i).take width) := by
    intro i width hw
    obtain ⟨hlen1, hlen2⟩ := length_chunk hw
    exact word_eq_iff tgt (hlen1.trans hlen2.symm)
  unfold getPrefix
  dsimp only
  split
  . next h8 =>
    split
    . next h4 =>
      rw [decidingWord_four h4 h8, load_eq (by omega), load_eq (by omega), Option.bind_some,
        Option.bind_some]
      by_cases heq : (str1.drop 0).take 4 = (str2.drop 0).take 4
      . rw [if_neg (not_not_intro ((hword 0 4 (by omega)).2 heq))]
        rw [List.drop_zero, List.drop_zero] at heq
        rw [heq]
        apply right_of_eq
        have hfour : Agree str1 str2 4 := hzero.step (by omega) heq
        exact byteLoop_spec hfour (by omega)
      . rw [if_pos (fun hw => heq ((hword 0 4 (by omega)).1 hw))]
        apply hzero.firstWord (by omega) heq
        rw [Nat.zero_add]
    . next h4 =>
      rw [decidingWord_none (by omega)]
      exact right_of_eq (byteLoop_spec hzero (by omega))
  . next h8 =>
    rw [load_eq (by omega), load_eq (by omega), Option.bind_some, Option.bind_some]
    by_cases heq : (str1.drop 0).take 8 = (str2.drop 0).take 8
    . rw [if_neg (not_not_intro ((hword 0 8 (by omega)).2 heq))]
      have height : Agree str1 str2 8 := hzero.step (by omega) heq
      rw [List.drop_zero, List.drop_zero] at heq
      split
      . next h16 =>
        rw [decidingWord_second h16 heq, load_eq (by omega), load_eq (by omega),
          Option.bind_some, Option.bind_some]
        by_cases heq : (str1.drop 8).take 8 = (str2.drop 8).take 8
        . rw [if_neg (not_not_intro ((hword 8 8 (by omega)).2 heq)), heq]
          exact right_of_eq (loops_spec tgt (height.step (by omega) heq))
        . rw [if_pos (fun hw => heq ((hword 8 8 (by omega)).1 hw))]
          exact height.firstWord (by omega) heq _ rfl
      . next h16 =>
        rw [decidingWord_eight (by omega) (Or.inl (by omega)), heq]
        exact right_of_eq (loops_spec tgt height)
    . rw [if_pos (fun hw => heq ((hword 0 8 (by omega)).1 hw)),
        decidingWord_eight (by omega) (Or.inr (show str1.take 8 ≠ str2.take 8 from heq))]
      apply hzero.firstWord (by omega) heq
      rw [Nat.zero_add]

/-- `abcd` and `abce` on a big-endian target: the index is that of the first byte. -/
theorem getPrefix_big_endian :
    getPrefix ⟨false, false, false, false, false⟩ [97, 98, 99, 100] [97, 98, 99, 101] ≠
      some (Leaves.getPrefix [97, 98, 99, 100] [97, 98, 99, 101]) := by
  decide +kernel

end Prefix
end Leaves
