import Leaves.Core.Bits
import Mathlib.Logic.Function.Basic

/-!
A set of bytes as two levels of bitmaps: the upper one has a bit for each group of 32 bytes that is not
empty, and for each of these there is a lower one, in the order of the groups.
-/

namespace Leaves

open Bits

/-- The upper bitmap and the lower ones of the bytes. -/
structure Bitmap (u : Nat) (w : Nat → Nat) (m : Nat → Bool) : Prop where
  upper_lt : u < 2 ^ 8
  upper : ∀ g, g < 8 → (u.testBit g = true ↔ ∃ j, j < 32 ∧ m (32 * g + j) = true)
  word_lt : ∀ i, i < count u → w i < 2 ^ 32
  word : ∀ g, g < 8 → u.testBit g = true → ∀ j, j < 32 →
    (w (index u g)).testBit j = m (32 * g + j)

namespace Bitmap

variable {u : Nat} {w w' : Nat → Nat} {m m' : Nat → Bool}

/-- The bits of the lower bitmaps in front of one of them. -/
def sum (w : Nat → Nat) (n : Nat) : Nat := ((List.range n).map fun i => count (w i)).sum

theorem sum_succ (w : Nat → Nat) (n : Nat) : sum w (n + 1) = sum w n + count (w n) := by
  unfold sum
  rw [List.range_succ, List.map_append, List.sum_append]
  simp

theorem sum_congr {n : Nat} (h : ∀ i, i < n → w i = w' i) : sum w n = sum w' n := by
  induction n with
  | zero => rfl
  | succ n ih =>
    rw [sum_succ, sum_succ, ih, h n (Nat.lt_succ_self n)]
    intro i hi
    exact h i (Nat.lt_succ_of_lt hi)

theorem lt_32 (h : u < 2 ^ 8) : u < 2 ^ 32 := Nat.lt_of_lt_of_le h (by decide)

theorem testBit_lt_8 (h : u < 2 ^ 8) {g : Nat} (hg : u.testBit g = true) : g < 8 := by
  apply Nat.lt_of_not_le
  intro hle
  have hlt : u < 2 ^ g := Nat.lt_of_lt_of_le h (Nat.pow_le_pow_right (by decide) hle)
  rw [Nat.testBit_lt_two_pow hlt] at hg
  cases hg

theorem count_upper (h : u < 2 ^ 8) : count u = Nat.count (fun i => u.testBit i = true) 8 := by
  rw [count_eq, show 32 = 8 + 24 from rfl, Nat.count_add]
  have hrest : Nat.count (fun k => u.testBit (8 + k) = true) 24 = 0 := by
    rw [Nat.count_iff_forall_not]
    intro k _ hk
    have hlt := testBit_lt_8 h hk
    omega
  rw [hrest, Nat.add_zero]

theorem index_succ {g : Nat} (hg : g < 32) :
    index u (g + 1) = index u g + if u.testBit g = true then 1 else 0 := by
  rw [index_eq u (by omega), index_eq u (by omega), Nat.count_succ]

theorem index_lt (h : u < 2 ^ 8) {g : Nat} (hg : u.testBit g = true) : index u g < count u := by
  have hlt := testBit_lt_8 h hg
  rw [index_eq u (by omega), count_upper h]
  exact Nat.count_strict_mono hg hlt

theorem index_le_count (h : u < 2 ^ 8) {g : Nat} (hg : g ≤ 8) : index u g ≤ count u := by
  rw [index_eq u (by omega), count_upper h]
  exact Nat.count_monotone _ hg

theorem index_mono {g g' : Nat} (hle : g ≤ g') (hg : g' ≤ 32) : index u g ≤ index u g' := by
  rw [index_eq u (by omega), index_eq u hg]
  exact Nat.count_monotone _ hle

theorem index_inj {g g' : Nat} (h : u < 2 ^ 8) (hg : u.testBit g = true) (hg' : u.testBit g' = true)
    (heq : index u g = index u g') : g = g' := by
  have hlt := testBit_lt_8 h hg
  have hlt' := testBit_lt_8 h hg'
  rw [index_eq u (by omega), index_eq u (by omega)] at heq
  exact Nat.count_injective hg hg' heq

theorem index_lt_index {g g' : Nat} (hg : u.testBit g = true) (hlt : g < g') (hg' : g' ≤ 32) :
    index u g < index u g' := by
  rw [index_eq u (by omega), index_eq u hg']
  exact Nat.count_strict_mono hg hlt

section Lookup

variable (h : Bitmap u w m)
include h

theorem isset {c : Nat} (hc : c < 256) :
    m c = (u.testBit (c / 32) && (w (index u (c / 32))).testBit (c % 32)) := by
  have hg : c / 32 < 8 := by omega
  have heq : 32 * (c / 32) + c % 32 = c := Nat.div_add_mod c 32
  cases hup : u.testBit (c / 32) with
  | true => rw [h.word _ hg hup _ (Nat.mod_lt _ (by decide)), heq, Bool.true_and]
  | false =>
    rw [Bool.false_and]
    apply Bool.eq_false_iff.2
    intro hm
    have hex := (h.upper _ hg).2 ⟨c % 32, Nat.mod_lt _ (by decide), by rw [heq]; exact hm⟩
    rw [hup] at hex
    cases hex

theorem testBit_upper {c : Nat} (hc : c < 256) (hm : m c = true) : u.testBit (c / 32) = true := by
  rw [h.isset hc, Bool.and_eq_true] at hm
  exact hm.1

/-- The bytes of a group are those of its lower bitmap. -/
theorem count_word {g : Nat} (hg : g < 8) (hup : u.testBit g = true) {v : Nat} (hv : v ≤ 32) :
    Nat.count (fun i => (w (index u g)).testBit i = true) v =
      Nat.count (fun k => m (32 * g + k) = true) v := by
  apply count_congr
  intro j hj
  rw [h.word g hg hup j (by omega)]

theorem count_group_of_unset {g : Nat} (hg : g < 8) (hup : u.testBit g = false) (v : Nat)
    (hv : v ≤ 32) : Nat.count (fun k => m (32 * g + k) = true) v = 0 := by
  rw [Nat.count_iff_forall_not]
  intro j hj hm
  have hex := (h.upper g hg).2 ⟨j, by omega, hm⟩
  rw [hup] at hex
  cases hex

/-- The lower bitmaps in front of a group have the bytes in front of it. -/
theorem sum_index {g : Nat} (hg : g ≤ 8) :
    sum w (index u g) = Nat.count (fun c => m c = true) (32 * g) := by
  induction g with
  | zero => rw [index_eq u (by omega), Nat.count_zero, Nat.mul_zero, Nat.count_zero]; rfl
  | succ g ih =>
    have hsplit : 32 * (g + 1) = 32 * g + 32 := by omega
    rw [index_succ (by omega), hsplit, Nat.count_add, ← ih (by omega)]
    cases hup : u.testBit g with
    | true =>
      rw [if_pos rfl, sum_succ, count_eq, h.count_word (by omega) hup (Nat.le_refl 32)]
    | false =>
      rw [if_neg Bool.false_ne_true, Nat.add_zero, h.count_group_of_unset (by omega) hup 32
        (Nat.le_refl 32), Nat.add_zero]

/-- The place of a byte among the others, where its group is there. -/
theorem position {c : Nat} (hc : c < 256) (hup : u.testBit (c / 32) = true) :
    index (w (index u (c / 32))) (c % 32) + sum w (index u (c / 32)) =
      Nat.count (fun c => m c = true) c := by
  have hg : c / 32 < 8 := by omega
  have hmod : c % 32 < 32 := Nat.mod_lt _ (by decide)
  rw [index_eq _ (by omega), h.count_word hg hup (by omega), h.sum_index (by omega)]
  conv => rhs; rw [← Nat.div_add_mod c 32, Nat.count_add]
  exact Nat.add_comm _ _

/-- The place of a byte whose group is not there. -/
theorem position_new {c : Nat} (hc : c < 256) (hup : u.testBit (c / 32) = false) :
    sum w (index u (c / 32)) = Nat.count (fun c => m c = true) c := by
  have hg : c / 32 < 8 := by omega
  have hmod : c % 32 < 32 := Nat.mod_lt _ (by decide)
  rw [h.sum_index (by omega)]
  conv => rhs; rw [← Nat.div_add_mod c 32, Nat.count_add,
    h.count_group_of_unset hg hup _ (by omega), Nat.add_zero]

end Lookup

theorem congr (h : Bitmap u w m) (hw : ∀ i, i < count u → w' i = w i)
    (hm : ∀ c, c < 256 → m' c = m c) : Bitmap u w' m' := by
  have hmem : ∀ g j, g < 8 → j < 32 → m' (32 * g + j) = m (32 * g + j) := by
    intro g j hg hj
    apply hm
    omega
  constructor
  . exact h.upper_lt
  . intro g hg
    rw [h.upper g hg]
    constructor
    . intro ⟨j, hj, hmj⟩
      exact ⟨j, hj, by rw [hmem g j hg hj]; exact hmj⟩
    . intro ⟨j, hj, hmj⟩
      exact ⟨j, hj, by rw [← hmem g j hg hj]; exact hmj⟩
  . intro i hi
    rw [hw i hi]
    exact h.word_lt i hi
  . intro g hg hup j hj
    rw [hw _ (index_lt h.upper_lt hup), hmem g j hg hj]
    exact h.word g hg hup j hj

/-! A byte more. -/

theorem testBit_or_shift (u g n : Nat) :
    (u ||| 1 <<< g).testBit n = (u.testBit n || decide (g = n)) := by
  rw [Nat.testBit_or, testBit_one_shift]

theorem testBit_and_complement {u g n : Nat} (hn : n < 32) :
    (u &&& complement (1 <<< g)).testBit n = (u.testBit n && !decide (g = n)) := by
  rw [Nat.testBit_and, testBit_complement hn, testBit_one_shift]

theorem index_or (u : Nat) {g g' : Nat} (hg' : g' ≤ 32) :
    index (u ||| 1 <<< g) g' = index u g' + if g < g' ∧ u.testBit g = false then 1 else 0 := by
  induction g' with
  | zero => rw [index_eq _ (by omega), index_eq _ (by omega), if_neg (by omega)]; rfl
  | succ n ih =>
    rw [index_succ (by omega), index_succ (by omega), ih (by omega), testBit_or_shift]
    rcases Nat.lt_trichotomy g n with hlt | rfl | hgt
    . rw [decide_eq_false (by omega), Bool.or_false]
      have hiff : (g < n + 1 ∧ u.testBit g = false) ↔ (g < n ∧ u.testBit g = false) := by
        rw [and_congr_left_iff]
        omega
      rw [if_congr hiff rfl rfl]
      omega
    . cases hup : u.testBit g <;> simp
    . have h1 : ¬(g < n ∧ u.testBit g = false) := by omega
      have h2 : ¬(g < n + 1 ∧ u.testBit g = false) := by omega
      rw [decide_eq_false (by omega), Bool.or_false, if_neg h1, if_neg h2]
      omega

theorem index_and (u : Nat) {g g' : Nat} (hg' : g' ≤ 32) :
    index u g' = index (u &&& complement (1 <<< g)) g' +
      if g < g' ∧ u.testBit g = true then 1 else 0 := by
  induction g' with
  | zero => rw [index_eq _ (by omega), index_eq _ (by omega), if_neg (by omega)]; rfl
  | succ n ih =>
    rw [index_succ (by omega), index_succ (by omega), ih (by omega),
      testBit_and_complement (by omega)]
    rcases Nat.lt_trichotomy g n with hlt | rfl | hgt
    . rw [decide_eq_false (by omega), Bool.not_false, Bool.and_true]
      have hiff : (g < n + 1 ∧ u.testBit g = true) ↔ (g < n ∧ u.testBit g = true) := by
        rw [and_congr_left_iff]
        omega
      rw [if_congr hiff rfl rfl]
      omega
    . cases hup : u.testBit g <;> simp
    . have h1 : ¬(g < n ∧ u.testBit g = true) := by omega
      have h2 : ¬(g < n + 1 ∧ u.testBit g = true) := by omega
      rw [decide_eq_false (by omega), Bool.not_false, Bool.and_true, if_neg h1, if_neg h2]
      omega

theorem count_eq_index (h : u < 2 ^ 8) : count u = index u 8 := by
  rw [count_upper h, index_eq u (by omega)]

theorem or_shift_lt (h : u < 2 ^ 8) {g : Nat} (hg : g < 8) : u ||| 1 <<< g < 2 ^ 8 := by
  apply Nat.or_lt_two_pow h
  rw [Nat.one_shiftLeft]
  exact Nat.pow_lt_pow_right (by decide) hg

section Insert

variable (h : Bitmap u w m) {c : Nat} (hc : c < 256)
include h hc

omit hc in
/-- A byte of a group that is there. -/
theorem addOld (hup : u.testBit (c / 32) = true) :
    Bitmap u (Function.update w (index u (c / 32)) (w (index u (c / 32)) ||| 1 <<< (c % 32)))
      (Function.update m c true) := by
  have hmod : c % 32 < 32 := Nat.mod_lt _ (by decide)
  constructor
  . exact h.upper_lt
  . intro g hg
    rw [h.upper g hg]
    constructor
    . intro ⟨j, hj, hm⟩
      refine ⟨j, hj, ?_⟩
      by_cases heq : 32 * g + j = c
      . rw [heq, Function.update_self]
      . rwa [Function.update_of_ne heq]
    . intro ⟨j, hj, hm⟩
      by_cases heq : 32 * g + j = c
      . have hgc : c / 32 = g := by omega
        rw [hgc] at hup
        exact (h.upper g hg).1 hup
      . rw [Function.update_of_ne heq] at hm
        exact ⟨j, hj, hm⟩
  . intro i hi
    by_cases heq : i = index u (c / 32)
    . rw [heq, Function.update_self]
      apply Nat.or_lt_two_pow
      . exact h.word_lt _ (index_lt h.upper_lt hup)
      . exact one_shift_lt hmod
    . rw [Function.update_of_ne heq]
      exact h.word_lt i hi
  . intro g hg hgup j hj
    by_cases heq : g = c / 32
    . have hiff : c % 32 = j ↔ 32 * g + j = c := by omega
      rw [← heq, Function.update_self, testBit_or_shift, h.word g hg hgup j hj]
      by_cases hcj : c % 32 = j
      . rw [decide_eq_true hcj, Bool.or_true, hiff.1 hcj, Function.update_self]
      . rw [decide_eq_false hcj, Bool.or_false, Function.update_of_ne (fun he => hcj (hiff.2 he))]
    . have hne : index u g ≠ index u (c / 32) := fun he => heq (index_inj h.upper_lt hgup hup he)
      rw [Function.update_of_ne hne, Function.update_of_ne (by omega), h.word g hg hgup j hj]

/-- The lower bitmaps with one more at the place. -/
def insertWord (w : Nat → Nat) (l x : Nat) : Nat → Nat := fun i =>
  if i < l then w i else if i = l then x else w (i - 1)

omit h hc in
theorem count_or (h : u < 2 ^ 8) {g : Nat} (hg : g < 8) (hup : u.testBit g = false) :
    count (u ||| 1 <<< g) = count u + 1 := by
  rw [count_eq_index (or_shift_lt h hg), count_eq_index h, index_or u (by omega), if_pos ⟨hg, hup⟩]

/-- The first byte of a group. -/
theorem addNew (hup : u.testBit (c / 32) = false) :
    Bitmap (u ||| 1 <<< (c / 32)) (insertWord w (index u (c / 32)) (1 <<< (c % 32)))
      (Function.update m c true) := by
  have hmod : c % 32 < 32 := Nat.mod_lt _ (by decide)
  have hgc : c / 32 < 8 := by omega
  constructor
  . exact or_shift_lt h.upper_lt hgc
  . intro g hg
    rw [testBit_or_shift, Bool.or_eq_true, decide_eq_true_eq, h.upper g hg]
    constructor
    . rintro (⟨j, hj, hm⟩ | rfl)
      . refine ⟨j, hj, ?_⟩
        by_cases heq : 32 * g + j = c
        . rw [heq, Function.update_self]
        . rwa [Function.update_of_ne heq]
      . refine ⟨c % 32, hmod, ?_⟩
        rw [Nat.div_add_mod, Function.update_self]
    . intro ⟨j, hj, hm⟩
      by_cases heq : 32 * g + j = c
      . exact .inr (by omega)
      . rw [Function.update_of_ne heq] at hm
        exact .inl ⟨j, hj, hm⟩
  . intro i hi
    rw [count_or h.upper_lt hgc hup] at hi
    have hle := index_le_count h.upper_lt (Nat.le_of_lt hgc)
    unfold insertWord
    split
    . exact h.word_lt i (by omega)
    . split
      . exact one_shift_lt hmod
      . exact h.word_lt _ (by omega)
  . intro g hg hgup j hj
    rw [testBit_or_shift, Bool.or_eq_true, decide_eq_true_eq] at hgup
    rw [index_or u (by omega)]
    rcases Nat.lt_trichotomy g (c / 32) with hlt | rfl | hgt
    . have hgup : u.testBit g = true := hgup.resolve_right (by omega)
      have hidx := index_lt_index hgup hlt (by omega)
      rw [if_neg (by omega), Nat.add_zero, insertWord, if_pos hidx, Function.update_of_ne (by omega),
        h.word g hg hgup j hj]
    . have hiff : c % 32 = j ↔ 32 * (c / 32) + j = c := by omega
      rw [if_neg (by omega), Nat.add_zero, insertWord, if_neg (by omega), if_pos rfl,
        testBit_one_shift]
      by_cases hcj : c % 32 = j
      . rw [decide_eq_true hcj, hiff.1 hcj, Function.update_self]
      . rw [decide_eq_false hcj, Function.update_of_ne (fun he => hcj (hiff.2 he))]
        symm
        apply Bool.eq_false_iff.2
        intro hm
        have hex := (h.upper _ hgc).2 ⟨j, hj, hm⟩
        rw [hup] at hex
        cases hex
    . have hgup : u.testBit g = true := hgup.resolve_right (by omega)
      have hidx : index u (c / 32) ≤ index u g := index_mono (by omega) (by omega)
      rw [if_pos ⟨hgt, hup⟩, insertWord, if_neg (by omega), if_neg (by omega), Nat.add_sub_cancel,
        Function.update_of_ne (by omega), h.word g hg hgup j hj]

end Insert

section Remove

variable (h : Bitmap u w m) {c : Nat} (hc : c < 256) (hm : m c = true)
include h hc hm

/-- A byte less, in a group that has others. -/
theorem removeOld (hne : w (index u (c / 32)) &&& complement (1 <<< (c % 32)) ≠ 0) :
    Bitmap u (Function.update w (index u (c / 32))
        (w (index u (c / 32)) &&& complement (1 <<< (c % 32))))
      (Function.update m c false) := by
  have hmod : c % 32 < 32 := Nat.mod_lt _ (by decide)
  have hgc : c / 32 < 8 := by omega
  have hup := h.testBit_upper hc hm
  have hlt := h.word_lt _ (index_lt h.upper_lt hup)
  constructor
  . exact h.upper_lt
  . intro g hg
    constructor
    . intro hgup
      by_cases heq : g = c / 32
      . obtain ⟨j, hj⟩ := Nat.exists_testBit_of_ne_zero hne
        have hj32 : j < 32 := testBit_lt (Nat.lt_of_le_of_lt Nat.and_le_left hlt) hj
        rw [testBit_and_complement hj32, Bool.and_eq_true, Bool.not_eq_true', decide_eq_false_iff_not,
          h.word _ hgc hup j hj32] at hj
        refine ⟨j, hj32, ?_⟩
        rw [heq, Function.update_of_ne (by omega)]
        exact hj.1
      . obtain ⟨j, hj, hmj⟩ := (h.upper g hg).1 hgup
        refine ⟨j, hj, ?_⟩
        rwa [Function.update_of_ne (by omega)]
    . intro ⟨j, hj, hmj⟩
      by_cases heq : 32 * g + j = c
      . rw [heq, Function.update_self] at hmj
        cases hmj
      . rw [Function.update_of_ne heq] at hmj
        exact (h.upper g hg).2 ⟨j, hj, hmj⟩
  . intro i hi
    by_cases heq : i = index u (c / 32)
    . rw [heq, Function.update_self]
      exact Nat.lt_of_le_of_lt Nat.and_le_left hlt
    . rw [Function.update_of_ne heq]
      exact h.word_lt i hi
  . intro g hg hgup j hj
    by_cases heq : g = c / 32
    . have hiff : c % 32 = j ↔ 32 * g + j = c := by omega
      rw [← heq, Function.update_self, testBit_and_complement hj, h.word g hg hgup j hj]
      by_cases hcj : c % 32 = j
      . rw [decide_eq_true hcj, Bool.not_true, Bool.and_false, hiff.1 hcj, Function.update_self]
      . rw [decide_eq_false hcj, Bool.not_false, Bool.and_true,
          Function.update_of_ne (fun he => hcj (hiff.2 he))]
    . have hne' : index u g ≠ index u (c / 32) :=
        fun he => heq (index_inj h.upper_lt hgup hup he)
      rw [Function.update_of_ne hne', Function.update_of_ne (by omega), h.word g hg hgup j hj]

/-- The lower bitmaps without the one at the place. -/
def eraseWord (w : Nat → Nat) (l : Nat) : Nat → Nat := fun i => if i < l then w i else w (i + 1)

omit h hc hm in
theorem and_complement_lt (h : u < 2 ^ 8) (g : Nat) : u &&& complement (1 <<< g) < 2 ^ 8 :=
  Nat.lt_of_le_of_lt Nat.and_le_left h

omit h hc hm in
theorem count_and (h : u < 2 ^ 8) {g : Nat} (hup : u.testBit g = true) :
    count (u &&& complement (1 <<< g)) + 1 = count u := by
  have hg := testBit_lt_8 h hup
  rw [count_eq_index (and_complement_lt h g), count_eq_index h, index_and u (g := g) (by omega),
    if_pos ⟨hg, hup⟩]

/-- The last byte of a group. -/
theorem removeLast (hzero : w (index u (c / 32)) &&& complement (1 <<< (c % 32)) = 0) :
    Bitmap (u &&& complement (1 <<< (c / 32))) (eraseWord w (index u (c / 32)))
      (Function.update m c false) := by
  have hmod : c % 32 < 32 := Nat.mod_lt _ (by decide)
  have hgc : c / 32 < 8 := by omega
  have hup := h.testBit_upper hc hm
  -- the other bytes of the group are not there
  have hgroup : ∀ j, j < 32 → 32 * (c / 32) + j ≠ c → m (32 * (c / 32) + j) = false := by
    intro j hj hne
    have hbit := testBit_and_complement (u := w (index u (c / 32))) (g := c % 32) hj
    rw [hzero, Nat.zero_testBit, h.word _ hgc hup j hj,
      decide_eq_false (by omega : ¬c % 32 = j), Bool.not_false, Bool.and_true] at hbit
    exact hbit.symm
  constructor
  . exact and_complement_lt h.upper_lt _
  . intro g hg
    rw [testBit_and_complement (by omega), Bool.and_eq_true, Bool.not_eq_true',
      decide_eq_false_iff_not, h.upper g hg]
    constructor
    . intro ⟨⟨j, hj, hmj⟩, hne⟩
      refine ⟨j, hj, ?_⟩
      rwa [Function.update_of_ne (by omega)]
    . intro ⟨j, hj, hmj⟩
      by_cases heq : 32 * g + j = c
      . rw [heq, Function.update_self] at hmj
        cases hmj
      . rw [Function.update_of_ne heq] at hmj
        refine ⟨⟨j, hj, hmj⟩, ?_⟩
        intro hgg
        rw [← hgg] at heq hmj
        rw [hgroup j hj heq] at hmj
        cases hmj
  . intro i hi
    have hcount := count_and h.upper_lt hup
    unfold eraseWord
    split
    . exact h.word_lt i (by omega)
    . exact h.word_lt _ (by omega)
  . intro g hg hgup j hj
    rw [testBit_and_complement (by omega), Bool.and_eq_true, Bool.not_eq_true',
      decide_eq_false_iff_not] at hgup
    obtain ⟨hgup, hne⟩ := hgup
    have hidx := index_and u (g := c / 32) (show g ≤ 32 by omega)
    rw [Function.update_of_ne (by omega), ← h.word g hg hgup j hj]
    rcases Nat.lt_trichotomy g (c / 32) with hlt | heq | hgt
    . rw [if_neg (by omega), Nat.add_zero] at hidx
      have hlt' := index_lt_index hgup hlt (by omega)
      rw [← hidx, eraseWord, if_pos hlt']
    . exact absurd heq.symm hne
    . rw [if_pos ⟨hgt, hup⟩] at hidx
      have hlt' := index_lt_index hup hgt (by omega)
      rw [eraseWord, if_neg (by omega), ← hidx]

end Remove

end Bitmap
end Leaves
