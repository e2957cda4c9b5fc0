import Leaves.Core.LayoutSpec
import Mathlib.Data.List.Perm.Basic

/-!
`for_each_branch` goes through the sorted array of branches.
-/

namespace Leaves
namespace Layout

open Branches

/-- The keys ascend. -/
def Ascending (l : List (Int × Nat)) : Prop := l.Pairwise fun x y => x.1 < y.1

theorem Ascending.ext {l l' : List (Int × Nat)} (h : Ascending l) (h' : Ascending l')
    (hmem : ∀ x, x ∈ l ↔ x ∈ l') : l = l' := by
  have hne : ∀ {l : List (Int × Nat)}, Ascending l → l.Nodup := by
    intro l hl
    apply List.Pairwise.imp _ hl
    rintro x y hlt rfl
    exact Int.lt_irrefl _ hlt
  have hperm : l.Perm l' := (List.perm_ext_iff_of_nodup (hne h) (hne h')).2 hmem
  apply hperm.eq_of_pairwise _ h h'
  intro x y _ _ hlt hlt'
  exact absurd (Int.lt_trans hlt hlt') (Int.lt_irrefl _)

section Loops

variable {b : Bytes}

theorem index_zero_of_first {x k : Nat} (hk : k ≤ 32) (hmin : ∀ j, j < k → x.testBit j = false) :
    Bits.index x k = 0 := by
  rw [Bits.index_eq x hk, Nat.count_iff_forall_not]
  intro j hj
  rw [hmin j hj]
  exact Bool.false_ne_true

/-- Behind the first bit there is one bit less in front. -/
theorem index_clearFirst {x : Nat} (hx : x < 2 ^ 32) (hne : x ≠ 0) {j : Nat} (hj : j ≤ 32)
    (hlt : Bits.countrZero x < j) : Bits.index x j = Bits.index (Bits.clearFirst x) j + 1 := by
  obtain ⟨hk, _, hmin⟩ := Bits.countrZero_spec hx hne
  have hbit := Bits.testBit_clearFirst hx hne
  generalize Bits.countrZero x = k at hk hmin hbit hlt
  have hcount := count_insert (m := (Bits.clearFirst x).testBit) (q := x.testBit) (d := k)
    (by rw [hbit k, decide_eq_false (by omega), Bool.and_false]) (by
      intro c
      rw [hbit c, Bool.and_eq_true, decide_eq_true_eq]
      by_cases hc : c = k
      . rw [hc, hk]
        simp
      . simp [hc]) j
  rw [Bits.index_eq x hj, Bits.index_eq _ hj, hcount, if_pos hlt]

theorem lowerBranches_spec (group : Nat) (n remaining arrIdx : Nat) (hx : remaining < 2 ^ 32)
    (hn : Bits.count remaining ≤ n) :
    (lowerBranches b group n remaining arrIdx).2 = arrIdx + Bits.count remaining ∧
      Ascending (lowerBranches b group n remaining arrIdx).1 ∧
      ∀ x, x ∈ (lowerBranches b group n remaining arrIdx).1 ↔
        ∃ j, j < 32 ∧ remaining.testBit j = true ∧
          x = (((32 * group + j : Nat) : Int), array b (arrIdx + Bits.index remaining j)) := by
  induction n generalizing remaining arrIdx with
  | zero =>
    have hzero : Bits.count remaining = 0 := Nat.le_zero.1 hn
    have hno := hzero
    rw [Bits.count_eq, Nat.count_iff_forall_not] at hno
    rw [lowerBranches, hzero]
    refine ⟨rfl, List.Pairwise.nil, ?_⟩
    intro x
    constructor
    . intro hx
      cases hx
    . intro ⟨j, hj, hbit, _⟩
      exact absurd hbit (hno j hj)
  | succ n ih =>
    rw [lowerBranches]
    by_cases hne : remaining = 0
    . rw [if_pos hne, hne]
      have hzero : Bits.count 0 = 0 := by decide
      rw [hzero]
      refine ⟨rfl, List.Pairwise.nil, ?_⟩
      intro x
      constructor
      . intro hx
        cases hx
      . intro ⟨j, _, hbit, _⟩
        rw [Nat.zero_testBit] at hbit
        cases hbit
    . rw [if_neg hne]
      obtain ⟨hk, hk32, hmin⟩ := Bits.countrZero_spec hx hne
      have hclear := Bits.testBit_clearFirst hx hne
      have hfirst : Bits.first remaining = Bits.countrZero remaining := by
        rw [Bits.first, if_pos hne]
      have hcount : Bits.count remaining = Bits.count (Bits.clearFirst remaining) + 1 := by
        have hindex := index_clearFirst hx hne (Nat.le_refl 32) hk32
        rwa [Bits.index_eq _ (Nat.le_refl 32), Bits.index_eq _ (Nat.le_refl 32), ← Bits.count_eq,
          ← Bits.count_eq] at hindex
      have hx' : Bits.clearFirst remaining < 2 ^ 32 := Nat.lt_of_le_of_lt Nat.and_le_left hx
      obtain ⟨hidx, hasc, hmem⟩ := ih (Bits.clearFirst remaining) (arrIdx + 1) hx' (by omega)
      have hlater : ∀ j, (Bits.clearFirst remaining).testBit j = true ↔
          remaining.testBit j = true ∧ Bits.countrZero remaining < j := by
        intro j
        rw [hclear j, Bool.and_eq_true, decide_eq_true_eq]
        apply and_congr_right
        intro hbit
        constructor
        . intro hjk
          apply Nat.lt_of_le_of_ne _ (Ne.symm hjk)
          apply Nat.le_of_not_lt
          intro hlt
          rw [hmin j hlt] at hbit
          cases hbit
        . intro hlt
          omega
      have hrest : ∀ j, Bits.countrZero remaining < j → j < 32 →
          arrIdx + 1 + Bits.index (Bits.clearFirst remaining) j =
            arrIdx + Bits.index remaining j := by
        intro j hlt hj
        have hindex := index_clearFirst hx hne (Nat.le_of_lt hj) hlt
        omega
      refine ⟨by simp only; omega, ?_, ?_⟩
      . apply List.Pairwise.cons _ hasc
        intro x hx
        obtain ⟨j, _, hbit, rfl⟩ := (hmem x).1 hx
        have hlt := ((hlater j).1 hbit).2
        change joinBits _ _ < _
        rw [hfirst, joinBits_eq]
        simp only
        omega
      . intro x
        rw [List.mem_cons, hmem x, hfirst, joinBits_eq]
        constructor
        . rintro (rfl | ⟨j, hj, hbit, rfl⟩)
          . refine ⟨_, hk32, hk, ?_⟩
            rw [index_zero_of_first (Nat.le_of_lt hk32) hmin, Nat.add_zero]
          . have hlt := (hlater j).1 hbit
            exact ⟨j, hj, hlt.1, by rw [hrest j hlt.2 hj]⟩
        . intro ⟨j, hj, hbit, hxj⟩
          by_cases hjk : j = Bits.countrZero remaining
          . refine .inl ?_
            rw [hxj, hjk, index_zero_of_first (Nat.le_of_lt hk32) hmin, Nat.add_zero]
          . have hlt : Bits.countrZero remaining < j := by
              apply Nat.lt_of_le_of_ne _ (Ne.symm hjk)
              apply Nat.le_of_not_lt
              intro hlt
              rw [hmin j hlt] at hbit
              cases hbit
            exact .inr ⟨j, hj, (hlater j).2 ⟨hbit, hlt⟩, by rw [hxj, hrest j hlt hj]⟩

section Groups

variable {m : Nat → Bool} {u remaining low : Nat} (hu : u < 2 ^ 8)
  (hm : ∀ c, c < 256 → m c = true → u.testBit (c / 32) = true)
  (hrem : ∀ g, remaining.testBit g = (u.testBit g && decide (low ≤ g)))
include hm hrem

/-- Nothing is left when no group is. -/
theorem none_of_no_group (hno : ∀ g, remaining.testBit g = false) (c : Nat) (hle : 32 * low ≤ c)
    (hc : c < 256) : m c = false := by
  apply Bool.eq_false_iff.2
  intro hmc
  have hbit := hrem (c / 32)
  rw [hno, hm c hc hmc, decide_eq_true (by omega)] at hbit
  cases hbit

include hu

/-- The groups from `low` on: the first of them, and what is left without it. -/
theorem first_group (hlow : low ≤ 8) (hne : remaining ≠ 0) :
    ∃ g, Bits.countrZero remaining = g ∧ low ≤ g ∧ g < 8 ∧ u.testBit g = true ∧
      Bits.index u g = Bits.index u low ∧ (∀ c, 32 * low ≤ c → c < 32 * g → m c = false) ∧
      Nat.count (fun c => m c = true) (32 * g) = Nat.count (fun c => m c = true) (32 * low) ∧
      ∀ i, (Bits.clearFirst remaining).testBit i = (u.testBit i && decide (g + 1 ≤ i)) := by
  have hlt8 : remaining < 2 ^ 8 := by
    apply Nat.lt_pow_two_of_testBit
    intro g hg
    rw [hrem g, Bool.and_eq_false_iff]
    refine .inl (Nat.testBit_lt_two_pow ?_)
    exact Nat.lt_of_lt_of_le hu (Nat.pow_le_pow_right (by decide) hg)
  have hx := Bitmap.lt_32 hlt8
  obtain ⟨hk, _, hmin⟩ := Bits.countrZero_spec hx hne
  have hclear := Bits.testBit_clearFirst hx hne
  generalize Bits.countrZero remaining = g at hk hmin hclear
  rw [hrem g, Bool.and_eq_true, decide_eq_true_eq] at hk
  obtain ⟨hup, hle⟩ := hk
  have hg := Bitmap.testBit_lt_8 hu hup
  -- the groups between are not there
  have hgap : ∀ i, low ≤ i → i < g → u.testBit i = false := by
    intro i hi hig
    have hbit := hmin i hig
    rwa [hrem i, decide_eq_true hi, Bool.and_true] at hbit
  have hgapm : ∀ c, 32 * low ≤ c → c < 32 * g → m c = false := by
    intro c hlc hcg
    apply Bool.eq_false_iff.2
    intro hmc
    have hbit := hm c (by omega) hmc
    rw [hgap (c / 32) (by omega) (by omega)] at hbit
    cases hbit
  refine ⟨g, rfl, hle, hg, hup, ?_, hgapm, ?_, ?_⟩
  . obtain ⟨d, rfl⟩ := Nat.exists_eq_add_of_le hle
    rw [Bits.index_eq _ (by omega), Bits.index_eq _ (by omega), Nat.count_add]
    apply Nat.add_eq_left.2
    rw [Nat.count_iff_forall_not]
    intro k hk
    rw [hgap (low + k) (by omega) (by omega)]
    exact Bool.false_ne_true
  . obtain ⟨d, hd⟩ := Nat.exists_eq_add_of_le (Nat.mul_le_mul_left 32 hle)
    rw [hd, Nat.count_add]
    apply Nat.add_eq_left.2
    rw [Nat.count_iff_forall_not]
    intro k hk
    rw [hgapm (32 * low + k) (by omega) (by omega)]
    exact Bool.false_ne_true
  . intro i
    rw [hclear i, hrem i, Bool.and_assoc]
    cases hupi : u.testBit i with
    | false => rfl
    | true =>
      rw [Bool.true_and, Bool.true_and, ← Bool.decide_and]
      apply decide_eq_decide.2
      constructor
      . intro ⟨hlo, hne⟩
        apply Nat.lt_of_le_of_ne _ (Ne.symm hne)
        apply Nat.le_of_not_lt
        intro hlt
        rw [hgap i hlo hlt] at hupi
        cases hupi
      . omega

omit hm in
/-- No group is left behind the last one. -/
theorem no_group_of_le (hlow : 8 ≤ low) (g : Nat) : remaining.testBit g = false := by
  rw [hrem g]
  cases hup : u.testBit g with
  | false => rfl
  | true =>
    have hg := Bitmap.testBit_lt_8 hu hup
    rw [decide_eq_false (by omega)]
    rfl

end Groups

section Upper

variable {m : Nat → Bool} (h : Bitmap (upper b) (lower b) m) (none_ : Nat)
include h

/-- The groups from `low` on. -/
theorem upperBranches_spec (n remaining low : Nat) (hlow : low ≤ 8) (hn : 8 ≤ n + low)
    (hrem : ∀ g, remaining.testBit g = ((upper b).testBit g && decide (low ≤ g))) :
    Ascending (upperBranches b n remaining (Bits.index (upper b) low)
        (none_ + Nat.count (fun c => m c = true) (32 * low))) ∧
      ∀ x, x ∈ upperBranches b n remaining (Bits.index (upper b) low)
          (none_ + Nat.count (fun c => m c = true) (32 * low)) ↔
        ∃ c, 32 * low ≤ c ∧ c < 256 ∧ m c = true ∧
          x = ((c : Int), array b (none_ + Nat.count (fun c => m c = true) c)) := by
  have hm : ∀ c, c < 256 → m c = true → (upper b).testBit (c / 32) = true :=
    fun c hc hmc => h.testBit_upper hc hmc
  have hnil : ∀ {remaining low : Nat},
      (∀ g, remaining.testBit g = ((upper b).testBit g && decide (low ≤ g))) →
      (∀ g, remaining.testBit g = false) → ∀ x, x ∈ ([] : List (Int × Nat)) ↔
        ∃ c, 32 * low ≤ c ∧ c < 256 ∧ m c = true ∧
          x = ((c : Int), array b (none_ + Nat.count (fun c => m c = true) c)) := by
    intro remaining low hrem hno x
    constructor
    . intro hx
      cases hx
    . intro ⟨c, hle, hc, hmc, _⟩
      rw [none_of_no_group hm hrem hno c hle hc] at hmc
      cases hmc
  induction n generalizing remaining low with
  | zero => exact ⟨List.Pairwise.nil, hnil hrem (no_group_of_le h.upper_lt hrem (by omega))⟩
  | succ n ih =>
    rw [upperBranches]
    by_cases hne : remaining = 0
    . rw [if_pos hne]
      refine ⟨List.Pairwise.nil, hnil hrem ?_⟩
      intro g
      rw [hne, Nat.zero_testBit]
    . rw [if_neg hne]
      have hfirst : Bits.first remaining = Bits.countrZero remaining := by
        rw [Bits.first, if_pos hne]
      obtain ⟨g, hzero, hle, hg, hup, hindex, hgapm, hcount, hrem'⟩ :=
        first_group h.upper_lt hm hrem hlow hne
      rw [hzero] at hfirst
      have hlower := lower_lt h hup
      obtain ⟨hidx, hasc, hmem⟩ := lowerBranches_spec (b := b) g 32
        (lower b (Bits.index (upper b) g)) (none_ + Nat.count (fun c => m c = true) (32 * g)) hlower
        (by rw [Bits.count_eq]; exact Nat.count_le _)
      have hnext : none_ + Nat.count (fun c => m c = true) (32 * (g + 1)) =
          none_ + Nat.count (fun c => m c = true) (32 * g) +
            Bits.count (lower b (Bits.index (upper b) g)) := by
        rw [Nat.mul_succ, Nat.count_add, Bits.count_eq, h.count_word hg hup (Nat.le_refl 32),
          Nat.add_assoc]
      have hindex' : Bits.index (upper b) (g + 1) = Bits.index (upper b) g + 1 := by
        rw [Bitmap.index_succ (by omega), if_pos hup]
      obtain ⟨hasc', hmem'⟩ := ih (Bits.clearFirst remaining) (g + 1) hg (by omega) hrem'
      rw [← hindex, ← hcount, hfirst]
      simp only
      rw [hidx, ← hnext, ← hindex']
      -- the place of a byte of the group
      have hplace : ∀ j, j < 32 → none_ + Nat.count (fun c => m c = true) (32 * g) +
          Bits.index (lower b (Bits.index (upper b) g)) j =
            none_ + Nat.count (fun c => m c = true) (32 * g + j) := by
        intro j hj
        rw [Bits.index_eq _ (by omega), h.count_word hg hup (by omega), Nat.add_assoc,
          ← Nat.count_add]
      constructor
      . apply List.pairwise_append.2
        refine ⟨hasc, hasc', ?_⟩
        intro x hx y hy
        obtain ⟨j, hj, _, rfl⟩ := (hmem x).1 hx
        obtain ⟨c, hc, _, _, rfl⟩ := (hmem' y).1 hy
        simp only
        omega
      . intro x
        rw [List.mem_append, hmem x, hmem' x]
        constructor
        . rintro (⟨j, hj, hbit, rfl⟩ | ⟨c, hc, hlt, hm, rfl⟩)
          . rw [h.word g hg hup j hj] at hbit
            exact ⟨32 * g + j, by omega, by omega, hbit, by rw [hplace j hj]⟩
          . exact ⟨c, by omega, hlt, hm, rfl⟩
        . intro ⟨c, hc, hlt, hm, hx⟩
          by_cases hcg : c < 32 * (g + 1)
          . have hge : 32 * g ≤ c := by
              apply Nat.le_of_not_lt
              intro hlt'
              rw [hgapm c hc hlt'] at hm
              cases hm
            obtain ⟨j, rfl⟩ := Nat.exists_eq_add_of_le hge
            refine .inl ⟨j, by omega, ?_, ?_⟩
            . rw [h.word g hg hup j (by omega)]
              exact hm
            . rw [hx, hplace j (by omega)]
          . exact .inr ⟨c, by omega, hlt, hm, hx⟩

end Upper

end Loops

namespace Rep

variable {hashSize : Nat} {b : Bytes} {t : TrieNode} (h : Rep hashSize b t)
include h

/-- The link of a branch is at its place. -/
theorem mem_array_iff {c : UInt8} {v : Addr} : (some c, v) ∈ t.array ↔
    members t.array c.toNat = true ∧ v = array b (t.hasNone.toNat +
      Nat.count (fun c => members t.array c = true) c.toNat) := by
  have hlen := length_below h.sorted c
  have hnone : t.hasNone = Branches.isset t.array none := rfl
  have hlink : ∀ v, (some c, v) ∈ t.array → v = array b (below t.array (some c)).length := by
    intro v hv
    obtain ⟨l, r, harr⟩ := List.append_of_mem hv
    have hsorted : Sorted (l ++ (some c, v) :: r) := by
      rw [← harr]
      exact h.sorted
    have hget : t.array[l.length]? = some (some c, v) := by
      rw [harr, List.getElem?_append_right (Nat.le_refl _), Nat.sub_self]
      rfl
    rw [harr, below_append_cons hsorted]
    exact (h.links _ _ hget).symm
  constructor
  . intro hv
    refine ⟨?_, ?_⟩
    . rw [members_toNat, isset_iff]
      exact ⟨v, hv⟩
    . rw [hnone, ← hlen]
      exact hlink v hv
  . intro ⟨hm, hv⟩
    rw [members_toNat, isset_iff] at hm
    obtain ⟨v', hv'⟩ := hm
    have heq := hlink v' hv'
    rw [hlen, ← hnone, ← hv] at heq
    rw [← heq]
    exact hv'

theorem mem_array_none {v : Addr} : (none, v) ∈ t.array ↔ t.hasNone = true ∧ v = array b 0 := by
  have hlink : ∀ v, (none, v) ∈ t.array → v = array b 0 := by
    intro v hv
    obtain ⟨l, r, harr⟩ := List.append_of_mem hv
    have hsorted : Sorted (l ++ (none, v) :: r) := by
      rw [← harr]
      exact h.sorted
    have hnil : l = [] := by
      apply List.eq_nil_iff_forall_not_mem.2
      intro y hy
      have hlt := (sorted_append_cons.mp hsorted).2.2.1 y hy
      have hle := Branch.neg_one_le_toInt y.1
      rw [Branch.toInt_none] at hlt
      omega
    have hget : t.array[0]? = some (none, v) := by
      rw [harr, hnil]
      rfl
    exact (h.links _ _ hget).symm
  constructor
  . intro hv
    exact ⟨(isset_iff _ _).2 ⟨v, hv⟩, hlink v hv⟩
  . intro ⟨hn, hv⟩
    obtain ⟨v', hv'⟩ := (isset_iff _ _).1 hn
    rw [hv, ← hlink v' hv']
    exact hv'

/-- All of the branches, in their order. -/
theorem forEachBranch_eq : forEachBranch b = t.array.map fun x => (x.1.toInt, x.2) := by
  have hspec := upperBranches_spec h.bitmap t.hasNone.toNat 8 (upper b) 0 (by omega) (by omega)
    (fun g => by rw [decide_eq_true (Nat.zero_le g), Bool.and_true])
  rw [Nat.mul_zero, Nat.count_zero, Nat.add_zero] at hspec
  have hindex : Bits.index (upper b) 0 = 0 := by
    rw [Bits.index_eq _ (by omega), Nat.count_zero]
  rw [hindex] at hspec
  obtain ⟨hasc, hmem⟩ := hspec
  have hsorted : Ascending (t.array.map fun x => (x.1.toInt, x.2)) := by
    apply List.pairwise_map.2
    exact h.sorted
  have hbyte : ∀ x, x ∈ upperBranches b 8 (upper b) 0 t.hasNone.toNat ↔
      ∃ c v, (some c, v) ∈ t.array ∧ x = (Branch.toInt (some c), v) := by
    intro x
    rw [hmem x]
    constructor
    . intro ⟨c, _, hc, hm, hx⟩
      refine ⟨UInt8.ofNat c, _, h.mem_array_iff.2 ⟨?_, rfl⟩, ?_⟩
      . rw [UInt8.toNat_ofNat_of_lt' hc]
        exact hm
      . rw [Branch.toInt_some, UInt8.toNat_ofNat_of_lt' hc]
        exact hx
    . intro ⟨c, v, hv, hx⟩
      obtain ⟨hm, hv⟩ := h.mem_array_iff.1 hv
      exact ⟨c.toNat, Nat.zero_le _, c.toNat_lt, hm, by rw [hx, hv, Branch.toInt_some]⟩
  unfold forEachBranch
  rw [h.hasNone_eq]
  cases hn : t.hasNone with
  | true =>
    rw [if_pos rfl]
    rw [hn, Bool.toNat_true] at hasc hbyte
    apply Ascending.ext _ hsorted
    . intro x
      rw [List.mem_cons, hbyte x, List.mem_map]
      constructor
      . rintro (rfl | ⟨c, v, hv, rfl⟩)
        . exact ⟨(none, array b 0), h.mem_array_none.2 ⟨hn, rfl⟩, rfl⟩
        . exact ⟨(some c, v), hv, rfl⟩
      . rintro ⟨⟨k, v⟩, hv, rfl⟩
        cases k with
        | none => exact .inl (by rw [(h.mem_array_none.1 hv).2])
        | some c => exact .inr ⟨c, v, hv, rfl⟩
    . apply List.Pairwise.cons _ hasc
      intro x hx
      obtain ⟨c, v, _, rfl⟩ := (hbyte x).1 hx
      simp only [Branch.toInt_none, Branch.toInt_some]
      omega
  | false =>
    rw [if_neg Bool.false_ne_true]
    rw [hn, Bool.toNat_false] at hasc hbyte
    apply Ascending.ext hasc hsorted
    intro x
    rw [hbyte x, List.mem_map]
    constructor
    . rintro ⟨c, v, hv, rfl⟩
      exact ⟨(some c, v), hv, rfl⟩
    . rintro ⟨⟨k, v⟩, hv, rfl⟩
      cases k with
      | none =>
        have hn' := (h.mem_array_none.1 hv).1
        rw [hn] at hn'
        cases hn'
      | some c => exact ⟨c, v, hv, rfl⟩

end Rep
end Layout
end Leaves
